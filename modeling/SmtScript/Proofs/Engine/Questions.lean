import SmtScript.Engine
import SmtScript.Proofs.Engine.Conversion
import SmtScript.Proofs.Solver
import SmtScript.Proofs.Symbol

/-!
Questions to a model of the engine.

A question changes neither the values that a model has nor what a name stands for. What it leaves
of the conversion of its terms does not stand in the way of a symbol that could have been asked
about before. So the value of a symbol does not depend on questions that have been answered,
`Engine.evaluate_before`.
-/

namespace SmtScript

namespace Engine

open Step

variable {α β : Type} {p p' : Model × SymbolTable} {m m' : Model} {table table' : SymbolTable}

/-- What a question does to a model and to the symbols, whatever comes of it. -/
structure Questioned (p p' : Model × SymbolTable) : Prop where
  completion : p'.1.completion = p.1.completion
  adds : p.2.Adds p'.2
  table : p.2.Extends p'.2
  regular : p.1.conversion.Regular → p'.1.conversion.Regular

theorem closed_questioned : Closed Questioned where
  refl _ := ⟨rfl, .refl _, SymbolTable.extends_refl _, id⟩
  trans h h' :=
    ⟨h'.completion.trans h.completion, h.adds.trans h'.adds, h.table.trans h'.table,
      fun hregular => h'.regular (h.regular hregular)⟩

/-- Whether what would be converted after a question would be converted before it. -/
def Clear (p p' : Model × SymbolTable) : Prop :=
  p.1.conversion.Regular → ∀ t, p'.1.conversion.Accepts t → p.1.conversion.Accepts t

/-- A question that leaves nothing in the way when it is answered. -/
abbrev Asks (query : ModelQuery Model α) : Prop :=
  ∀ p, Leads Questioned query p fun p' _ => Clear p p'

theorem asks_pure (a : α) : Asks (pure a : ModelQuery Model α) :=
  fun _ => .pure closed_questioned fun _ _ => id

theorem asks_throw (f : Fault) : Asks (throw f : ModelQuery Model α) :=
  fun _ => .throw closed_questioned f

theorem Asks.bind {x : ModelQuery Model α} {f : α → ModelQuery Model β} (hx : Asks x)
    (hf : ∀ a, Asks (f a)) : Asks (x >>= f) := by
  intro p
  refine .bind closed_questioned (hx p) fun a p₁ h₁ hclear₁ =>
    (hf a p₁).mono fun p₂ _ _ hclear₂ => ?_
  exact fun hregular t ht => hclear₁ hregular t (hclear₂ (h₁.regular hregular) t ht)

/-- A step that makes symbols with new names. -/
theorem asks_of_run {x : ModelQuery Model α} {r : Except Fault α}
    (hrun : x.run (m, table) = (r, (m, table'))) (hadds : table.Adds table')
    (htable : table.Extends table') :
    Leads Questioned x (m, table) fun p' _ => Clear (m, table) p' :=
  .of_run hrun ⟨rfl, hadds, htable, id⟩ fun _ _ _ _ => id

theorem asks_nameElements (symbols : List Symbol) : Asks (nameElements symbols) := by
  induction symbols with
  | nil => exact asks_pure ()
  | cons s rest ih =>
    intro p
    refine .get ?_
    obtain ⟨m, table⟩ := p
    dsimp only
    split
    · split
      · exact ih _
      · exact asks_throw _ _
    · rename_i hnew
      refine .bind closed_questioned (Q := fun p' _ => Clear (m, table) p')
        (asks_of_run (run_set _ _) (SymbolTable.adds_cons (SymbolTable.find?_eq_none.mp hnew) _)
          (SymbolTable.extends_cons hnew))
        fun _ p' h' hclear => (ih p').mono fun _ _ _ hclear' hregular t ht => ?_
      exact hclear hregular t (hclear' (h'.regular hregular) t ht)

theorem asks_valueTerm (v : Value) : Asks (valueTerm v) := by
  have hrest : Asks (do nameElements (elementSymbols v); return v.term) :=
    (asks_nameElements _).bind fun _ => asks_pure _
  unfold valueTerm
  split
  · split
    · exact (asks_throw _).bind fun _ => hrest
    · exact hrest
  · exact hrest

theorem asks_convertFor (t : Term) : Asks (convertFor t) := by
  rintro ⟨m, table⟩
  refine .get ?_
  dsimp only
  have hset : Questioned (m, table)
      ({ m with conversion := (m.conversion.convert t).2 }, table) :=
    ⟨rfl, .refl _, SymbolTable.extends_refl _, fun h => (h.convert t).regular⟩
  refine .bind closed_questioned (Q := fun p' _ => p' = _)
    (.of_run (run_set _ _) hset fun _ _ => rfl) fun _ p' _ hp' => ?_
  subst hp'
  split
  · rename_i hok
    refine .pure closed_questioned fun hregular t' ht' => ?_
    exact (hregular.convert t).accepts (by rw [hok]; rfl) t' ht'
  · exact .throw closed_questioned _

theorem asks_valueOf (t : Term) : Asks (valueOf t) :=
  fun _ => .get (asks_valueTerm _ _)

theorem asks_evaluate (t : Term) : Asks (evaluate t) :=
  (asks_convertFor t).bind fun _ => asks_valueOf t

theorem asks_mapM {f : α → ModelQuery Model β} (hf : ∀ a, Asks (f a)) (as : List α) :
    Asks (as.mapM f) := by
  induction as with
  | nil => exact asks_pure []
  | cons a rest ih =>
    rw [List.mapM_cons]
    exact (hf a).bind fun _ => ih.bind fun _ => asks_pure _

theorem asks_entryTerms (entry : List Value × Value) : Asks (entryTerms entry) :=
  (asks_mapM asks_valueTerm _).bind fun _ => (asks_valueTerm _).bind fun _ => asks_pure _

theorem asks_freshAll (stem : String) (sorts : List SmtSort) :
    Asks (modifyGet fun (model, table) =>
      let (parameters, table) := table.freshAll stem sorts
      (parameters, (model, table)) : ModelQuery Model (List Symbol)) :=
  fun p => asks_of_run (run_modifyGet _ p) (p.2.adds_freshAll _ _) (p.2.extends_freshAll _ _)

theorem asks_table? (f : Symbol) : Asks (table? f) := by
  refine fun p => .get ?_
  dsimp only
  split
  · exact asks_pure none p
  · exact (asks_valueTerm _).bind (fun _ => (asks_mapM asks_entryTerms _).bind fun _ =>
      asks_pure _) p

theorem asks_interpret (f : Symbol) : Asks (interpret f) := by
  refine (asks_freshAll _ _).bind fun parameters => ?_
  refine (asks_convertFor _).bind fun _ => (asks_table? f).bind fun known => ?_
  split
  · exact (asks_valueOf _).bind fun _ => asks_pure _
  · split
    · exact asks_pure _
    · exact asks_throw _

theorem asks_answered {query : ModelQuery Model α} (h : Solver.Answers Engine query) :
    Asks query := by
  cases h with
  | evaluate t => exact asks_evaluate t
  | interpret f => exact asks_interpret f

/-! ### Values -/

/-- Elements are named with fewer symbols as with more. -/
theorem nameElements_before {symbols : List Symbol} {p' : Model × SymbolTable}
    (h : (nameElements symbols).run (m', table') = (.ok (), p'))
    (htable : table.Extends table') (m : Model) :
    ∃ table₁, (nameElements symbols).run (m, table) = (.ok (), m, table₁) := by
  induction symbols generalizing table table' with
  | nil => exact ⟨table, rfl⟩
  | cons s rest ih =>
    unfold nameElements at h ⊢
    rw [run_bind_ok (run_get _)] at h ⊢
    dsimp only at h ⊢
    cases hfind : table.find? s.name with
    | some other =>
      rw [htable _ _ hfind] at h
      dsimp only at h ⊢
      split at h
      · rename_i hsort
        rw [if_pos hsort]
        exact ih h htable
      · cases h
    | none =>
      dsimp only
      have hadded {table' : SymbolTable} (htable : (table.add s).Extends table')
          (h : (nameElements rest).run (m', table') = (.ok (), p')) :
          ∃ table₁, (do set (m, table.add s); nameElements rest).run (m, table) =
            (.ok (), m, table₁) := by
        obtain ⟨table₁, h₁⟩ := ih h htable
        exact ⟨table₁, (run_bind_ok (run_set _ _)).trans h₁⟩
      split at h
      · rename_i other hother
        split at h
        · rename_i hsort
          have hname := SymbolTable.name_of_find? hother
          have hsame : other = s := by
            cases other
            cases s
            exact congr (congrArg Symbol.mk hname) hsort
          exact hadded (htable.add_of_find? (hsame ▸ hother)) h
        · cases h
      · rw [run_bind_ok (run_set _ _)] at h
        exact hadded (htable.add s) h

/-- A value that has a term has the same one with fewer symbols. -/
theorem valueTerm_before {v : Value} {t : Term} {p' : Model × SymbolTable}
    (h : (valueTerm v).run (m', table') = (.ok t, p')) (htable : table.Extends table') (m : Model) :
    t = v.term ∧ ∃ table₁, (valueTerm v).run (m, table) = (.ok t, m, table₁) := by
  have hrest (h : (do nameElements (elementSymbols v); return v.term).run (m', table') =
      (.ok t, p')) : t = v.term ∧ ∃ table₁,
        (do nameElements (elementSymbols v); return v.term).run (m, table) =
          (.ok t, m, table₁) := by
    rw [run_bind] at h
    split at h
    · rename_i _ q hnames
      obtain ⟨table₁, h₁⟩ := nameElements_before hnames htable m
      obtain ⟨heq, _⟩ := Prod.mk.inj h
      obtain rfl := Except.ok.inj heq
      exact ⟨rfl, table₁, run_bind_ok h₁⟩
    · cases h
  unfold valueTerm at h ⊢
  split at h
  · split at h
    · cases h
    · exact hrest h
  · exact hrest h

theorem run_convertFor (t : Term) (m : Model) (table : SymbolTable) :
    (convertFor t).run (m, table) = ((m.conversion.convert t).1,
      { m with conversion := (m.conversion.convert t).2 }, table) := by
  unfold convertFor
  rw [run_bind_ok (run_get _)]
  dsimp only
  rw [run_bind_ok (run_set _ _)]
  cases (m.conversion.convert t).1 <;> rfl

/-- The value of a term is asked for once the term has been converted. -/
theorem run_evaluate (t : Term) (m : Model) (table : SymbolTable) :
    (evaluate t).run (m, table) =
      match (m.conversion.convert t).1 with
      | .ok () => (valueTerm (t.valueIn m.completion.interpretation)).run
          ({ m with conversion := (m.conversion.convert t).2 }, table)
      | .error f => (.error f, { m with conversion := (m.conversion.convert t).2 }, table) := by
  unfold evaluate valueOf
  rw [run_bind, run_convertFor]
  cases (m.conversion.convert t).1 with
  | error f => rfl
  | ok u =>
    dsimp only
    rw [run_bind_ok (run_get _)]

theorem evaluate_ok {t v : Term} (h : (evaluate t).run (m, table) = (.ok v, p')) :
    m.conversion.Accepts t ∧
      (valueTerm (t.valueIn m.completion.interpretation)).run
        ({ m with conversion := (m.conversion.convert t).2 }, table) = (.ok v, p') := by
  rw [run_evaluate] at h
  split at h
  · rename_i hok
    exact ⟨by rw [Conversion.Accepts, hok]; rfl, h⟩
  · cases h

/-- The values of a model, while it is asked questions. -/
theorem evaluate_before {query : ModelQuery Model α} {a : α} {t v : Term}
    (hregular : m.conversion.Regular) (hasks : Asks query)
    (hquery : query.run (m, table) = (.ok a, m', table'))
    (h : (evaluate t).run (m', table') = (.ok v, p')) :
    ∃ m₁ table₁, (evaluate t).run (m, table) = (.ok v, m₁, table₁) := by
  obtain ⟨hquestioned, hclear⟩ := hasks _ _ _ hquery
  obtain ⟨haccepts, hvalue⟩ := evaluate_ok h
  have haccepted : m.conversion.Accepts t := hclear a rfl hregular t haccepts
  have hcompletion : m'.completion = m.completion := hquestioned.completion
  rw [hcompletion] at hvalue
  obtain ⟨_, table₁, h₁⟩ := valueTerm_before hvalue hquestioned.table
    { m with conversion := (m.conversion.convert t).2 }
  refine ⟨{ m with conversion := (m.conversion.convert t).2 }, table₁, ?_⟩
  rw [run_evaluate]
  unfold Conversion.Accepts at haccepted
  cases hconvert : (m.conversion.convert t).1 with
  | ok _ => exact h₁
  | error f => rw [hconvert] at haccepted; cases haccepted

/-- The value of a term is that in the completion. -/
theorem evaluate_eq {t v : Term} (h : (evaluate t).run (m, table) = (.ok v, p')) :
    v = (t.eval m.completion.interpretation).term := by
  obtain ⟨_, hvalue⟩ := evaluate_ok h
  rw [Term.valueIn_eq] at hvalue
  exact (valueTerm_before hvalue (SymbolTable.extends_refl _) m).1

/-- The parameters of a function are made first, one for each argument. -/
theorem parameters_interpret (f : Symbol) (m : Model) (table : SymbolTable) :
    Leads (fun _ p => (table.freshAll "x!" f.sort.domains).2.Adds p.2) (interpret f) (m, table)
      fun _ r => r.1 = (table.freshAll "x!" f.sort.domains).1 := by
  have hlater {α : Type} {query : ModelQuery Model α} (hasks : Asks query)
      (p : Model × SymbolTable) : Leads (fun p p' => p.2.Adds p'.2) query p fun _ _ => True :=
    ((hasks p).weaken fun _ h => h.adds).mono fun _ _ _ _ => trivial
  have hclosed : Closed fun p p' : Model × SymbolTable => p.2.Adds p'.2 :=
    ⟨fun p => .refl p.2, .trans⟩
  refine .bind_of_run
    (P := fun p : Model × SymbolTable => (table.freshAll "x!" f.sort.domains).2.Adds p.2)
    (run_modifyGet _ _) ?_
  refine .bind hclosed (hlater (asks_convertFor _) _) fun _ p _ _ => ?_
  refine .bind hclosed (hlater (asks_table? f) p) fun known p' _ _ => ?_
  split
  · exact .bind hclosed (hlater (asks_valueOf _) p') fun _ _ _ _ => .pure hclosed rfl
  · split
    · exact .pure hclosed rfl
    · exact .throw hclosed _

theorem parameters_of_interpret {f : Symbol} {parameters : List Symbol} {body : Term}
    (h : (interpret f).run (m, table) = (.ok (parameters, body), m', table')) :
    table.Makes (parameters.map fun s => ("x!", s)) (table.freshAll "x!" f.sort.domains).2 ∧
      (table.freshAll "x!" f.sort.domains).2.Adds table' ∧
      parameters.length = f.sort.domains.length := by
  obtain ⟨hadds, hparameters⟩ := parameters_interpret f m table _ _ h
  obtain rfl : parameters = (table.freshAll "x!" f.sort.domains).1 := hparameters _ rfl
  exact ⟨table.makes_freshAll _ _, hadds, table.length_freshAll _ _⟩

/-- A model that the engine gives has not been asked about any term. -/
theorem given_model (engine : Engine) (table : SymbolTable) :
    Leads (fun _ _ => True) Engine.model (engine, table) fun _ m => m.conversion = .start := by
  refine .get ?_
  dsimp only
  split
  · exact .throw closed_true _
  · split
    · exact .pure closed_true rfl
    · exact .throw closed_true _
    · exact .bind closed_true (.any _ _) fun _ _ _ _ => .pure closed_true rfl

theorem regular_of_arises (h : Solver.Arises Engine m) : m.conversion.Regular := by
  induction h with
  | @given solver solver' table table' m hrun =>
    exact ((given_model solver table _ _ hrun).2 m rfl).symm ▸ Conversion.regular_start
  | @asked α query m m' table table' r _ hanswers hrun ih =>
    exact (asks_answered hanswers _ _ _ hrun).1.regular ih

end Engine

end SmtScript
