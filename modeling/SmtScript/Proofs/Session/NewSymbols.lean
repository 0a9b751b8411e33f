import SmtScript.Proofs.Engine
import SmtScript.Proofs.Name
import SmtScript.Proofs.Session.Enclosed
import SmtScript.Proofs.Session.Neat

/-!
New symbols of a session.

All symbols of a session are in one table, those of declared names and those that are made on the
way, and what a session holds mentions only symbols of the table. So a symbol whose name is not
taken occurs nowhere, neither in the session nor in an earlier one that it goes on from. Every
symbol that is made is new in this sense, `Reachable.symbols_new`, whatever names the script has
declared and in whatever order.
-/

namespace SmtScript

open Solver Step Translation TermState

/-- Whether a symbol occurs in what a name stands for. -/
inductive Binding.Mentions (s : Symbol) : Binding → Prop where
  | term {t : Term} (h : t.Mentions s) : Mentions s (.term t)
  | parameter {d : Definition} (h : s ∈ d.parameters) : Mentions s (.definition d)
  | body {d : Definition} (h : d.body.Mentions s) : Mentions s (.definition d)

variable {T T' : TermState} {s : Symbol}

theorem TermState.knows_of_mentions {t : Term} (h : t.Mentions s) (ht : t.Sound T.Knows)
    (htame : t.Tame T.Bindable) : T.Knows s :=
  h.allowed ht (htame.mono fun _ hs => hs.1)

theorem Binding.Mentions.knows {binding : Binding} (h : binding.Mentions s)
    (hsound : binding.Sound T.Knows) (hneat : binding.Neat T) : T.Knows s := by
  cases h with
  | term h => exact T.knows_of_mentions h hsound hneat
  | parameter h => exact hneat.2 s h
  | body h => exact T.knows_of_mentions h hsound hneat.1

theorem Solver.distinct_of_enlarges {σ μ : Type} [Solver σ μ] [NamingSolver σ μ]
    {table table' : SymbolTable} (h : Relation.ReflTransGen (Enlarges σ) table table')
    (htable : table.Distinct) : table'.Distinct := by
  induction h with
  | refl => exact htable
  | tail _ hlast ih => exact hlast.distinct ih

/-! ### Symbols that are made on the way -/

namespace Translation

/-- The variables of a quantifier are made one after the other, each named after itself. -/
theorem declareVariables_makes (sorts : SortTable) (declarations : List SExpr) (T : TermState) :
    Leads (fun _ _ => True) (declareVariables sorts declarations) T fun T' declared =>
      T.table.Makes (declared.map fun p => (p.1 ++ "_", p.2)) T'.table := by
  induction declarations generalizing T with
  | nil => exact .pure closed_true (.nil _)
  | cons declaration rest ih =>
    unfold declareVariables
    split
    · cases ‹_ = _›
    · rename_i name sort rest' heq
      obtain ⟨rfl, rfl⟩ := List.cons.inj heq
      refine .bind_same trivial (Q := fun _ _ => True) (.mk closed_eq fun _ _ => trivial)
        fun sort _ => ?_
      refine .bind_of_run (run_freshLocal _ _ T) ?_
      refine .bind closed_true (ih _) fun later T₂ _ hlater => ?_
      exact .pure closed_true ((T.table.makes_fresh _ _).append hlater)
    · exact .throw closed_true _

/-- An integer part is known, or a new symbol stands for it. -/
theorem integerPart_makes {t u : Term} (h : (integerPart t).run T = (.ok u, T')) :
    T' = T ∨ ∃ s, u = .symbol s ∧ T.table.Makes [("to_int_", s)] T'.table ∧
      T'.integerParts = (s, t) :: T.integerParts := by
  unfold integerPart at h
  split at h
  · exact .inl (Prod.mk.inj h).2.symm
  · exact .inl (Prod.mk.inj h).2.symm
  · rw [run_bind_ok (run_get _)] at h
    dsimp only at h
    split at h
    · cases h
    · obtain ⟨hu, rfl⟩ := Prod.mk.inj h
      obtain rfl := Except.ok.inj hu
      exact .inr ⟨_, rfl, T.table.makes_fresh _ _, rfl⟩
  · cases h

end Translation

namespace Session

variable {σ μ : Type} {S S' : Session σ μ}

/-- The parameters of a definition are made one after the other, named after the function. -/
theorem declareParameters_makes (name : String) (parameters : List SExpr) (S : Session σ μ) :
    Leads (fun _ _ => True) (declareParameters name parameters) S fun S' declared =>
      S.terms.table.Makes (declared.map fun p => (name ++ "_arg", p.2)) S'.terms.table := by
  induction parameters generalizing S with
  | nil => exact .pure closed_true (.nil _)
  | cons parameter rest ih =>
    unfold declareParameters
    split
    · cases ‹_ = _›
    · rename_i parameter sort rest' heq
      obtain ⟨rfl, rfl⟩ := List.cons.inj heq
      refine .get (.bind_same trivial (ofExcept_leads _ S) fun sort _ => ?_)
      refine .bind_of_run (run_onTerms _ _) ?_
      refine .bind closed_true (ih _) fun later S₂ _ hlater => ?_
      exact .pure closed_true ((S.terms.table.makes_fresh _ _).append hlater)
    · exact .throw closed_true _

/-! ### Symbols that occur in a session -/

/-- Whether a symbol occurs in nothing that a session holds. -/
structure Unmentioned (S : Session σ μ) (s : Symbol) : Prop where
  assertions : ∀ t ∈ S.assertions.items, ¬ t.Mentions s
  names : ∀ name binding, S.names.get? name = some binding → ¬ binding.Mentions s
  parts : ∀ p ∈ S.terms.integerParts, p.1 ≠ s ∧ ¬ p.2.Mentions s

/-- All that occurs in a session is in its table. -/
theorem unmentioned_of_unknown (hsound : S.Sound) (hneat : S.Neat) (hs : ¬ S.terms.Knows s) :
    S.Unmentioned s where
  assertions t ht hmentions :=
    hs (S.terms.knows_of_mentions hmentions (hsound.assertions t ht) (hneat.assertions t ht))
  names name binding hfind hmentions :=
    hs (hmentions.knows (hsound.names name binding hfind) (hneat.names name binding hfind))
  parts p hp := by
    refine ⟨?_, fun hmentions => hs ?_⟩
    · rintro rfl
      exact hs (hsound.terms.known p hp)
    · exact S.terms.knows_of_mentions hmentions (hsound.terms.operand p hp)
        (hneat.terms.operands p hp)

variable [Solver σ μ]

/-- Whether a command leads from one session to another without starting again. -/
inductive Proceeds (S S' : Session σ μ) : Prop where
  | intro {command : SExpr} {result : Except Error (Option String)}
      (hrun : (execute command).run S = (result, S'))
      (hreset : ¬ (command.Requests .reset ∧ result = .ok none)) : Proceeds S S'

abbrev LeadsOn : Session σ μ → Session σ μ → Prop := Relation.ReflTransGen Proceeds

/-- Whether the name of a symbol is not taken, and the symbol occurs nowhere in the session nor in
the sessions before it. -/
structure New (S : Session σ μ) (s : Symbol) : Prop where
  name : S.terms.table.hasName s.name = false
  unmentioned : ∀ {S₀ : Session σ μ}, S₀.Reachable → LeadsOn S₀ S → S₀.Unmentioned s

section

variable [GrowingSolver σ μ]

theorem LeadsOn.keeps (h : LeadsOn S S') (hS : S.Reachable) :
    S'.Reachable ∧ S.terms.table.symbols <:+ S'.terms.table.symbols := by
  induction h with
  | refl => exact ⟨hS, List.suffix_refl _⟩
  | tail _ hlast ih =>
    obtain ⟨hreachable, hsuffix⟩ := ih
    obtain ⟨hrun, hreset⟩ := hlast
    refine ⟨hreachable.execute hrun, hsuffix.trans ?_⟩
    rcases execute_widens hreachable.neat hrun with hwidens | ⟨hrequest, hok, _⟩
    · exact hwidens.terms.grows.table
    · exact absurd ⟨hrequest, hok⟩ hreset

/-- A name that is not taken is that of a new symbol. -/
theorem new_of_hasName (h : S.terms.table.hasName s.name = false) : S.New s where
  name := h
  unmentioned hreachable hgoes := by
    have hsuffix := (hgoes.keeps hreachable).2
    exact unmentioned_of_unknown hreachable.sound hreachable.neat fun hknown =>
      SymbolTable.not_mem_of_hasName h (hsuffix.subset hknown)

end

variable [NamingSolver σ μ]

theorem Reachable.distinct (h : S.Reachable) : S.terms.table.Distinct :=
  (h.induction_widens (P := fun S => S.terms.table.Distinct)
    (fun _ _ _ => SymbolTable.distinct_empty)
    fun _ _ _ hwidens => Solver.distinct_of_enlarges hwidens.terms.table).2

/-- Whether all symbols that are made are new. -/
structure SymbolsNew (S : Session σ μ) : Prop where
  distinct : S.terms.table.Distinct
  printed : ∀ s ∈ S.terms.table.symbols, ∀ s' ∈ S.terms.table.symbols, s ≠ s' →
    s.text ≠ s'.text ∧ s.display ≠ s'.display
  /-- A declaration that succeeds binds its name to a new symbol. -/
  declared : ∀ {command : SExpr} {name : String} {domains : List SExpr} {codomain : SExpr}
    {output : Option String} {S' : Session σ μ},
    command.Requests (.declareFun name domains codomain) →
    (execute command).run S = (.ok output, S') →
      ∃ s, S.New s ∧ S.terms.table.Declares name s S'.terms.table ∧
        S'.names = S.names.insert name (.term (.symbol s))
  /-- Whatever else a command makes is new, too, also if it fails. -/
  made : ∀ {S' : Session σ μ}, Proceeds S S' →
    ∃ made, S'.terms.table.symbols = made ++ S.terms.table.symbols ∧ ∀ s ∈ made, S.New s

/-- Whether the names of symbols that are made on the way are a stem and a number, the next one
that makes the name new in the table of that moment. -/
structure SymbolsNumbered (σ μ : Type) [Solver σ μ] : Prop where
  /-- No two symbols that are made for stems share a name, and nothing else is made. -/
  makes : ∀ {table table' : SymbolTable} {made : List (String × Symbol)},
    table.Makes made table' →
      table'.symbols = (made.map Prod.snd).reverse ++ table.symbols ∧
      (made.map fun p => p.2.name).Nodup ∧
      ∀ p ∈ made, table.hasName p.2.name = false ∧ ∃ n : Nat, p.2.name = p.1 ++ toString n
  quantified : ∀ {sorts : SortTable} {declarations : List SExpr} {T T' : TermState}
    {declared : List (String × Symbol)},
    (declareVariables sorts declarations).run T = (.ok declared, T') →
      T.table.Makes (declared.map fun p => (p.1 ++ "_", p.2)) T'.table
  parameters : ∀ {name : String} {parameters : List SExpr} {S S' : Session σ μ}
    {declared : List (String × Symbol)},
    (declareParameters name parameters).run S = (.ok declared, S') →
      S.terms.table.Makes (declared.map fun p => (name ++ "_arg", p.2)) S'.terms.table
  integerParts : ∀ {t u : Term} {T T' : TermState}, (integerPart t).run T = (.ok u, T') →
    T' = T ∨ ∃ s, u = .symbol s ∧ T.table.Makes [("to_int_", s)] T'.table ∧
      T'.integerParts = (s, t) :: T.integerParts
  witnesses : ∀ {sexpr : SExpr} {t u : Term} {T T' : TermState},
    (isIntegral sexpr t).run T = (.ok u, T') →
      ∃ s equality, u = .quantified .existential [s] equality ∧
        T.table.Makes [("is_int_", s)] T'.table
  /-- The elements of sorts that a model names come after the parameters. -/
  interpretations : ∀ {f : Symbol} {m m' : Engine.Model} {table table' : SymbolTable}
    {parameters : List Symbol} {body : Term},
    (Solver.interpret Engine f).run (m, table) = (.ok (parameters, body), m', table') →
      parameters.length = f.sort.domains.length ∧
        ∃ table₁, table.Makes (parameters.map fun s => ("x!", s)) table₁ ∧ table₁.Adds table'

theorem symbolsNumbered (σ μ : Type) [Solver σ μ] : SymbolsNumbered σ μ where
  makes h := ⟨h.symbols, h.distinct, fun p hp => ⟨h.new p hp, h.numbered p hp⟩⟩
  quantified hrun := (declareVariables_makes _ _ _ _ _ hrun).2 _ rfl
  parameters hrun := (declareParameters_makes _ _ _ _ _ hrun).2 _ rfl
  integerParts := integerPart_makes
  witnesses {_ _ _ T _} hrun := by
    obtain ⟨rfl, equality, hu⟩ := quantified_of_isIntegral hrun
    exact ⟨_, equality, hu, T.table.makes_fresh _ _⟩
  interpretations hrun := by
    obtain ⟨hmakes, hadds, hlength⟩ := Engine.parameters_of_interpret hrun
    exact ⟨hlength, _, hmakes, hadds⟩

/-- Declared and other symbols share one space of names and one counter, and yet each is new when
it is made. -/
theorem symbols_new (h : S.Reachable) : S.SymbolsNew ∧ SymbolsNumbered σ μ := by
  have hdistinct := h.distinct
  refine ⟨⟨hdistinct, fun s hs s' hs' hne => ⟨fun htext => hne ?_, fun hdisplay => hne ?_⟩,
    fun {command name domains codomain output S'} hrequest hrun => ?_, fun {S'} hproceeds => ?_⟩,
    symbolsNumbered σ μ⟩
  · exact hdistinct.eq_of_name hs hs' (Symbol.name_eq_of_text htext)
  · exact hdistinct.eq_of_name hs hs' (Symbol.name_eq_of_display hdisplay)
  · have hperform := run_execute_ok hrequest hrun
    rcases run_declareFun S name domains codomain with ⟨e, he⟩ | ⟨s, table, hdeclares, hok⟩
    · cases (run_bind_error he).symm.trans hperform
    · obtain ⟨_, rfl⟩ := Prod.mk.inj ((run_bind_ok hok).symm.trans hperform)
      exact ⟨s, new_of_hasName hdeclares.new, hdeclares, rfl⟩
  · obtain ⟨hreachable, made, hmade⟩ := LeadsOn.keeps (.single hproceeds) h
    refine ⟨made, hmade.symm, fun s hs => new_of_hasName ?_⟩
    have hnames := hreachable.distinct
    rw [SymbolTable.Distinct, ← hmade, List.map_append] at hnames
    refine Bool.eq_false_iff.mpr fun htaken => ?_
    exact (List.nodup_append.mp hnames).2.2 _ (List.mem_map_of_mem hs) _
      (SymbolTable.hasName_iff.mp htaken) rfl

/-- A name that looks like a numbered one is declared before the number comes up. -/
theorem symbols_new_percent : ∃ S : Session Engine Engine.Model,
    after [.list [.atom "declare-const", .atom "50%", .atom "Real"],
      .list [.atom "declare-const", .atom "50%_0", .atom "Real"],
      .list [.atom "define-fun", .atom "k", .list [], .atom "Bool",
        .list [.atom "exists", .list [.list [.atom "50%", .atom "Int"]],
          .list [.atom "is_int", .atom "50%_0"]]],
      .list [.atom "declare-const", .atom "50%", .atom "Real"]] (start (.ofSolver "z3")) = S ∧
      S.terms.table.symbols.map Symbol.name =
        ["50%_3", "is_int_2", "50%_1", "50%_0", "50%"] ∧
      S.SymbolsNew ∧ SymbolsNumbered Engine Engine.Model :=
  ⟨_, rfl, by decide +kernel, symbols_new ⟨_, _, rfl⟩⟩

end Session

end SmtScript
