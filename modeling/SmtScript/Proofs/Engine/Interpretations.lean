import Mathlib
import SmtScript.Proofs.Engine.Completion
import SmtScript.Proofs.Engine.Questions
import SmtScript.Proofs.FunctionTable
import SmtScript.Proofs.SortTable
import SmtScript.Proofs.Term.HasSort

/-!
Definitions of functions.

A function is told by parameters and a body. If a model has a table for the function, the body has
the value that the table says, whatever the arguments are; otherwise the body is a constant. So it
is for every way to ask a model, and for the models of the engine, `Engine.definitions_agree`.
-/

namespace SmtScript

open Step Term

/-- Whether a sort is one of values all the way down. -/
def SmtSort.isFirstOrder : SmtSort → Bool
  | .array index element => index.isFirstOrder && element.isFirstOrder
  | .arrow _ _ => false
  | _ => true

namespace Value

variable {v : Value} {sort : SmtSort}

theorem sort_of_hasSort (hsort : sort.isFirstOrder = true) (hv : v.HasSort sort) :
    v.sort = sort := by
  induction v generalizing sort with
  | constArray index d ih =>
    cases sort with
    | array index' elements =>
      obtain ⟨rfl, hd⟩ := hv
      rw [Value.sort, ih (Bool.and_eq_true_iff.mp hsort).2 hd]
    | arrow _ _ => cases hsort
    | _ => cases hv
  | update a k x ih =>
    cases sort with
    | array index elements => exact ih hsort hv.1
    | arrow _ _ => cases hsort
    | _ => cases hv
  | _ => cases sort <;> simp_all [Value.sort, SmtSort.isFirstOrder]

theorem sort_term (v : Value) : v.term.sort = v.sort := by
  induction v with
  | constArray index d ih => rw [Value.term, Term.sort, ih, Value.sort]
  | update a k x ih => rw [Value.term, Term.sort, ih, Value.sort]
  | _ => rfl

/-- The term of a value has the sort of the value. -/
theorem typed_term (hsort : sort.isFirstOrder = true) (hv : v.HasSort sort) :
    v.term.Typed sort := by
  refine ⟨?_, (sort_term v).trans (sort_of_hasSort hsort hv)⟩
  induction v generalizing sort with
  | constArray index d ih =>
    cases sort with
    | array index' elements =>
      have hd := ih (Bool.and_eq_true_iff.mp hsort).2 hv.2
      exact .node rfl (List.forall_mem_singleton.mpr hd)
    | arrow _ _ => cases hsort
    | _ => cases hv
  | update a k x iha ihk ihx =>
    cases sort with
    | array index elements =>
      obtain ⟨ha, hk, hx⟩ := hv
      obtain ⟨hindex, helements⟩ := Bool.and_eq_true_iff.mp hsort
      have hfits : (Term.store a.term k.term x.term).fits = true := by
        simp [fits, sort_term, sort_of_hasSort hsort ha, sort_of_hasSort hindex hk,
          sort_of_hasSort helements hx]
      have hoperands : ∀ t ∈ [a.term, k.term, x.term], t.WellSorted := by
        simpa using ⟨iha hsort ha, ihk hindex hk, ihx helements hx⟩
      exact .node hfits hoperands
    | arrow _ _ => cases hsort
    | _ => cases hv
  | _ => exact .node rfl (List.forall_mem_nil _)

theorem typed_terms {vs : List Value} {sorts : List SmtSort}
    (hsorts : ∀ sort ∈ sorts, sort.isFirstOrder = true) (h : List.Forall₂ HasSort vs sorts) :
    List.Forall₂ Typed (vs.map Value.term) sorts := by
  induction h with
  | nil => exact .nil
  | cons hv _ ih =>
    obtain ⟨hsort, hrest⟩ := List.forall_mem_cons.mp hsorts
    exact .cons (typed_term hsort hv) (ih hrest)

/-- The only symbols in the term of a value are those of elements. -/
theorem mem_freeSymbols_term {s : Symbol} (h : s ∈ v.term.freeSymbols) :
    ∃ sort number, s = elementSymbol sort number := by
  induction v with
  | element sort number => exact ⟨sort, number, by simpa [Value.term, freeSymbols] using h⟩
  | constArray index d ih => exact ih h
  | update a k x iha ihk ihx =>
    simp only [Value.term, freeSymbols, mem_joined] at h
    rcases h with h | h | h
    · exact iha h
    · exact ihk h
    · exact ihx h
  | _ => cases h

theorem tame_term (hidden : Symbol → Prop) (v : Value) : v.term.Tame hidden := by
  induction v with
  | constArray index d ih => exact .node nofun nofun (List.forall_mem_singleton.mpr ih)
  | update a k x iha ihk ihx =>
    have hoperands : ∀ t ∈ [a.term, k.term, x.term], t.Tame hidden := by
      simpa using ⟨iha, ihk, ihx⟩
    exact .node nofun nofun hoperands
  | _ => exact .node nofun nofun nofun

/-- Parameters are no elements: the name of an element has letters that theirs lack. -/
theorem elementSymbol_ne {s : Symbol} {n : Nat} (hs : s.name = "x!" ++ toString n) (sort : String)
    (number : Nat) : s ≠ elementSymbol sort number := by
  rintro rfl
  have hletter : 'v' ∈ (elementSymbol sort number).name.toList := by
    simp [elementSymbol]
  rw [hs, String.toList_append, List.mem_append] at hletter
  rcases hletter with h | h
  · simp at h
  · cases isDigit_of_mem_toString h

end Value

namespace Engine

variable {f : Symbol} {m : Model} {symbols : SymbolTable} {p p' : Model × SymbolTable}

/-! ### What a completion has on a function -/

/-- The table of what is known of a function, and of the value that it has elsewhere. -/
def Completion.table (model : Completion) (f : Symbol) : FunctionTable where
  entries := (model.assignment.entries f).map fun (args, v) => (args.map Value.term, v.term)
  formals := []
  otherwise := (model.elseValue f).term

/-- Whether the values that are known of a function are of its sorts. -/
def Completion.Fits (model : Completion) (f : Symbol) : Prop :=
  ∀ entry ∈ model.assignment.entries f,
    List.Forall₂ Value.HasSort entry.1 f.sort.domains ∧ entry.2.HasSort f.sort.target

theorem elseValue_of_entries_nil {model : Completion} (h : model.assignment.entries f = []) :
    model.elseValue f = .default f.sort.target := by
  unfold Completion.elseValue
  rw [h]
  cases model.plainElse <;> rfl

theorem Completion.Fits.elseValue {model : Completion} (h : model.Fits f) :
    (model.elseValue f).HasSort f.sort.target := by
  unfold Completion.elseValue
  split
  · rename_i heq
    exact (h _ (heq ▸ List.mem_cons_self)).2
  · exact Value.hasSort_default _

theorem Completion.Fits.table {model : Completion} (h : model.Fits f)
    (hsorts : ∀ sort ∈ f.sort.target :: f.sort.domains, sort.isFirstOrder = true) :
    (model.table f).Fits f.sort.domains f.sort.target := by
  obtain ⟨htarget, hdomains⟩ := List.forall_mem_cons.mp hsorts
  refine ⟨fun entry he => ?_, fun entry he => ?_, nofun, Value.typed_term htarget h.elseValue⟩
  · obtain ⟨known, hknown, rfl⟩ := List.mem_map.mp he
    exact Value.typed_terms hdomains (h known hknown).1
  · obtain ⟨known, hknown, rfl⟩ := List.mem_map.mp he
    exact Value.typed_term htarget (h known hknown).2

/-- Parameters have nothing to do with what a completion has on a function. -/
theorem avoids_table {model : Completion} {parameters : List Symbol}
    (hnames : ∀ s ∈ parameters, ∃ n : Nat, s.name = "x!" ++ toString n) :
    (model.table f).Avoids parameters := by
  have hvalue (v : Value) (s : Symbol) (hs : s ∈ parameters) : s ∉ v.term.freeSymbols := by
    intro hfree
    obtain ⟨sort, number, heq⟩ := Value.mem_freeSymbols_term hfree
    obtain ⟨n, hn⟩ := hnames s hs
    exact Value.elementSymbol_ne hn sort number heq
  refine ⟨fun entry he t ht s hs => ?_, hvalue _, Value.tame_term _ _⟩
  obtain ⟨⟨args, v⟩, -, rfl⟩ := List.mem_map.mp he
  rcases List.mem_cons.mp ht with rfl | hargs
  · exact hvalue v s hs
  · obtain ⟨arg, -, rfl⟩ := List.mem_map.mp hargs
    exact hvalue arg s hs

/-- Nothing is known of the results of a function without entries. -/
theorem value?_of_entries_nil {σ : Assignment} (h : σ.entries f = []) (args : List Argument) :
    σ.value? (.result (plain f) args) = none := by
  have hnone := List.filterMap_eq_nil_iff.mp h
  have hother : ∀ entry ∈ σ, (Location.result (plain f) args == entry.1) = false := by
    rintro ⟨place, v⟩ he
    have hentry := hnone (place, v) (List.mem_reverse.mpr he)
    cases place with
    | result g others =>
      have hne : g ≠ plain f := by simpa using hentry
      have hsplit : (Location.result (plain f) args == Location.result g others) =
        (plain f == g && args == others) := rfl
      rw [hsplit, beq_false_of_ne hne.symm, Bool.false_and]
    | _ => rfl
  unfold Assignment.value?
  clear h hnone
  induction σ with
  | nil => rfl
  | cons entry rest ih =>
    obtain ⟨hfirst, hrest⟩ := List.forall_mem_cons.mp hother
    rw [List.lookup_cons, hfirst]
    exact ih hrest

/-! ### Questions about functions -/

theorem valueTerm_eq (v : Value) (p : Model × SymbolTable) :
    Leads (fun _ _ => True) (valueTerm v) p fun _ t => t = v.term := by
  obtain ⟨m, symbols⟩ := p
  rintro r p' hrun
  refine ⟨trivial, fun t ht => ?_⟩
  subst ht
  exact (valueTerm_before hrun (SymbolTable.extends_refl _) m).1

theorem mapM_eq {α β : Type} {query : α → ModelQuery Model β} {g : α → β}
    (h : ∀ a p, Leads (fun _ _ => True) (query a) p fun _ b => b = g a) (as : List α)
    (p : Model × SymbolTable) :
    Leads (fun _ _ => True) (as.mapM query) p fun _ bs => bs = as.map g := by
  induction as generalizing p with
  | nil => exact .pure closed_true rfl
  | cons a rest ih =>
    rw [List.mapM_cons]
    refine .bind closed_true (h a p) fun b p₁ _ hb => ?_
    refine .bind closed_true (ih p₁) fun bs p₂ _ hbs => .pure closed_true ?_
    rw [hb, hbs, List.map_cons]

theorem table?_eq (f : Symbol) (p : Model × SymbolTable) :
    Leads (fun _ _ => True) (table? f) p fun _ known =>
      (p.1.completion.assignment.entries f = [] ∧ known = none) ∨
        (p.1.completion.assignment.entries f ≠ [] ∧
          known = some (p.1.completion.table f)) := by
  refine .get ?_
  dsimp only
  split
  · rename_i hnil
    exact .pure closed_true (.inl ⟨hnil, rfl⟩)
  · rename_i hsome
    refine .bind closed_true (valueTerm_eq _ p) fun otherwise p₁ _ hotherwise => ?_
    have hentry (entry : List Value × Value) (p : Model × SymbolTable) :
        Leads (fun _ _ => True) (entryTerms entry) p fun _ terms =>
          terms = (entry.1.map Value.term, entry.2.term) := by
      refine .bind closed_true (mapM_eq valueTerm_eq _ p) fun args p₁ _ hargs => ?_
      refine .bind closed_true (valueTerm_eq _ p₁) fun v p₂ _ hv => .pure closed_true ?_
      rw [hargs, hv]
    refine .bind closed_true (mapM_eq hentry _ p₁) fun entries p₂ _ hentries => ?_
    refine .pure closed_true (.inr ⟨hsome, ?_⟩)
    rw [hotherwise, hentries]
    rfl

theorem valueOf_eq (t : Term) (p : Model × SymbolTable) :
    Leads (fun _ _ => True) (valueOf t) p fun _ v =>
      v = (t.eval p.1.completion.interpretation).term := by
  refine .get ?_
  rw [valueIn_eq]
  exact valueTerm_eq _ p

/-- A definition that the engine gives is the body of a table, or a default if nothing is known of
the function. -/
theorem interpret_tells {r : List Symbol × Term}
    (hrun : (interpret f).run (m, symbols) = (.ok r, p')) :
    (∃ symbols', symbols.freshAll "x!" f.sort.domains = (r.1, symbols')) ∧
      ((m.completion.assignment.entries f = [] ∧ r.2 = (Value.default f.sort.target).term) ∨
        (m.completion.assignment.entries f ≠ [] ∧
          (m.completion.table f).body r.1 = .ok r.2)) := by
  obtain ⟨symbols', p₁, p₂, hfresh, haccept, hrest⟩ := FunctionSource.define_ok hrun
  refine ⟨⟨symbols', hfresh⟩, ?_⟩
  have hcompletion : p₁.1.completion = m.completion :=
    (asks_convertFor _ _ _ _ haccept).1.completion
  rcases hrest with ⟨htable, hvalue⟩ | ⟨table, htable, hbody⟩
  · -- nothing is known of the function, so the application has the default as its value
    have hsame : p₂.1.completion = p₁.1.completion := (asks_table? f _ _ _ htable).1.completion
    rcases (table?_eq f p₁ _ _ htable).2 _ rfl with ⟨hnil, -⟩ | ⟨-, hsome⟩
    · rw [hcompletion] at hnil
      refine .inl ⟨hnil, ?_⟩
      have hv := (valueOf_eq _ p₂ _ _ hvalue).2 _ rfl
      rw [hv, hsame, hcompletion, eval]
      show (m.completion.resultValue f _).term = _
      rw [Completion.resultValue, value?_of_entries_nil hnil, Option.getD_none,
        elseValue_of_entries_nil hnil]
    · cases hsome
  · rcases (table?_eq f p₁ _ _ htable).2 _ rfl with ⟨-, hnone⟩ | ⟨hentries, hsome⟩
    · cases hnone
    · obtain rfl := Option.some.inj hsome
      rw [hcompletion] at hentries hbody
      exact .inr ⟨hentries, hbody⟩

/-- A function that is told by parameters and a body is defined as the model has it.

Whatever a model is asked in the place of the engine's, as long as it takes in the application of
the function to the parameters: these are new symbols of the sorts of the arguments; if there is a
table, then there is a body, and for all arguments it has the value of the first entry with these
arguments or else the other value at them; and if there is none, then the body is the value of the
application. For a model of the engine, this value is a constant of the sort of the results. -/
theorem definitions_agree :
    (∀ {μ : Type} (source : FunctionSource μ) (f : Symbol) (m : μ) (symbols symbols' : SymbolTable)
        (parameters : List Symbol) (p : μ × SymbolTable),
      symbols.freshAll "x!" f.sort.domains = (parameters, symbols') →
      (source.accept (.apply f (parameters.map .symbol))).run (m, symbols') = (.ok ⟨⟩, p) →
        (parameters.map Symbol.sort = f.sort.domains ∧ parameters.Nodup ∧
          ∀ s ∈ parameters, symbols.hasName s.name = false) ∧
        (∀ table p', (source.table? f).run p = (.ok (some table), p') →
          table.Fits f.sort.domains f.sort.target → table.Avoids parameters →
            ∃ body, (source.define f).run (m, symbols) = (.ok (parameters, body), p') ∧
              table.Defines f.sort.domains f.sort.target parameters body) ∧
        ∀ p' v p'', (source.table? f).run p = (.ok none, p') →
          (source.value (.apply f (parameters.map .symbol))).run p' = (.ok v, p'') →
            (source.define f).run (m, symbols) = (.ok (parameters, v), p'')) ∧
    ∀ (f : Symbol) (m : Model) (symbols : SymbolTable) (parameters : List Symbol) (body : Term)
        (p' : Model × SymbolTable),
      (∀ sort ∈ f.sort.target :: f.sort.domains, sort.isFirstOrder = true) →
      (Solver.interpret Engine f).run (m, symbols) = (.ok (parameters, body), p') →
        (m.completion.assignment.entries f = [] →
          body = (Value.default f.sort.target).term ∧ body.Typed f.sort.target) ∧
        (m.completion.Fits f →
          (m.completion.table f).Defines f.sort.domains f.sort.target parameters body) := by
  constructor
  · intro μ source f m symbols symbols' parameters p hfresh haccept
    obtain ⟨hsorts, hnodup, hnew⟩ := FunctionSource.parameters_new hfresh
    refine ⟨⟨hsorts, hnodup, fun s hs => (hnew s hs).1⟩, ?_, ?_⟩
    · intro table p' htable hfits havoids
      obtain ⟨body, hbody, hdefines⟩ := FunctionTable.builds_body hfits havoids hsorts hnodup
      exact ⟨body, FunctionSource.run_define_of_some hfresh haccept htable hbody, hdefines⟩
    · intro p' v p'' htable hvalue
      exact FunctionSource.run_define_of_none hfresh haccept htable hvalue
  · intro f m symbols parameters body p' hfirst hrun
    obtain ⟨⟨symbols', hfresh⟩, htells⟩ := interpret_tells hrun
    obtain ⟨hsorts, hnodup, hnew⟩ := FunctionSource.parameters_new hfresh
    have havoids : (m.completion.table f).Avoids parameters :=
      avoids_table fun s hs => (hnew s hs).2
    have hdefault : (Value.default f.sort.target).term.Typed f.sort.target :=
      Value.typed_term (List.forall_mem_cons.mp hfirst).1 (Value.hasSort_default _)
    rcases htells with ⟨hnil, rfl⟩ | ⟨hentries, hbody⟩
    · refine ⟨fun _ => ⟨rfl, hdefault⟩, fun _ => ⟨hdefault, fun I vs _ _ => ?_⟩⟩
      have hother : (m.completion.table f).otherwise = (Value.default f.sort.target).term :=
        congrArg Value.term (elseValue_of_entries_nil hnil)
      have hentries : (m.completion.table f).entries = [] := by
        simp only [Completion.table, hnil, List.map_nil]
      have hvalue : (m.completion.table f).valueAt I vs =
          (m.completion.table f).otherwise.eval I := by
        rw [FunctionTable.valueAt, hentries]
        rfl
      rw [hvalue, hother]
      exact eval_congr (Interpretation.agree_assignAll (hother ▸ havoids.otherwise))
    · refine ⟨fun hnil => absurd hnil hentries, fun hfits => ?_⟩
      obtain ⟨body', hbody', hdefines⟩ :=
        FunctionTable.builds_body (hfits.table hfirst) havoids hsorts hnodup
      obtain rfl := Except.ok.inj (hbody.symm.trans hbody')
      exact hdefines

/-- A function of integers that is one more than its argument, but for two entries. -/
def successor : FunctionTable where
  entries := [([.int 1], .int 5), ([.int 2], .int 7)]
  formals := [⟨"a", .int⟩]
  otherwise := .arith .add (.symbol ⟨"a", .int⟩) (.int 1)

theorem fits_successor : successor.Fits [.int] .int where
  arguments := List.forall_mem_cons.mpr ⟨.cons (typed_int 1) .nil,
    List.forall_mem_singleton.mpr (.cons (typed_int 2) .nil)⟩
  values := List.forall_mem_cons.mpr ⟨typed_int 5, List.forall_mem_singleton.mpr (typed_int 7)⟩
  formals := by decide
  otherwise := .node rfl (List.forall_mem_cons.mpr
    ⟨.node rfl nofun, List.forall_mem_singleton.mpr (typed_int 1).wellSorted⟩)

theorem avoids_successor : successor.Avoids [⟨"x!0", .int⟩] where
  entries := by decide
  otherwise := by decide
  bound := .node nofun nofun (List.forall_mem_cons.mpr
    ⟨tame_symbol _, List.forall_mem_singleton.mpr (.node nofun nofun nofun)⟩)

/-- The entries come first, and elsewhere the argument is put into the other value. Nothing is known
of another function, so it is told by a constant. -/
theorem definitions_agree_successor :
    (∃ body, (FunctionSource.define ⟨fun _ => pure (), fun _ => pure (some successor),
        fun _ => pure (.int 0)⟩ ⟨"f", .arrow .int .int⟩).run ((), .empty) =
          (.ok ([⟨"x!0", .int⟩], body), (), ⟨[⟨"x!0", .int⟩], 1⟩) ∧
      [1, 2, 3].map (fun n => body.eval
        (Completion.empty.interpretation.assignAll [⟨"x!0", .int⟩] [.int n])) =
          [.int 5, .int 7, .int 4]) ∧
    ∃ p' : Model × SymbolTable,
      (Solver.interpret Engine ⟨"g", .arrow .int .bool⟩).run (⟨.empty, .start⟩, .empty) =
        (.ok ([⟨"x!0", .int⟩], .bool false), p') := by
  obtain ⟨hsource, hengine⟩ := definitions_agree
  constructor
  · obtain ⟨-, hsome, -⟩ := hsource ⟨fun _ => pure (), fun _ => pure (some successor),
      fun _ => pure (.int 0)⟩ ⟨"f", .arrow .int .int⟩ () .empty _ [⟨"x!0", .int⟩] _ rfl rfl
    obtain ⟨body, hrun, hdefines⟩ := hsome successor _ rfl fits_successor avoids_successor
    refine ⟨body, hrun, ?_⟩
    have hvalue (n : Int) : body.eval
        (Completion.empty.interpretation.assignAll [⟨"x!0", .int⟩] [.int n]) =
          successor.valueAt Completion.empty.interpretation [.int n] :=
      hdefines.agrees _ _ proper_empty (.cons trivial .nil)
    simp only [hvalue]
    decide +kernel
  · have hparameters : ((Solver.interpret Engine ⟨"g", .arrow .int .bool⟩).run
        (⟨.empty, .start⟩, .empty) : Except Fault (List Symbol × Term) × _).1.map Prod.fst =
          .ok [⟨"x!0", .int⟩] := by
      cbv
    obtain ⟨⟨r, p'⟩, hrun⟩ : ∃ q : Except Fault (List Symbol × Term) × Model × SymbolTable,
        (Solver.interpret Engine ⟨"g", .arrow .int .bool⟩).run (⟨.empty, .start⟩, .empty) = q :=
      ⟨_, rfl⟩
    rw [hrun] at hparameters
    cases r with
    | error fault => cases hparameters
    | ok r =>
      obtain ⟨parameters, body⟩ := r
      obtain rfl : parameters = [⟨"x!0", .int⟩] := Except.ok.inj hparameters
      obtain ⟨hnone, -⟩ := hengine _ _ _ _ _ _ (by decide) hrun
      obtain ⟨rfl, -⟩ := hnone rfl
      exact ⟨p', hrun⟩

end Engine

end SmtScript
