import SmtScript.Proofs.Engine.Questions

/-!
The formulas of the engine.

A call of the engine changes the formulas in its last step, if it gets that far. All steps before
keep the formulas and make symbols at most.
-/

namespace SmtScript

namespace Engine

/-- Whether the formulas are the same, and symbols were added at most. -/
structure Keeps (p p' : Engine × SymbolTable) : Prop where
  table : p.2.Adds p'.2
  formulas : p'.1.formulas = p.1.formulas

theorem closed_keeps : Step.Closed Keeps where
  refl _ := ⟨.refl _, rfl⟩
  trans h h' := ⟨h.table.trans h'.table, h'.formulas.trans h.formulas⟩

variable {α : Type} {p : Engine × SymbolTable}

/-- A call that keeps the formulas whatever comes of it. -/
abbrev Quiet (call : SolverCall Engine α) : Prop :=
  ∀ p, Step.Leads Keeps call p fun _ _ => True

theorem quiet_change {f : Engine → Engine} (hf : ∀ engine, (f engine).formulas = engine.formulas) :
    Quiet (change f) :=
  fun p => .modify ⟨.refl _, hf p.1⟩ trivial

theorem quiet_closeAssumptions : Quiet closeAssumptions := by
  refine quiet_change fun engine => ?_
  split <;> rfl

theorem quiet_convert (t : Term) : Quiet (convert t) := by
  intro p
  refine .get ?_
  refine .bind closed_keeps (quiet_change (by intro; rfl) p) fun _ p' _ _ => ?_
  split
  · exact .pure closed_keeps trivial
  · exact .throw closed_keeps _

theorem quiet_track : Quiet track := by
  intro p
  refine .get ?_
  split
  · rename_i engine table
    dsimp only
    split
    · refine .bind closed_keeps (Q := fun _ _ => True)
        (.of_run (Step.run_set _ _) ⟨table.adds_fresh _ _, rfl⟩ fun _ _ => trivial)
        fun _ p' _ _ => ?_
      exact quiet_convert _ p'
    · exact .pure closed_keeps trivial

theorem quiet_take (t : Term) : Quiet (take t) := by
  intro p
  unfold take
  split
  · exact .bind (Q := fun _ _ => True) closed_keeps (.throw closed_keeps _) fun _ p' _ _ =>
      .bind closed_keeps (quiet_convert t p') fun _ p'' _ _ => quiet_track p''
  · exact .bind closed_keeps (quiet_convert t p) fun _ p' _ _ => quiet_track p'

/-- Only what is Boolean is taken. -/
theorem take_sort (t : Term) (p : Engine × SymbolTable) :
    Step.Leads (fun _ _ => True) (take t) p fun _ _ => t.sort = .bool := by
  unfold take
  split
  · exact .bind (Q := fun _ _ => False) Step.closed_true (.throw Step.closed_true _)
      fun _ _ _ h => h.elim
  · rename_i hbool
    have hsort : t.sort = .bool := by simpa [Term.isBool] using hbool
    exact (Step.Leads.any _ p).mono fun _ _ _ _ => hsort

theorem quiet_takeLiterals (ts : List Term) : Quiet (takeLiterals ts) := by
  induction ts with
  | nil => exact fun p => .pure closed_keeps trivial
  | cons t rest ih =>
    exact fun p => .bind closed_keeps (quiet_convert t p) fun _ p' _ _ => ih p'

theorem quiet_otherAssumptions (assumptions : List Term) :
    Quiet (otherAssumptions assumptions) := by
  intro p
  unfold otherAssumptions
  dsimp only
  split
  · exact .pure closed_keeps trivial
  · split
    · exact .throw closed_keeps _
    · exact .bind closed_keeps (quiet_take _ p) fun _ _ _ _ => .pure closed_keeps trivial

theorem quiet_settle (untracked : List Term) (outcome : Outcome) :
    Quiet (settle untracked outcome) := by
  intro p
  unfold settle
  split
  · exact .bind closed_keeps (quiet_change (by intro; rfl) p) fun _ _ _ _ =>
      .pure closed_keeps trivial
  · exact .bind closed_keeps (quiet_change (by intro; rfl) p) fun _ _ _ _ =>
      .pure closed_keeps trivial
  · exact .throw closed_keeps _

theorem quiet_satisfiable (assumptions : List Term) : Quiet (satisfiable assumptions) := by
  intro p
  refine .bind closed_keeps (quiet_closeAssumptions p) fun _ p₁ _ _ => ?_
  refine .bind closed_keeps (quiet_takeLiterals _ p₁) fun _ p₂ _ _ => ?_
  refine .bind closed_keeps (quiet_otherAssumptions _ p₂) fun _ p₃ _ _ => ?_
  refine .bind closed_keeps (quiet_change (by intro; rfl) p₃) fun _ p₄ _ _ => ?_
  refine .get ?_
  exact quiet_settle _ _ p₄

theorem quiet_plainModel : Quiet plainModel := by
  intro p
  refine .get ?_
  dsimp only
  split
  · exact .pure closed_keeps trivial
  · exact .throw closed_keeps _

theorem quiet_model : Quiet model := by
  intro p
  refine .get ?_
  dsimp only
  split
  · exact .throw closed_keeps _
  · split
    · exact .pure closed_keeps trivial
    · exact .throw closed_keeps _
    · exact .bind closed_keeps (quiet_plainModel p) fun _ _ _ _ => .pure closed_keeps trivial

theorem quiet_core : Quiet core := by
  intro p
  refine .get ?_
  dsimp only
  split
  · exact .throw closed_keeps _
  · split
    · exact .throw closed_keeps _
    · split
      · exact .bind closed_keeps (quiet_closeAssumptions p) fun _ _ _ _ =>
          .pure closed_keeps trivial
      · exact .throw closed_keeps _

/-- A core is made of formulas. -/
theorem core_formulas (p : Engine × SymbolTable) :
    Step.Leads (fun _ _ => True) core p fun _ ts => ∀ t ∈ ts, t ∈ p.1.formulas.items := by
  refine .get ?_
  dsimp only
  split
  · exact .throw Step.closed_true _
  · split
    · exact .throw Step.closed_true _
    · split
      · refine .bind Step.closed_true (.any _ p) fun _ _ _ _ => ?_
        exact .pure Step.closed_true fun t ht =>
          (mem_of_mem_shrink ht).resolve_left List.not_mem_nil
      · exact .throw Step.closed_true _

/-! ### Calls -/

/-- Whether a call that succeeds changes the formulas in one way, and a call that fails keeps
them. -/
def Changes (call : SolverCall Engine α) (f : Levels Term → Levels Term) : Prop :=
  ∀ engine table r engine' table', call.run (engine, table) = (r, engine', table') →
    table.Adds table' ∧
      engine'.formulas = match r with
        | .ok _ => f engine.formulas
        | .error _ => engine.formulas

theorem changes_of_quiet {call : SolverCall Engine α} (h : Quiet call) :
    Changes call id := by
  intro engine table r engine' table' hrun
  obtain ⟨hkeeps, _⟩ := h (engine, table) r (engine', table') hrun
  refine ⟨hkeeps.table, ?_⟩
  cases r <;> exact hkeeps.formulas

/-- The last step of a call that changes the formulas. -/
theorem changes_change (f : Levels Term → Levels Term) :
    Changes (change fun engine => engine.changed (f engine.formulas)) f := by
  intro engine table r engine' table' hrun
  obtain ⟨rfl, hp⟩ := Prod.mk.inj hrun
  obtain ⟨rfl, rfl⟩ := Prod.mk.inj hp
  exact ⟨.refl _, rfl⟩

theorem changes_bind {β : Type} {x : SolverCall Engine α} {g : α → SolverCall Engine β}
    {f : Levels Term → Levels Term} (hx : Quiet x)
    (hg : ∀ a, Changes (g a) f) :
    Changes (x >>= g) f := by
  intro engine table r engine' table' hrun
  rw [Step.run_bind] at hrun
  split at hrun
  · rename_i a p hcall
    obtain ⟨hkeeps, _⟩ := hx (engine, table) _ p hcall
    obtain ⟨htable, hformulas⟩ := hg a p.1 p.2 r engine' table' hrun
    rw [hkeeps.formulas] at hformulas
    exact ⟨hkeeps.table.trans htable, hformulas⟩
  · rename_i e p hcall
    obtain ⟨hkeeps, _⟩ := hx (engine, table) _ p hcall
    obtain ⟨rfl, rfl⟩ := Prod.mk.inj hrun
    exact ⟨hkeeps.table, hkeeps.formulas⟩

theorem changes_add (t : Term) : Changes (add t) (·.add t) := by
  unfold add
  refine changes_bind quiet_closeAssumptions fun _ => ?_
  refine changes_bind (quiet_take t) fun _ => ?_
  exact changes_change (·.add t)

theorem changes_push (levels : Nat) : Changes (push levels) (·.pushMany levels) :=
  changes_bind quiet_closeAssumptions fun _ => changes_change (·.pushMany levels)

theorem changes_pop (levels : Nat) : Changes (pop levels) (·.popMany levels) :=
  changes_bind quiet_closeAssumptions fun _ => changes_change (·.popMany levels)

theorem changes_reset : Changes reset fun _ => .empty :=
  changes_bind quiet_closeAssumptions fun _ => changes_change fun _ => .empty

/-- How a call of the engine changes its formulas. -/
theorem changes_offered {call : SolverCall Engine α} (h : Solver.Offers call) :
    ∃ f, Changes call f := by
  cases h with
  | add t => exact ⟨_, changes_add t⟩
  | push levels => exact ⟨_, changes_push levels⟩
  | pop levels => exact ⟨_, changes_pop levels⟩
  | reset => exact ⟨_, changes_reset⟩
  | satisfiable assumptions => exact ⟨_, changes_of_quiet (quiet_satisfiable assumptions)⟩
  | model => exact ⟨_, changes_of_quiet quiet_model⟩
  | core => exact ⟨_, changes_of_quiet quiet_core⟩

/-! ### The solver -/

instance : ScopedSolver Engine Model where
  call h hrun := by
    obtain ⟨f, hf⟩ := changes_offered h
    exact (hf _ _ _ _ _ hrun).1.symbols
  question h hrun := (asks_answered h _ _ _ hrun).1.adds.symbols
  held := formulas
  start _ := rfl
  refused h hrun := by
    obtain ⟨f, hf⟩ := changes_offered h
    exact (hf _ _ _ _ _ hrun).2
  add hrun := (changes_add _ _ _ _ _ _ hrun).2
  push hrun := (changes_push _ _ _ _ _ _ hrun).2
  pop hrun := (changes_pop _ _ _ _ _ _ hrun).2
  reset hrun := (changes_reset _ _ _ _ _ hrun).2
  satisfiable hrun := (changes_of_quiet (quiet_satisfiable _) _ _ _ _ _ hrun).2
  model hrun := (changes_of_quiet quiet_model _ _ _ _ _ hrun).2
  core hrun := (changes_of_quiet quiet_core _ _ _ _ _ hrun).2

instance : NamingSolver Engine Model where
  called h hrun := by
    obtain ⟨f, hf⟩ := changes_offered h
    exact ((hf _ _ _ _ _ hrun).1).distinct
  answered h hrun := (asks_answered h _ _ _ hrun).1.adds.distinct

instance : WillingSolver Engine Model where
  push_ok _ _ _ := ⟨_, _, rfl⟩
  pop_ok _ _ _ _ := ⟨_, _, rfl⟩

instance : TracingSolver Engine Model where
  selected hrun := (core_formulas _ _ _ hrun).2 _ rfl

instance : StrictSolver Engine Model where
  add {t solver table _ _} hrun := by
    have htake : Step.Leads (fun _ _ => True) (add t) (solver, table) fun _ _ => t.sort = .bool :=
      .bind Step.closed_true (.any _ _) fun _ p _ _ =>
        .bind Step.closed_true (take_sort t p) fun _ p' _ hsort =>
          (Step.Leads.any _ p').mono fun _ _ _ _ => hsort
    exact (htake _ _ hrun).2 () rfl

instance : ConsistentSolver Engine Model where
  reading m := m.completion.interpretation
  asked hanswers hrun := by rw [(asks_answered hanswers _ _ _ hrun).1.completion]
  value hrun := evaluate_eq hrun
  before h hanswers hquery hrun :=
    evaluate_before (regular_of_arises h) (asks_answered hanswers) hquery hrun
  parameters hrun := (parameters_of_interpret hrun).2.2

end Engine

end SmtScript
