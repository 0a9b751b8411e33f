import SmtScript.Proofs.Engine
import SmtScript.Proofs.Session.Run

/-!
The scopes of the solver and those of the session.

In an active session the assertions, the defined integer parts and the solver have the same number
of levels, and at each level the solver holds the assertions of that level and the constraints of
the integer parts defined there, and nothing else. `Scoped` is what every move preserves. A call
that fails in the middle of an operation does no harm, as the constraints sent before it have been
noted already.
-/

namespace SmtScript

namespace IntegerParts

variable {parts parts' : IntegerParts} {symbol : Symbol} {operand : Term}

/-- The constraint of a symbol that stands for an integer part. -/
def constraintOf? (parts : IntegerParts) (symbol : Symbol) : Option Term :=
  (parts.lookup symbol).map (integerPartConstraint symbol)

theorem constraintOf?_of_mem (hacyclic : Acyclic parts) (h : (symbol, operand) ∈ parts) :
    parts.constraintOf? symbol = some (integerPartConstraint symbol operand) := by
  rw [constraintOf?, Environment.lookup_of_mem hacyclic.nodup_keys h, Option.map_some]

/-- New integer parts leave the constraints of the old ones alone. -/
theorem constraintOf?_of_suffix (h : parts <:+ parts') (hacyclic : Acyclic parts')
    (hmem : (symbol, operand) ∈ parts) :
    parts'.constraintOf? symbol = parts.constraintOf? symbol := by
  have hnodup := hacyclic.nodup_keys
  rw [constraintOf?, constraintOf?, Environment.lookup_of_mem hnodup (h.subset hmem),
    Environment.lookup_of_mem (hnodup.sublist (h.sublist.map _)) hmem]

/-- Whether each level holds the assertions and the constraints of that level. -/
def Matches (parts : IntegerParts) (held assertions : Levels Term) (defined : Levels Symbol) :
    Prop :=
  ∀ i, ((held.row i).map some).Perm
    ((assertions.row i).map some ++ (defined.row i).map parts.constraintOf?)

variable {held assertions : Levels Term} {defined : Levels Symbol}

theorem matches_empty : parts.Matches .empty .empty .empty := by
  simp [Matches]

theorem Matches.suffix (h : parts.Matches held assertions defined) (hparts : parts <:+ parts')
    (hacyclic : Acyclic parts')
    (hdefined : ∀ k ∈ defined.items, ∃ operand, (k, operand) ∈ parts) :
    Matches parts' held assertions defined := by
  intro i
  have hsame : (defined.row i).map (constraintOf? parts') =
      (defined.row i).map parts.constraintOf? := by
    refine List.map_congr_left fun k hk => ?_
    obtain ⟨operand, hmem⟩ := hdefined k (Levels.mem_items_of_mem_row hk)
    exact constraintOf?_of_suffix hparts hacyclic hmem
  rw [hsame]
  exact h i

theorem Matches.assert (h : parts.Matches held assertions defined) (t : Term) :
    parts.Matches (held.add t) (assertions.add t) defined := by
  intro i
  cases i with
  | zero => simpa using h 0
  | succ i => simpa using h (i + 1)

theorem Matches.define (h : parts.Matches held assertions defined) {t : Term}
    (hconstraint : parts.constraintOf? symbol = some t) :
    parts.Matches (held.add t) assertions (defined.add symbol) := by
  intro i
  cases i with
  | zero =>
    rw [Levels.row_add_zero, Levels.row_add_zero, List.map_cons, List.map_cons, hconstraint]
    exact ((h 0).cons _).trans List.perm_middle.symm
  | succ i => simpa using h (i + 1)

theorem Matches.pushMany (h : parts.Matches held assertions defined) (n : Nat) :
    parts.Matches (held.pushMany n) (assertions.pushMany n) (defined.pushMany n) := by
  intro i
  rcases Nat.lt_or_ge i n with hlt | hge
  · simp [Levels.row_pushMany_of_lt _ hlt]
  · obtain ⟨j, rfl⟩ := Nat.exists_eq_add_of_le hge
    simpa only [Levels.row_pushMany_add] using h j

theorem Matches.popMany (h : parts.Matches held assertions defined) {n : Nat}
    (hheld : n < held.depth) (hassertions : n < assertions.depth) (hdefined : n < defined.depth) :
    parts.Matches (held.popMany n) (assertions.popMany n) (defined.popMany n) := by
  intro i
  rw [Levels.row_popMany hheld, Levels.row_popMany hassertions, Levels.row_popMany hdefined]
  exact h (n + i)

/-- Whether there are as many levels as scopes, and each matches what is held in its scope. -/
structure Aligned (parts : IntegerParts) (depth : Nat) (held assertions : Levels Term)
    (defined : Levels Symbol) : Prop where
  formulas : parts.Matches held assertions defined
  held : held.depth = depth
  assertions : assertions.depth = depth
  defined : defined.depth = depth

variable {depth : Nat}

theorem Aligned.assert (h : parts.Aligned depth held assertions defined) (t : Term) :
    parts.Aligned depth (held.add t) (assertions.add t) defined :=
  ⟨h.formulas.assert t, h.held, h.assertions, h.defined⟩

theorem Aligned.define (h : parts.Aligned depth held assertions defined) {t : Term}
    (hconstraint : parts.constraintOf? symbol = some t) :
    parts.Aligned depth (held.add t) assertions (defined.add symbol) :=
  ⟨h.formulas.define hconstraint, h.held, h.assertions, h.defined⟩

theorem Aligned.pushMany (h : parts.Aligned depth held assertions defined) (n : Nat) :
    parts.Aligned (depth + n) (held.pushMany n) (assertions.pushMany n) (defined.pushMany n) := by
  refine ⟨h.formulas.pushMany n, ?_, ?_, ?_⟩
  · rw [Levels.depth_pushMany, h.held]
  · rw [Levels.depth_pushMany, h.assertions]
  · rw [Levels.depth_pushMany, h.defined]

theorem Aligned.popMany (h : parts.Aligned depth held assertions defined) {n : Nat}
    (hn : n < depth) :
    parts.Aligned (depth - n) (held.popMany n) (assertions.popMany n) (defined.popMany n) := by
  have hheld : n < held.depth := h.held ▸ hn
  have hassertions : n < assertions.depth := h.assertions ▸ hn
  have hdefined : n < defined.depth := h.defined ▸ hn
  refine ⟨h.formulas.popMany hheld hassertions hdefined, ?_, ?_, ?_⟩
  · rw [Levels.depth_popMany hheld, h.held]
  · rw [Levels.depth_popMany hassertions, h.assertions]
  · rw [Levels.depth_popMany hdefined, h.defined]

end IntegerParts

namespace Session

open Solver ScopedSolver

variable {σ μ α : Type} [Solver σ μ]

variable [ScopedSolver σ μ] {S S' S'' : Session σ μ}

structure Scoped (S : Session σ μ) : Prop where
  idle : S.status = .uninitialized →
    S.context = none ∧ S.assertions = .empty ∧ S.definedParts = .empty
  active : S.status = .active → S.context ≠ none
  level : ∀ lease context, S.context = some (lease, context) →
    ∃ solver, context.solver = some solver ∧ IntegerParts.Aligned S.terms.integerParts
      context.depth (held solver) S.assertions S.definedParts
  known : ∀ k ∈ S.definedParts.items, ∃ operand, (k, operand) ∈ S.terms.integerParts
  distinct : S.definedParts.items.Nodup

theorem scoped_start (configuration : Configuration) :
    (start configuration : Session σ μ).Scoped where
  idle _ := ⟨rfl, rfl, rfl⟩
  active h := by cases h
  level _ _ h := by cases h
  known := by simp [start]
  distinct := by simp [start]

/-- Moves that touch neither levels nor the context. -/
theorem Scoped.frame (h : S.Scoped) (hterms : S.terms.Evolves S'.terms) (hsound : S'.terms.Sound)
    (hstatus : S'.status = S.status) (hcontext : S'.context = S.context)
    (hassertions : S'.assertions = S.assertions)
    (hdefined : S'.definedParts = S.definedParts) : S'.Scoped := by
  refine ⟨?_, ?_, fun lease context hS' => ?_, ?_, ?_⟩
  · rw [hstatus, hcontext, hassertions, hdefined]
    exact h.idle
  · rw [hstatus, hcontext]
    exact h.active
  · rw [hcontext] at hS'
    obtain ⟨solver, hsolver, hlevel⟩ := h.level lease context hS'
    rw [hassertions, hdefined]
    exact ⟨solver, hsolver, hlevel.formulas.suffix hterms.parts hsound.acyclic h.known,
      hlevel.held, hlevel.assertions, hlevel.defined⟩
  · intro k hk
    rw [hdefined] at hk
    obtain ⟨operand, hmem⟩ := h.known k hk
    exact ⟨operand, hterms.parts.subset hmem⟩
  · rw [hdefined]
    exact h.distinct

/-- Moves that call the solver and note what comes of it. -/
theorem Scoped.called {call : SolverCall σ α} {r : Except Fault α} {assertions : Levels Term}
    {defined : Levels Symbol} (h : S.Scoped) (hcalled : Called call S r S')
    (f : Context σ → Context σ)
    (hf : ∀ c, (f c).solver = c.solver ∧ ∀ solver, (f { c with solver }).depth = (f c).depth)
    (hcontext : S''.context = (S'.mapContext f).context) (hstatus : S''.status = S'.status)
    (hparts : S''.terms.integerParts = S'.terms.integerParts)
    (hassertions : S''.assertions = assertions) (hdefined : S''.definedParts = defined)
    (hknown : ∀ k ∈ defined.items, ∃ operand, (k, operand) ∈ S.terms.integerParts)
    (hdistinct : defined.items.Nodup)
    (hlevel : ∀ {context solver solver' table'},
      call.run (solver, S.terms.table) = (r, solver', table') →
        IntegerParts.Aligned S.terms.integerParts context.depth (held solver) S.assertions
          S.definedParts →
        IntegerParts.Aligned S.terms.integerParts (f context).depth (held solver') assertions
          defined) : S''.Scoped := by
  subst hassertions hdefined
  rw [← hcalled.integerParts, ← hparts] at hknown
  refine ⟨fun hidle => ?_, fun _ => ?_, fun lease' context' hS'' => ?_, hknown, hdistinct⟩
  all_goals
    cases hcalled with
    | @intro lease context solver solver' table' _ hS hsolver hrun => ?_
  · have hnone := (h.idle (hstatus.symm.trans hidle)).1
    rw [hS] at hnone
    cases hnone
  · rw [hcontext]
    simp [mapContext]
  · obtain ⟨solver₁, hsolver₁, hlevelS⟩ := h.level lease context hS
    obtain rfl := Option.some.inj (hsolver.symm.trans hsolver₁)
    rw [hcontext] at hS''
    obtain ⟨rfl, rfl⟩ := Prod.mk.inj (Option.some.inj hS'')
    refine ⟨solver', (hf _).1, ?_⟩
    rw [(hf _).2, hparts]
    exact hlevel hrun hlevelS

/-- Calls that leave the formulas as they are. -/
theorem Scoped.same {call : SolverCall σ α} {r : Except Fault α} (h : S.Scoped)
    (hcalled : Called call S r S') (f : Context σ → Context σ)
    (hf : ∀ c, (f c).solver = c.solver ∧ (f c).depth = c.depth)
    (hcontext : S''.context = (S'.mapContext f).context) (hstatus : S''.status = S'.status)
    (hassertions : S''.assertions = S'.assertions)
    (hdefined : S''.definedParts = S'.definedParts) (hterms : S''.terms = S'.terms)
    (hheld : ∀ {solver solver' table'},
      call.run (solver, S.terms.table) = (r, solver', table') → held solver' = held solver) :
    S''.Scoped := by
  have hparts := congrArg TermState.integerParts hterms
  refine h.called hcalled f (fun c => ⟨(hf c).1, fun solver => ?_⟩) hcontext hstatus hparts
    (hassertions.trans hcalled.assertions) (hdefined.trans hcalled.definedParts) h.known h.distinct
    fun {context _ _ _} hrun haligned => ?_
  · rw [(hf _).2, (hf _).2]
  · rw [(hf _).2, hheld hrun]
    exact haligned

theorem held_satisfiable {assumptions : List Term} {outcome : Except Fault Bool}
    {solver solver' : σ} {table table' : SymbolTable}
    (hrun : (Solver.satisfiable assumptions).run (solver, table) = (outcome, solver', table')) :
    held solver' = held solver := by
  cases outcome with
  | error f => exact ScopedSolver.refused (.satisfiable _) hrun
  | ok answer => exact ScopedSolver.satisfiable hrun

theorem Move.scoped (h : Move S S') (hS : S.Sound) (hscoped : S.Scoped) : S'.Scoped := by
  have hS' : S'.Sound := h.sound hS
  cases h with
  | note configuration sorts info =>
    exact hscoped.frame (.refl _) hS.terms rfl rfl rfl rfl
  | translate hterms => exact hscoped.frame hterms hS'.terms rfl rfl rfl rfl
  | bind name hbinding => exact hscoped.frame (.refl _) hS.terms rfl rfl rfl rfl
  | activate logic hstatus =>
    obtain ⟨_, hassertions, hdefined⟩ := hscoped.idle hstatus
    refine ⟨nofun, nofun, fun lease context hcontext => ?_, hscoped.known, hscoped.distinct⟩
    obtain ⟨rfl, rfl⟩ := Prod.mk.inj (Option.some.inj hcontext)
    refine ⟨_, rfl, ?_⟩
    dsimp only
    rw [ScopedSolver.start, hassertions, hdefined]
    exact ⟨IntegerParts.matches_empty, rfl, rfl, rfl⟩
  | drop =>
    exact hscoped.frame (by simpa using .refl _) hS'.terms (by simp) (by simp) (by simp) (by simp)
  | refuse hoffers hcalled =>
    exact hscoped.same hcalled id (fun _ => ⟨rfl, rfl⟩) (by rw [mapContext_id]) rfl rfl rfl rfl
      fun hrun => ScopedSolver.refused hoffers hrun
  | @define S₁ symbol operand hpart hnew hcalled =>
    have hfresh : symbol ∉ S.definedParts.items := fun hmem => by
      rw [Levels.contains_iff.mpr hmem] at hnew
      cases hnew
    refine hscoped.called hcalled ({ · with last := none }) (fun _ => ⟨rfl, fun _ => rfl⟩) rfl rfl
      rfl hcalled.assertions (congrArg (·.add symbol) hcalled.definedParts) (fun k hk => ?_) ?_
      fun hrun haligned => ?_
    · rcases Levels.mem_items_add.mp hk with hk | rfl
      · exact hscoped.known k hk
      · exact ⟨operand, hpart⟩
    · rw [Levels.items_add]
      exact hscoped.distinct.append (List.nodup_singleton _) (by simpa using hfresh)
    · rw [ScopedSolver.add hrun]
      exact haligned.define (IntegerParts.constraintOf?_of_mem hS.terms.acyclic hpart)
  | @assert S₁ t ht _ hcalled =>
    refine hscoped.called hcalled ({ · with last := none }) (fun _ => ⟨rfl, fun _ => rfl⟩)
      (dropped_context _) (dropped_status _) (congrArg _ (dropped_terms _))
      ((dropped_assertions _).trans (congrArg (·.add t) hcalled.assertions))
      ((dropped_definedParts _).trans hcalled.definedParts) hscoped.known hscoped.distinct
      fun hrun haligned => ?_
    rw [ScopedSolver.add hrun]
    exact haligned.assert t
  | @push S₁ levels _ hcalled =>
    refine hscoped.called hcalled (fun c => { c with depth := c.depth + levels, last := none })
      (fun _ => ⟨rfl, fun _ => rfl⟩) rfl rfl rfl (congrArg (·.pushMany levels) hcalled.assertions)
      (congrArg (·.pushMany levels) hcalled.definedParts) ?_ ?_ fun hrun haligned => ?_
    · simpa using hscoped.known
    · simpa using hscoped.distinct
    · rw [ScopedSolver.push hrun]
      exact haligned.pushMany levels
  | @pop S₁ levels _ hdepth hcalled =>
    refine hscoped.called hcalled (fun c => { c with depth := c.depth - levels, last := none })
      (fun _ => ⟨rfl, fun _ => rfl⟩) rfl rfl rfl (congrArg (·.popMany levels) hcalled.assertions)
      (congrArg (·.popMany levels) hcalled.definedParts) (fun k hk => ?_) ?_
      fun hrun haligned => ?_
    · exact hscoped.known k ((Levels.items_popMany_sublist _ _).subset hk)
    · exact hscoped.distinct.sublist (Levels.items_popMany_sublist _ _)
    · rw [ScopedSolver.pop hrun]
      exact haligned.popMany (haligned.assertions ▸ hdepth)
  | clear _ hcalled =>
    refine hscoped.called hcalled ({ · with depth := 1, last := none })
      (fun _ => ⟨rfl, fun _ => rfl⟩) rfl rfl rfl rfl rfl (by simp) (by simp) fun hrun _ => ?_
    rw [ScopedSolver.reset hrun]
    exact ⟨IntegerParts.matches_empty, rfl, rfl, rfl⟩
  | check _ _ hcalled =>
    exact hscoped.same hcalled ({ · with last := some _ }) (fun _ => ⟨rfl, rfl⟩) rfl rfl rfl rfl rfl
      fun hrun => held_satisfiable hrun
  | keep _ _ hcalled =>
    exact hscoped.same hcalled id (fun _ => ⟨rfl, rfl⟩) (by rw [mapContext_id]) rfl rfl rfl rfl
      fun hrun => ScopedSolver.model hrun
  | core _ hcalled =>
    exact hscoped.same hcalled id (fun _ => ⟨rfl, rfl⟩) (by rw [mapContext_id]) rfl rfl rfl rfl
      fun hrun => ScopedSolver.core hrun
  | ask hanswers hmodel hrun =>
    have htable := GrowingSolver.question hanswers hrun
    exact hscoped.frame (TermState.evolves_table htable) hS'.terms rfl rfl rfl rfl
  | restart _ =>
    have h := scoped_start (σ := σ) (μ := μ) S.initial
    exact ⟨h.idle, h.active, h.level, h.known, h.distinct⟩
  | exit _ =>
    refine ⟨nofun, nofun, fun lease context hcontext => ?_, ?_, ?_⟩
    · rw [released_context] at hcontext
      cases hcontext
    · simpa using hscoped.known
    · simpa using hscoped.distinct

theorem Moves.scoped (h : Moves S S') (hS : S.Sound) (hscoped : S.Scoped) : S'.Scoped := by
  induction h with
  | refl => exact hscoped
  | tail hearlier hmove ih => exact hmove.scoped (Moves.sound hearlier hS) ih

theorem Reachable.scoped (h : S.Reachable) : S.Scoped :=
  h.induction scoped_start fun _ _ hS hmove => hmove.scoped hS

/-! ### Levels from the base up -/

/-- Whether the solver has the scopes of the session, with the formulas that the session has at
each level, base level first, and no integer part is defined twice. -/
structure Agrees (S : Session σ μ) (context : Context σ) (solver : σ) : Prop where
  depth_pos : 1 ≤ context.depth
  depth_assertions : S.assertions.depth = context.depth
  depth_definedParts : S.definedParts.depth = context.depth
  depth_held : (held solver).depth = context.depth
  formulas : ∀ i < context.depth, ∃ formulas terms symbols,
    (held solver).toList[i]? = some formulas ∧ S.assertions.toList[i]? = some terms ∧
      S.definedParts.toList[i]? = some symbols ∧
      (formulas.map some).Perm
        (terms.map some ++ symbols.map (IntegerParts.constraintOf? S.terms.integerParts))
  distinct : S.definedParts.items.Nodup

end Session

end SmtScript
