import SmtScript.Proofs.Session.Scopes

/-!
Work between opening and closing levels.

Levels below those that a command works on stay as they are, `Executes.stays`, while the names
and sorts that it declares are kept, `Executes.retains`. So when levels are opened, any commands
are executed, and as many levels are closed as were opened, the scopes are those of before and the
names are those of after, `push_pop_brackets`.
-/

namespace SmtScript

namespace Session

open Solver ScopedSolver

variable {σ μ α : Type} [Solver σ μ] {S S' S'' : Session σ μ} {n : Nat}

/-! ### Scopes -/

section

variable [ScopedSolver σ μ]

/-- The formulas that the solver holds, as long as there is one. -/
def held? (S : Session σ μ) : Option (Levels Term) := S.solver?.map held

/-- All that is kept level by level: the assertions, the defined integer parts, the depth of the
context and the formulas that its solver holds. -/
structure Scopes where
  assertions : Levels Term
  definedParts : Levels Symbol
  depth : Option Nat
  formulas : Option (Levels Term)

def scopes (S : Session σ μ) : Scopes where
  assertions := S.assertions
  definedParts := S.definedParts
  depth := S.context.map fun p => p.2.depth
  formulas := S.held?

namespace Scopes

def pushMany (scopes : Scopes) (n : Nat) : Scopes where
  assertions := scopes.assertions.pushMany n
  definedParts := scopes.definedParts.pushMany n
  depth := scopes.depth.map (· + n)
  formulas := scopes.formulas.map (·.pushMany n)

def popMany (scopes : Scopes) (n : Nat) : Scopes where
  assertions := scopes.assertions.popMany n
  definedParts := scopes.definedParts.popMany n
  depth := scopes.depth.map (· - n)
  formulas := scopes.formulas.map (·.popMany n)

end Scopes

/-! ### Levels that stay -/

/-- Whether two sessions have the same on their lowest levels. -/
structure SameBelow (n : Nat) (S S' : Session σ μ) : Prop where
  assertions : S'.assertions.toList.take n = S.assertions.toList.take n
  definedParts : S'.definedParts.toList.take n = S.definedParts.toList.take n
  formulas : S'.held?.map (·.toList.take n) = S.held?.map (·.toList.take n)

theorem SameBelow.refl (n : Nat) (S : Session σ μ) : SameBelow n S S := ⟨rfl, rfl, rfl⟩

theorem SameBelow.trans (h : SameBelow n S S') (h' : SameBelow n S' S'') : SameBelow n S S'' :=
  ⟨h'.assertions.trans h.assertions, h'.definedParts.trans h.definedParts,
    h'.formulas.trans h.formulas⟩

theorem SameBelow.frame (hcontext : S'.context = S.context)
    (hassertions : S'.assertions = S.assertions) (hdefined : S'.definedParts = S.definedParts) :
    SameBelow n S S' := by
  refine ⟨by rw [hassertions], by rw [hdefined], ?_⟩
  rw [held?, held?, solver?, solver?, hcontext]

/-- The solver of a call has as many scopes as there are levels. -/
theorem Called.depths {call : SolverCall σ α} {r : Except Fault α} (h : Called call S r S')
    (hscoped : S.Scoped) : S.definedParts.depth = S.assertions.depth ∧
      ∃ solver solver' table', S.solver? = some solver ∧ S'.solver? = some solver' ∧
        (held solver).depth = S.assertions.depth ∧
        call.run (solver, S.terms.table) = (r, solver', table') := by
  cases h with
  | @intro lease context solver solver' table' _ hcontext hsolver hrun =>
    obtain ⟨solver₁, hsolver₁, haligned⟩ := hscoped.level lease context hcontext
    obtain rfl := Option.some.inj (hsolver.symm.trans hsolver₁)
    refine ⟨haligned.defined.trans haligned.assertions.symm, solver, solver', table', ?_, ?_,
      haligned.held.trans haligned.assertions.symm, hrun⟩
    · simp [solver?, hcontext, hsolver]
    · simp [solver?]

/-- Calls of the solver that leave its lowest scopes as they are. -/
theorem SameBelow.called {call : SolverCall σ α} {r : Except Fault α} (hscoped : S.Scoped)
    (hcalled : Called call S r S') (f : Context σ → Context σ)
    (hf : ∀ c, (f c).solver = c.solver) (hcontext : S''.context = (S'.mapContext f).context)
    (hassertions : S''.assertions.toList.take n = S.assertions.toList.take n)
    (hdefined : S.definedParts.depth = S.assertions.depth →
      S''.definedParts.toList.take n = S.definedParts.toList.take n)
    (hheld : ∀ {solver solver' table'}, (held solver).depth = S.assertions.depth →
      call.run (solver, S.terms.table) = (r, solver', table') →
        (held solver').toList.take n = (held solver).toList.take n) : SameBelow n S S'' := by
  obtain ⟨hdepth, solver, solver', table', hS, hS', hscopes, hrun⟩ := hcalled.depths hscoped
  have hsolver : S''.solver? = S'.solver? := by
    rw [← solver?_mapContext S' hf, solver?, hcontext, solver?]
  refine ⟨hassertions, hdefined hdepth, ?_⟩
  rw [held?, held?, hsolver, hS, hS']
  exact congrArg some (hheld hscopes hrun)

/-- Calls of the solver that leave all its formulas as they are. -/
theorem SameBelow.kept {call : SolverCall σ α} {r : Except Fault α} (hscoped : S.Scoped)
    (hcalled : Called call S r S') (f : Context σ → Context σ)
    (hf : ∀ c, (f c).solver = c.solver) (hcontext : S''.context = (S'.mapContext f).context)
    (hassertions : S''.assertions = S'.assertions)
    (hdefined : S''.definedParts = S'.definedParts)
    (hheld : ∀ {solver solver' table'},
      call.run (solver, S.terms.table) = (r, solver', table') → held solver' = held solver) :
    SameBelow n S S'' := by
  refine .called hscoped hcalled f hf hcontext ?_ (fun _ => ?_) fun _ hrun => ?_
  · rw [hassertions, hcalled.assertions]
  · rw [hdefined, hcalled.definedParts]
  · rw [hheld hrun]

/-- A move within a session leaves the levels alone that are not at the top before or after it. -/
theorem Move.sameBelow (h : Move S S') (hscoped : S.Scoped) (hpos : 1 ≤ n)
    (hbefore : n < S.assertions.depth) (hafter : n < S'.assertions.depth)
    (hopen : S'.status ≠ .closed) : SameBelow n S S' := by
  have hnot {levels : Levels Term} (hlevels : levels = .empty) : ¬ n < levels.depth := by
    rw [hlevels, Levels.depth_empty]
    omega
  have hadd {levels : Levels Term} (h : levels.depth = S.assertions.depth) (t : Term) :
      (levels.add t).toList.take n = levels.toList.take n :=
    Levels.take_toList_add (h ▸ hbefore) t
  cases h with
  | note configuration sorts info => exact .frame rfl rfl rfl
  | translate hterms => exact .frame rfl rfl rfl
  | bind name hbinding => exact .frame rfl rfl rfl
  | activate logic hstatus => exact absurd hbefore (hnot (hscoped.idle hstatus).2.1)
  | drop => exact .frame (by simp) (by simp) (by simp)
  | refuse hoffers hcalled =>
    exact .kept hscoped hcalled id (fun _ => rfl) (by rw [mapContext_id]) rfl rfl
      fun hrun => ScopedSolver.refused hoffers hrun
  | @define S₁ symbol operand _ _ hcalled =>
    refine .called hscoped hcalled ({ · with last := none }) (fun _ => rfl) rfl ?_
      (fun hdepth => ?_) fun hdepth hrun => ?_
    · exact congrArg (·.toList.take n) hcalled.assertions
    · have hbelow : n < S.definedParts.depth := hdepth ▸ hbefore
      rw [withDefined, hcalled.definedParts]
      exact Levels.take_toList_add hbelow symbol
    · rw [ScopedSolver.add hrun]
      exact hadd hdepth _
  | @assert S₁ t _ _ hcalled =>
    refine .called hscoped hcalled ({ · with last := none }) (fun _ => rfl) (dropped_context _) ?_
      (fun _ => ?_) fun hdepth hrun => ?_
    · rw [dropped_assertions]
      dsimp only
      rw [hcalled.assertions]
      exact hadd rfl t
    · rw [dropped_definedParts]
      exact congrArg (·.toList.take n) hcalled.definedParts
    · rw [ScopedSolver.add hrun]
      exact hadd hdepth t
  | @push S₁ levels _ hcalled =>
    refine .called hscoped hcalled (fun c => { c with depth := c.depth + levels, last := none })
      (fun _ => rfl) rfl ?_ (fun hdepth => ?_) fun hdepth hrun => ?_
    · rw [hcalled.assertions]
      exact Levels.take_toList_pushMany (Nat.le_of_lt hbefore) levels
    · rw [hcalled.definedParts]
      exact Levels.take_toList_pushMany (hdepth ▸ Nat.le_of_lt hbefore) levels
    · rw [ScopedSolver.push hrun]
      exact Levels.take_toList_pushMany (hdepth ▸ Nat.le_of_lt hbefore) levels
  | @pop S₁ levels _ hlevels hcalled =>
    have hleft : n ≤ S.assertions.depth - levels := by
      have hdepth := Levels.depth_popMany hlevels
      dsimp only at hafter
      rw [hcalled.assertions] at hafter
      omega
    have hpop {α : Type} {rows : Levels α} (h : rows.depth = S.assertions.depth) :
        (rows.popMany levels).toList.take n = rows.toList.take n := by
      have hrows : levels < rows.depth := h ▸ hlevels
      refine Levels.take_toList_popMany hrows ?_
      rw [Levels.depth_popMany hrows, h]
      exact hleft
    refine .called hscoped hcalled (fun c => { c with depth := c.depth - levels, last := none })
      (fun _ => rfl) rfl ?_ (fun hdepth => ?_) fun hdepth hrun => ?_
    · rw [hcalled.assertions]
      exact hpop rfl
    · rw [hcalled.definedParts]
      exact hpop hdepth
    · rw [ScopedSolver.pop hrun]
      exact hpop hdepth
  | clear _ hcalled => exact absurd hafter (hnot rfl)
  | check _ _ hcalled =>
    exact .kept hscoped hcalled ({ · with last := some _ }) (fun _ => rfl) rfl rfl rfl
      fun hrun => held_satisfiable hrun
  | keep _ _ hcalled =>
    exact .kept hscoped hcalled id (fun _ => rfl) (by rw [mapContext_id]) rfl rfl
      fun hrun => ScopedSolver.model hrun
  | core _ hcalled =>
    exact .kept hscoped hcalled id (fun _ => rfl) (by rw [mapContext_id]) rfl rfl
      fun hrun => ScopedSolver.core hrun
  | ask hanswers hmodel hrun => exact .frame rfl rfl rfl
  | restart _ => exact absurd hafter (hnot rfl)
  | exit _ => exact absurd rfl hopen

/-- A move that leaves the number of levels and the status alone. -/
structure LevelMove (S S' : Session σ μ) : Prop where
  move : Move S S'
  depth : S'.assertions.depth = S.assertions.depth
  status : S'.status = S.status

/-- What stays when a session goes on above its lowest levels. -/
structure Stays (n : Nat) (S S' : Session σ μ) : Prop where
  below : SameBelow n S S'
  sound : S'.Sound
  isScoped : S'.Scoped

theorem Move.stays (h : Move S S') (hS : S.Sound) (hscoped : S.Scoped) (hpos : 1 ≤ n)
    (hbefore : n < S.assertions.depth) (hafter : n < S'.assertions.depth)
    (hopen : S'.status ≠ .closed) : Stays n S S' :=
  ⟨h.sameBelow hscoped hpos hbefore hafter hopen, h.sound hS, h.scoped hS hscoped⟩

theorem LevelMove.stays (h : Relation.ReflTransGen LevelMove S S') (hS : S.Sound)
    (hscoped : S.Scoped) (hpos : 1 ≤ n) (hbefore : n < S.assertions.depth)
    (hopen : S.status ≠ .closed) :
    Stays n S S' ∧ S'.assertions.depth = S.assertions.depth ∧ S'.status = S.status := by
  induction h with
  | refl => exact ⟨⟨.refl n S, hS, hscoped⟩, rfl, rfl⟩
  | @tail X S' _ hmove ih =>
    obtain ⟨hX, hdepth, hstatus⟩ := ih
    have hdepth' := hmove.depth.trans hdepth
    have hstatus' := hmove.status.trans hstatus
    have hlast := hmove.move.stays hX.sound hX.isScoped hpos (hdepth ▸ hbefore)
      (hdepth' ▸ hbefore) (hstatus' ▸ hopen)
    exact ⟨⟨hX.below.trans hlast.below, hlast.sound, hlast.isScoped⟩, hdepth', hstatus'⟩

theorem Flat.stays (h : Flat S S') (hS : S.Sound) (hscoped : S.Scoped) (hpos : 1 ≤ n)
    (hbefore : n < S.assertions.depth) (hopen : S.status ≠ .closed) :
    Stays n S S' ∧ S'.assertions.depth = S.assertions.depth ∧ S'.status = S.status := by
  have hmoves := Relation.ReflTransGen.mono
    (fun _ _ (hmove : FlatMove _ _) => LevelMove.mk hmove.move hmove.depth hmove.status)
    _ _ h.moves
  exact LevelMove.stays hmoves hS hscoped hpos hbefore hopen

theorem Shifts.stays (h : Shifts S S') (hS : S.Sound) (hscoped : S.Scoped) (hpos : 1 ≤ n)
    (hbefore : n < S.assertions.depth) (hafter : n < S'.assertions.depth)
    (hopen : S.status ≠ .closed) : Stays n S S' := by
  cases h with
  | flat h => exact (h.stays hS hscoped hpos hbefore hopen).1
  | move h hmove =>
    obtain ⟨hX, hdepth, hstatus⟩ := h.stays hS hscoped hpos hbefore hopen
    have hstatus' := hmove.status.trans hstatus
    have hlast := hmove.move.stays hX.sound hX.isScoped hpos (hdepth ▸ hbefore) hafter
      (hstatus' ▸ hopen)
    exact ⟨hX.below.trans hlast.below, hlast.sound, hlast.isScoped⟩

theorem Quiet.stays {bound : Option String} (h : Quiet bound S S') (hS : S.Sound)
    (hscoped : S.Scoped) (hpos : 1 ≤ n) (hbefore : n < S.assertions.depth)
    (hopen : S.status ≠ .closed) : Stays n S S' := by
  have hlevel (S S' : Session σ μ) (hmove : QuietMove bound S S') : LevelMove S S' :=
    ⟨hmove.move, by rw [hmove.assertions], hmove.status⟩
  have hmoves := Relation.ReflTransGen.mono hlevel _ _ h
  exact (LevelMove.stays hmoves hS hscoped hpos hbefore hopen).1

/-- A command that neither clears nor ends a session works on the levels above those that are not
at the top before or after it. -/
theorem Executes.stays {sexpr : SExpr} (h : Executes sexpr S S') (hS : S.Sound)
    (hscoped : S.Scoped) (hactive : S.status = .active) (hclears : sexpr.clears = false)
    (hpos : 1 ≤ n) (hbefore : n < S.assertions.depth) (hafter : n < S'.assertions.depth) :
    Stays n S S' := by
  have hopen : S.status ≠ .closed := by simp [hactive]
  rcases h with rfl | ⟨command, hrequests, hturns⟩
  · exact ⟨.refl n S', hS, hscoped⟩
  · have hkeeps := fun h => Bool.false_ne_true (hclears.symm.trans (hrequests.clears h))
    cases command with
    | assertTerm term => exact (Flat.stays hturns hS hscoped hpos hbefore hopen).1
    | push levels => exact Shifts.stays hturns hS hscoped hpos hbefore hafter hopen
    | pop levels => exact Shifts.stays hturns hS hscoped hpos hbefore hafter hopen
    | setLogic logic =>
      obtain rfl := hturns.2 hactive
      exact ⟨.refl n S', hS, hscoped⟩
    | resetAssertions => exact (hkeeps (.inl rfl)).elim
    | reset => exact (hkeeps (.inr (.inl rfl))).elim
    | exit => exact (hkeeps (.inr (.inr rfl))).elim
    | _ => exact Quiet.stays hturns hS hscoped hpos hbefore hopen

end

/-! ### Names that stay in force -/

/-- Whether names and sorts stay in force, and only some names can be bound again. -/
structure Retains (rebound : String → Prop) (S S' : Session σ μ) : Prop where
  status : S'.status = S.status
  sorts : S.sorts.declared <:+ S'.sorts.declared
  bound : ∀ name, S.names.contains name = true → S'.names.contains name = true
  names : ∀ name, ¬ rebound name → S'.names.get? name = S.names.get? name

variable {rebound : String → Prop}

omit [Solver σ μ] in
theorem Retains.refl (S : Session σ μ) : Retains rebound S S :=
  ⟨rfl, List.suffix_refl _, fun _ => id, fun _ _ => rfl⟩

omit [Solver σ μ] in
theorem Retains.trans (h : Retains rebound S S') (h' : Retains rebound S' S'') :
    Retains rebound S S'' :=
  ⟨h'.status.trans h.status, h.sorts.trans h'.sorts,
    fun name hname => h'.bound name (h.bound name hname),
    fun name hname => (h'.names name hname).trans (h.names name hname)⟩

omit [Solver σ μ] in
theorem Retains.mono {rebound' : String → Prop} (h : Retains rebound S S')
    (hsub : ∀ name, rebound name → rebound' name) : Retains rebound' S S' :=
  { h with names := fun name hname => h.names name fun hbound => hname (hsub name hbound) }

theorem ScopeMove.retains (h : ScopeMove S S') : Retains rebound S S' := by
  refine ⟨h.status, h.sorts ▸ List.suffix_refl _, fun name hname => ?_, fun name _ => ?_⟩
  · rw [h.names]
    exact hname
  · rw [h.names]

theorem Flat.retains (h : Flat S S') : Retains rebound S S' := by
  have hmoves := h.moves
  clear h
  induction hmoves with
  | refl => exact .refl S
  | tail _ hmove ih => exact ih.trans hmove.toScopeMove.retains

theorem Shifts.retains (h : Shifts S S') : Retains rebound S S' := by
  cases h with
  | flat h => exact h.retains
  | move h hmove => exact h.retains.trans hmove.retains

theorem Quiet.retains {bound : Option String} (h : Quiet bound S S') :
    Retains (bound = some ·) S S' := by
  induction h with
  | refl => exact .refl S
  | tail _ hmove ih =>
    exact ih.trans ⟨hmove.status, hmove.sorts, hmove.bound, hmove.names⟩

/-- A command that neither clears nor ends a session keeps all names but the one it binds. -/
theorem Executes.retains {sexpr : SExpr} (h : Executes sexpr S S') (hactive : S.status = .active)
    (hclears : sexpr.clears = false) : Retains sexpr.Binds S S' := by
  rcases h with rfl | ⟨command, hrequests, hturns⟩
  · exact .refl S'
  · have hkeeps := fun h => Bool.false_ne_true (hclears.symm.trans (hrequests.clears h))
    have hquiet (h : Quiet command.bound? S S') : Retains sexpr.Binds S S' :=
      h.retains.mono fun _ hbound => hrequests.binds hbound
    cases command with
    | assertTerm term => exact Flat.retains hturns
    | push levels => exact Shifts.retains hturns
    | pop levels => exact Shifts.retains hturns
    | setLogic logic =>
      obtain rfl := hturns.2 hactive
      exact .refl S'
    | resetAssertions => exact (hkeeps (.inl rfl)).elim
    | reset => exact (hkeeps (.inr (.inl rfl))).elim
    | exit => exact (hkeeps (.inr (.inr rfl))).elim
    | _ => exact hquiet hturns

/-! ### Runs above a level -/

/-- The commands after some of those at the beginning. -/
theorem after_take_drop (commands : List SExpr) (k : Nat) (S : Session σ μ) :
    after (commands.drop k) (after (commands.take k) S) = after commands S := by
  rw [← after_append, List.take_append_drop]

section

variable [ScopedSolver σ μ]

theorem retains_after {commands : List SExpr} (hS : S.Sound) (hactive : S.status = .active)
    (hclears : ∀ command ∈ commands, command.clears = false) :
    Retains (fun name => ∃ command ∈ commands, command.Binds name) S (after commands S) := by
  induction commands generalizing S with
  | nil => exact .refl S
  | cons command rest ih =>
    obtain ⟨hfirst, hrest⟩ := List.forall_mem_cons.mp hclears
    have hexecutes := (execute_turns hS command _ _ rfl).1
    have hretains := hexecutes.retains hactive hfirst
    have hlater := ih (hexecutes.moves.sound hS) (hretains.status.trans hactive) hrest
    refine .trans (hretains.mono fun name hbinds => ?_) (hlater.mono fun name hbinds => ?_)
    · exact ⟨command, List.mem_cons_self, hbinds⟩
    · obtain ⟨later, hmem, hbinds⟩ := hbinds
      exact ⟨later, List.mem_cons_of_mem _ hmem, hbinds⟩

theorem stays_after {commands : List SExpr} (hS : S.Sound) (hscoped : S.Scoped)
    (hactive : S.status = .active) (hclears : ∀ command ∈ commands, command.clears = false)
    (hpos : 1 ≤ n)
    (hdepth : ∀ k ≤ commands.length, n < (after (commands.take k) S).assertions.depth) :
    Stays n S (after commands S) := by
  induction commands generalizing S with
  | nil => exact ⟨.refl n S, hS, hscoped⟩
  | cons command rest ih =>
    obtain ⟨hfirst, hrest⟩ := List.forall_mem_cons.mp hclears
    have hexecutes := (execute_turns hS command _ _ rfl).1
    have hbefore : n < S.assertions.depth := hdepth 0 (Nat.zero_le _)
    have hafter := hdepth 1 (by simp)
    have hstays := hexecutes.stays hS hscoped hactive hfirst hpos hbefore hafter
    have hactive' := (hexecutes.retains hactive hfirst).status.trans hactive
    have hlater := ih hstays.sound hstays.isScoped hactive' hrest fun k hk =>
      hdepth (k + 1) (Nat.succ_le_succ hk)
    exact ⟨hstays.below.trans hlater.below, hlater.sound, hlater.isScoped⟩

end

/-! ### Opening and closing levels -/

/-- Whether an operation has changed nothing but the scopes. -/
structure Rescoped (S S' : Session σ μ) : Prop where
  status : S'.status = S.status
  names : S'.names = S.names
  sorts : S'.sorts = S.sorts

variable [WillingSolver σ μ]

/-- In an active session there is a solver with as many scopes as there are levels. -/
theorem Scoped.exists_solver (hscoped : S.Scoped) (hactive : S.status = .active) :
    ∃ lease context solver, S.context = some (lease, context) ∧ context.solver = some solver ∧
      context.depth = S.assertions.depth ∧ S.definedParts.depth = S.assertions.depth ∧
      (held solver).depth = S.assertions.depth := by
  obtain ⟨⟨lease, context⟩, hcontext⟩ := Option.ne_none_iff_exists'.mp (hscoped.active hactive)
  obtain ⟨solver, hsolver, haligned⟩ := hscoped.level lease context hcontext
  exact ⟨lease, context, solver, hcontext, hsolver, haligned.assertions.symm,
    haligned.defined.trans haligned.assertions.symm, haligned.held.trans haligned.assertions.symm⟩

/-- Opening levels in an active session succeeds. -/
theorem push_ok (hscoped : S.Scoped) (hactive : S.status = .active) (levels : Nat) :
    ∃ S', (push levels).run S = (.ok (), S') ∧ S'.scopes = S.scopes.pushMany levels ∧
      Rescoped S S' := by
  obtain ⟨lease, context, solver, hcontext, hsolver, _⟩ := hscoped.exists_solver hactive
  obtain ⟨solver', table', hrun⟩ := WillingSolver.push_ok levels solver S.dropped.terms.table
  have hcontext' : S.dropped.context = some (lease, context) := by rw [dropped_context, hcontext]
  have hcalled := Called.intro hcontext' hsolver hrun
  have hpush : (onContext (Context.push levels)).run S.dropped = _ :=
    (hcalled.run_bind Context.plainError _).trans (hcalled.run_change _)
  have hresult : (push levels).run S = _ :=
    (Step.run_bind_ok (run_requireActive hactive)).trans <|
      (Step.run_bind_ok (run_dropModel S)).trans <|
        (Step.run_bind_ok hpush).trans (Step.run_modify _ _)
  refine ⟨_, hresult, ?_, ?_⟩
  · have hheld := ScopedSolver.push hrun
    simp [scopes, Scopes.pushMany, held?, solver?, mapContext, hcontext, hsolver, hheld]
  · exact ⟨by simp, by simp, by simp⟩

omit [WillingSolver σ μ] in
/-- An active session with more levels than are to be closed goes on to close them. -/
theorem run_pop_guarded (hactive : S.status = .active) {levels : Nat}
    (hlevels : levels < S.assertions.depth) : (pop levels).run S = (do
      dropModel
      onContext (Context.pop levels)
      modify fun session =>
        { session with
          assertions := session.assertions.popMany levels
          definedParts := session.definedParts.popMany levels } : SessionStep σ μ Unit).run S := by
  have hnot : ¬ S.assertions.depth ≤ levels := Nat.not_le_of_lt hlevels
  rw [pop, Step.run_bind_ok (run_requireActive hactive), Step.run_bind_ok (Step.run_get S)]
  simp only [hnot, if_false]

/-- Closing levels above the base in an active session succeeds. -/
theorem pop_ok (hscoped : S.Scoped) (hactive : S.status = .active) {levels : Nat}
    (hlevels : levels < S.assertions.depth) :
    ∃ S', (pop levels).run S = (.ok (), S') ∧ S'.scopes = S.scopes.popMany levels ∧
      Rescoped S S' := by
  obtain ⟨lease, context, solver, hcontext, hsolver, hdepth, _, hheld⟩ :=
    hscoped.exists_solver hactive
  obtain ⟨solver', table', hrun⟩ :=
    WillingSolver.pop_ok levels solver S.dropped.terms.table (hheld ▸ hlevels)
  have hcontext' : S.dropped.context = some (lease, context) := by rw [dropped_context, hcontext]
  have hcalled := Called.intro hcontext' hsolver hrun
  have hpop : (onContext (Context.pop levels)).run S.dropped = _ :=
    (run_pop_of_lt hcontext' hsolver (hdepth ▸ hlevels)).trans
      ((hcalled.run_bind Context.plainError _).trans (hcalled.run_change _))
  have hguard := run_pop_guarded (μ := μ) hactive hlevels
  have hresult : (pop levels).run S = _ :=
    hguard.trans <| (Step.run_bind_ok (run_dropModel S)).trans <|
      (Step.run_bind_ok hpop).trans (Step.run_modify _ _)
  refine ⟨_, hresult, ?_, ?_⟩
  · have hheld := ScopedSolver.pop hrun
    simp [scopes, Scopes.popMany, held?, solver?, mapContext, hcontext, hsolver, hheld]
  · exact ⟨by simp, by simp, by simp⟩

/-- Closing levels restores the scopes of before they were opened, if all that was below them has
stayed. -/
theorem scopes_restored {S₁ : Session σ μ} (hS : S.Scoped) (hactive : S.status = .active)
    (hS' : S'.Scoped) (hactive' : S'.status = .active)
    (hpush : S₁.scopes = S.scopes.pushMany n) (hbelow : SameBelow S.assertions.depth S₁ S')
    (hdepth : S'.assertions.depth = S.assertions.depth + n) :
    S'.scopes.popMany n = S.scopes := by
  obtain ⟨lease, context, solver, hcontext, hsolver, hscopes, hparts, hheld⟩ :=
    hS.exists_solver hactive
  obtain ⟨lease', context', solver', hcontext', hsolver', hscopes', hparts', hheld'⟩ :=
    hS'.exists_solver hactive'
  obtain ⟨hassertions₁, hparts₁, _, hformulas₁⟩ := Scopes.mk.inj hpush
  have hassertions : S'.assertions.popMany n = S.assertions := by
    refine Levels.popMany_eq hdepth ?_
    rw [hbelow.assertions, hassertions₁]
    exact Levels.toList_pushMany_take _ _
  have hdefined : S'.definedParts.popMany n = S.definedParts := by
    refine Levels.popMany_eq (by omega) ?_
    rw [hparts, hbelow.definedParts, hparts₁, ← hparts]
    exact Levels.toList_pushMany_take _ _
  have hformulas : (held solver').popMany n = held solver := by
    have hsame := hbelow.formulas
    rw [hformulas₁] at hsame
    simp only [scopes, held?, solver?, hcontext, hcontext', hsolver, hsolver', Option.bind_some,
      Option.map_some, Option.some.injEq] at hsame
    refine Levels.popMany_eq (by omega) ?_
    rw [hheld, hsame, ← hheld]
    exact Levels.toList_pushMany_take _ _
  have hopen : context'.depth - n = context.depth := by omega
  simp [scopes, Scopes.popMany, held?, solver?, hcontext, hcontext', hsolver, hsolver',
    hassertions, hdefined, hformulas, hopen]

/-- What is left when levels have been opened, commands executed, and the levels closed again: the
scopes of before, and the names and sorts of after. A name that a command has bound stays bound,
to the same as long as no later command binds it again. -/
structure Bracketed (S S₁ : Session σ μ) (commands : List SExpr) (S₂ : Session σ μ) : Prop where
  scopes : S₂.scopes = S.scopes
  names : S₂.names = (after commands S₁).names
  sorts : S₂.sorts = (after commands S₁).sorts
  bound : ∀ k ≤ commands.length, ∀ name,
    (after (commands.take k) S₁).names.contains name = true → S₂.names.contains name = true
  binding : ∀ k ≤ commands.length, ∀ name,
    (∀ command ∈ commands.drop k, ¬ command.Binds name) →
      S₂.names.get? name = (after (commands.take k) S₁).names.get? name
  sort : ∀ k ≤ commands.length, ∀ name,
    (after (commands.take k) S₁).sorts.contains name = true → S₂.sorts.contains name = true

theorem bracketed_of_run {S₁ : Session σ μ} (hS : S.Sound) (hscoped : S.Scoped)
    (hactive : S.status = .active) (hn : 1 ≤ n) {commands : List SExpr}
    (hpush : (push n).run S = (.ok (), S₁))
    (hclears : ∀ command ∈ commands, command.clears = false)
    (hdepth : ∀ k ≤ commands.length,
      S.assertions.depth + n ≤ (after (commands.take k) S₁).assertions.depth)
    (hend : (after commands S₁).assertions.depth = S.assertions.depth + n) :
    ∃ S₂, (pop n).run (after commands S₁) = (.ok (), S₂) ∧ Bracketed S S₁ commands S₂ := by
  obtain ⟨S₁', hpush', hscopes₁, hrescoped₁⟩ := push_ok hscoped hactive n
  obtain ⟨_, rfl⟩ := Prod.mk.inj (hpush.symm.trans hpush')
  have hmoves := (push_shifts n S _ _ hpush).1.stacks.moves
  have hS₁ : S₁.Sound := hmoves.sound hS
  have hscoped₁ : S₁.Scoped := hmoves.scoped hS hscoped
  have hactive₁ : S₁.status = .active := hrescoped₁.status.trans hactive
  have hpos : 1 ≤ S.assertions.depth := S.assertions.depth_pos
  have hstays : Stays S.assertions.depth S₁ (after commands S₁) :=
    stays_after hS₁ hscoped₁ hactive₁ hclears hpos fun k hk => by
      have := hdepth k hk
      omega
  -- from any point on, the commands that are left keep names and sorts
  have hretains (k : Nat) : Retains (fun name => ∃ command ∈ commands.drop k, command.Binds name)
      (after (commands.take k) S₁) (after commands S₁) := by
    have hbefore : ∀ command ∈ commands.take k, command.clears = false := fun command hmem =>
      hclears command (List.mem_of_mem_take hmem)
    have hlater : ∀ command ∈ commands.drop k, command.clears = false := fun command hmem =>
      hclears command (List.mem_of_mem_drop hmem)
    have hactive' := (retains_after hS₁ hactive₁ hbefore).status.trans hactive₁
    have h := retains_after (sound_after hS₁ _) hactive' hlater
    rwa [after_take_drop] at h
  have hactive' : (after commands S₁).status = .active := (hretains 0).status.trans hactive₁
  have hlevels : n < (after commands S₁).assertions.depth := by omega
  obtain ⟨S₂, hpop, hscopes₂, hrescoped₂⟩ := pop_ok hstays.isScoped hactive' hlevels
  refine ⟨S₂, hpop, ?_, hrescoped₂.names, hrescoped₂.sorts, ?_, ?_, ?_⟩
  · rw [hscopes₂]
    exact scopes_restored hscoped hactive hstays.isScoped hactive' hscopes₁ hstays.below hend
  · intro k _ name hbound
    rw [hrescoped₂.names]
    exact (hretains k).bound name hbound
  · intro k _ name hbinds
    rw [hrescoped₂.names]
    exact (hretains k).names name fun ⟨command, hmem, hbound⟩ => hbinds command hmem hbound
  · intro k _ name hsort
    rw [hrescoped₂.sorts]
    have hmem := (hretains k).sorts.subset (List.contains_iff_mem.mp hsort)
    exact List.contains_iff_mem.mpr hmem

theorem pop_add (hS : S.Sound) (hscoped : S.Scoped) (hactive : S.status = .active) {a b : Nat}
    (h : a + b < S.assertions.depth) :
    ∃ S₁ S₂ S₃, (pop (a + b)).run S = (.ok (), S₁) ∧ (pop a).run S = (.ok (), S₂) ∧
      (pop b).run S₂ = (.ok (), S₃) ∧ S₁.scopes = S₃.scopes := by
  obtain ⟨S₁, hrun₁, hscopes₁, _⟩ := pop_ok hscoped hactive h
  have ha : a < S.assertions.depth := by omega
  obtain ⟨S₂, hrun₂, hscopes₂, hrescoped₂⟩ := pop_ok hscoped hactive ha
  have hscoped₂ : S₂.Scoped := (pop_shifts a S _ _ hrun₂).1.stacks.moves.scoped hS hscoped
  have hassertions₂ : S₂.assertions = S.assertions.popMany a := congrArg Scopes.assertions hscopes₂
  have hb : b < S₂.assertions.depth := by
    rw [hassertions₂, Levels.depth_popMany ha]
    omega
  obtain ⟨S₃, hrun₃, hscopes₃, _⟩ := pop_ok hscoped₂ (hrescoped₂.status.trans hactive) hb
  refine ⟨S₁, S₂, S₃, hrun₁, hrun₂, hrun₃, ?_⟩
  obtain ⟨lease, context, solver, hcontext, hsolver, _, hparts, hheld⟩ :=
    hscoped.exists_solver hactive
  rw [hscopes₁, hscopes₃, hscopes₂]
  simp only [scopes, Scopes.popMany, held?, solver?, hcontext, hsolver, Option.bind_some,
    Option.map_some]
  rw [Levels.popMany_add h, Levels.popMany_add (hparts ▸ h), Levels.popMany_add (hheld ▸ h),
    Nat.sub_sub]

theorem push_add (hS : S.Sound) (hscoped : S.Scoped) (hactive : S.status = .active) (a b : Nat) :
    ∃ S₁ S₂ S₃, (push (a + b)).run S = (.ok (), S₁) ∧ (push a).run S = (.ok (), S₂) ∧
      (push b).run S₂ = (.ok (), S₃) ∧ S₁.scopes = S₃.scopes := by
  obtain ⟨S₁, hrun₁, hscopes₁, _⟩ := push_ok hscoped hactive (a + b)
  obtain ⟨S₂, hrun₂, hscopes₂, hrescoped₂⟩ := push_ok hscoped hactive a
  have hscoped₂ : S₂.Scoped := (push_shifts a S _ _ hrun₂).1.stacks.moves.scoped hS hscoped
  obtain ⟨S₃, hrun₃, hscopes₃, _⟩ := push_ok hscoped₂ (hrescoped₂.status.trans hactive) b
  refine ⟨S₁, S₂, S₃, hrun₁, hrun₂, hrun₃, ?_⟩
  rw [hscopes₁, hscopes₃, hscopes₂]
  simp [Scopes.pushMany, Levels.pushMany_add, Function.comp_def, Nat.add_assoc]

/-- Closing as many levels as were opened restores the scopes, whatever commands have worked above
them, and opening or closing levels can be done at once or in turn. -/
theorem push_pop_brackets (h : S.Reachable) (hactive : S.status = .active) :
    (∀ n commands S₁, 1 ≤ n → (push n).run S = (.ok (), S₁) →
      (∀ command ∈ commands, command.clears = false) →
      (∀ k ≤ commands.length,
        S.assertions.depth + n ≤ (after (commands.take k) S₁).assertions.depth) →
      (after commands S₁).assertions.depth = S.assertions.depth + n →
      ∃ S₂, (pop n).run (after commands S₁) = (.ok (), S₂) ∧ Bracketed S S₁ commands S₂) ∧
    (∀ a b, a + b < S.assertions.depth → ∃ S₁ S₂ S₃, (pop (a + b)).run S = (.ok (), S₁) ∧
      (pop a).run S = (.ok (), S₂) ∧ (pop b).run S₂ = (.ok (), S₃) ∧ S₁.scopes = S₃.scopes) ∧
    ∀ a b, ∃ S₁ S₂ S₃, (push (a + b)).run S = (.ok (), S₁) ∧
      (push a).run S = (.ok (), S₂) ∧ (push b).run S₂ = (.ok (), S₃) ∧ S₁.scopes = S₃.scopes := by
  have hS := h.sound
  have hscoped := h.scoped
  refine ⟨fun n commands S₁ hn hpush hclears hdepth hend => ?_, fun a b hlevels => ?_,
    fun a b => ?_⟩
  · exact bracketed_of_run hS hscoped hactive hn hpush hclears hdepth hend
  · exact pop_add hS hscoped hactive hlevels
  · exact push_add hS hscoped hactive a b

/-- Two levels are opened above one that is open already, and the commands above them declare, open,
close, and fail. -/
theorem push_pop_brackets_nested :
    ∃ (S S₁ S₂ : Session Engine Engine.Model) (commands : List SExpr),
      after [.list [.atom "set-logic", .atom "QF_LRA"],
        .list [.atom "push", .atom "1"]] (start (.ofSolver "z3")) = S ∧ S.status = .active ∧
      commands = [.list [.atom "declare-const", .atom "x", .atom "Int"],
        .list [.atom "push", .atom "1"], .list [.atom "declare-sort", .atom "T", .atom "0"],
        .list [.atom "pop", .atom "7"], .list [.atom "pop", .atom "1"]] ∧
      (push 2).run S = (.ok (), S₁) ∧ (∀ command ∈ commands, command.clears = false) ∧
      (∀ k ≤ commands.length,
        S.assertions.depth + 2 ≤ (after (commands.take k) S₁).assertions.depth) ∧
      (after commands S₁).assertions.depth = S.assertions.depth + 2 ∧
      (pop 2).run (after commands S₁) = (.ok (), S₂) ∧ Bracketed S S₁ commands S₂ := by
  let S : Session Engine Engine.Model := after [.list [.atom "set-logic", .atom "QF_LRA"],
    .list [.atom "push", .atom "1"]] (start (.ofSolver "z3"))
  let commands : List SExpr := [.list [.atom "declare-const", .atom "x", .atom "Int"],
    .list [.atom "push", .atom "1"], .list [.atom "declare-sort", .atom "T", .atom "0"],
    .list [.atom "pop", .atom "7"], .list [.atom "pop", .atom "1"]]
  let S₁ := ((push 2).run S).2
  have hactive : S.status = .active := by decide +kernel
  have hpush : (push 2).run S = (.ok (), S₁) := Step.run_of_isOk (by decide +kernel)
  have hclears : ∀ command ∈ commands, command.clears = false := by decide +kernel
  have hdepth : ∀ k ≤ commands.length,
      S.assertions.depth + 2 ≤ (after (commands.take k) S₁).assertions.depth := by decide +kernel
  have hend : (after commands S₁).assertions.depth = S.assertions.depth + 2 := by decide +kernel
  obtain ⟨S₂, hpop, hbracketed⟩ :=
    (push_pop_brackets ⟨_, _, rfl⟩ hactive).1 2 commands S₁ (by decide) hpush hclears hdepth hend
  exact ⟨S, S₁, S₂, commands, rfl, hactive, rfl, hpush, hclears, hdepth, hend, hpop, hbracketed⟩

/-- An assertion that is made after no level has been opened is not taken away when none is
closed. -/
theorem not_restored_of_push_none :
    ∃ (S S₁ S₂ : Session Scripted ScriptedModel) (commands : List SExpr),
      after [.list [.atom "set-logic", .atom "QF_LRA"]] (start (.ofSolver "z3")) = S ∧
      S.status = .active ∧ commands = [.list [.atom "assert", .atom "true"]] ∧
      (push 0).run S = (.ok (), S₁) ∧ (∀ command ∈ commands, command.clears = false) ∧
      (∀ k ≤ commands.length,
        S.assertions.depth + 0 ≤ (after (commands.take k) S₁).assertions.depth) ∧
      (after commands S₁).assertions.depth = S.assertions.depth + 0 ∧
      (pop 0).run (after commands S₁) = (.ok (), S₂) ∧ S₂.assertions ≠ S.assertions := by
  let S : Session Scripted ScriptedModel :=
    after [.list [.atom "set-logic", .atom "QF_LRA"]] (start (.ofSolver "z3"))
  let commands : List SExpr := [.list [.atom "assert", .atom "true"]]
  let S₁ := ((push 0).run S).2
  have hpush : (push 0).run S = (.ok (), S₁) := Step.run_of_isOk (by decide +kernel)
  have hpop : (pop 0).run (after commands S₁) = (.ok (), ((pop 0).run (after commands S₁)).2) :=
    Step.run_of_isOk (by decide +kernel)
  have hlarger : ((pop 0).run (after commands S₁)).2.assertions.size ≠ S.assertions.size := by
    decide +kernel
  exact ⟨S, S₁, _, commands, rfl, by decide +kernel, rfl, hpush, by decide +kernel,
    by decide +kernel, by decide +kernel, hpop, fun h => hlarger (congrArg Levels.size h)⟩

end Session

end SmtScript
