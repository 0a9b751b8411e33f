import SmtScript.Proofs.Session.Run

/-!
The model that a session keeps.

A model is kept under a lease until it is dropped. As long as it is, the moves of a session either
leave the last answer and the defined integer parts alone, or an integer part is defined and there
is no answer any more, `Moves.keeping`. The latter is what a command does that fails after it has
defined an integer part.
-/

namespace SmtScript

namespace Session

open Solver

variable {σ μ α : Type} {S S' : Session σ μ} {lease : Nat}

/-- Whether the last check has left a model. -/
def Answered (S : Session σ μ) : Prop :=
  S.lastStatus = some .sat ∨ S.lastStatus = some .unknown

theorem Answered.ne_unsat (h : S.Answered) : S.lastStatus ≠ some .unsat := by
  rcases h with h | h <;> simp [h]

/-- Whether the model with a lease is kept. -/
def Keeps (S : Session σ μ) (lease : Nat) : Prop := S.model.map Prod.fst = some lease

theorem not_keeps (h : S.model = none) : ¬ S.Keeps lease := by
  simp [Keeps, h]

theorem Keeps.of_model_eq (h : S'.Keeps lease) (hmodel : S'.model = S.model) : S.Keeps lease := by
  rw [Keeps, ← hmodel]
  exact h

/-- Whether neither the last answer nor the defined integer parts have changed, or integer parts
have been defined and there is no answer. -/
def Keeping (S S' : Session σ μ) : Prop :=
  (S'.lastStatus = S.lastStatus ∧ S'.definedParts = S.definedParts) ∨
    (S'.lastStatus = none ∧ S.definedParts.items.length < S'.definedParts.items.length)

theorem Keeping.refl (S : Session σ μ) : Keeping S S := .inl ⟨rfl, rfl⟩

theorem Keeping.trans {S'' : Session σ μ} (h : Keeping S S') (h' : Keeping S' S'') :
    Keeping S S'' := by
  rcases h' with ⟨hlast', hdefined'⟩ | ⟨hlast', hlt'⟩
  · rw [Keeping, hlast', hdefined']
    exact h
  · refine .inr ⟨hlast', ?_⟩
    rcases h with ⟨_, hdefined⟩ | ⟨_, hlt⟩
    · rw [← hdefined]
      exact hlt'
    · exact Nat.lt_trans hlt hlt'

theorem Keeping.answered (h : Keeping S S') (hdefined : S'.definedParts = S.definedParts)
    (hS : S.Answered) : S'.Answered := by
  rcases h with ⟨hlast, _⟩ | ⟨_, hlt⟩
  · rw [Answered, hlast]
    exact hS
  · rw [hdefined] at hlt
    exact absurd hlt (Nat.lt_irrefl _)

theorem Called.keeping {call : SolverCall σ α} {r : Except Fault α} (h : Called call S r S') :
    Keeping S S' := .inl ⟨h.lastStatus, h.definedParts⟩

theorem Called.solver?_eq {call : SolverCall σ α} {r : Except Fault α} (h : Called call S r S')
    (hsame : ∀ {solver solver' table'}, call.run (solver, S.terms.table) = (r, solver', table') →
      solver' = solver) : S'.solver? = S.solver? := by
  obtain ⟨solver, solver', table', hsolver, hsolver', hrun⟩ := h.run
  rw [hsolver, hsolver', hsame hrun]

variable [Solver σ μ]

structure Cached (S : Session σ μ) : Prop where
  idle : S.status = .uninitialized → S.context = none
  lease : ∀ lease, S.Keeps lease → lease < S.models.next
  /-- With an answer, the model is the one that the solver has. -/
  model : ∀ lease m, S.model = some (lease, m) → ∃ solver, S.solver? = some solver ∧
    S.lastStatus ≠ some .unsat ∧
      (S.Answered → ∀ table, Solver.model.run (solver, table) = (.ok m, solver, table))

theorem cached_start (configuration : Configuration) :
    (start configuration : Session σ μ).Cached where
  idle _ := rfl
  lease _ h := absurd h (not_keeps rfl)
  model _ _ h := by cases h

theorem Cached.of_none (hidle : S.status = .uninitialized → S.context = none)
    (hmodel : S.model = none) : S.Cached where
  idle := hidle
  lease _ h := absurd h (not_keeps hmodel)
  model _ _ h := by rw [hmodel] at h; cases h

theorem Cached.model_none (h : S.Cached) (hcontext : S.context = none) : S.model = none := by
  cases hmodel : S.model with
  | none => rfl
  | some p =>
    obtain ⟨solver, hsolver, _⟩ := h.model p.1 p.2 hmodel
    simp [solver?, hcontext] at hsolver

theorem Called.busy {call : SolverCall σ α} {r : Except Fault α} (h : Called call S r S')
    (hS : S.Cached) : S'.status ≠ .uninitialized := by
  rw [h.status]
  intro hidle
  cases h with
  | intro hcontext _ _ =>
    rw [hS.idle hidle] at hcontext
    cases hcontext

/-- Calls that leave the solver alone. -/
theorem Cached.called {call : SolverCall σ α} {r : Except Fault α} (hS : S.Cached)
    (h : Called call S r S')
    (hsame : ∀ {solver solver' table'}, call.run (solver, S.terms.table) = (r, solver', table') →
      solver' = solver) : S'.Cached := by
  refine ⟨fun hidle => absurd hidle (h.busy hS), fun lease hk => ?_, fun lease m hm => ?_⟩
  · rw [h.models]
    exact hS.lease lease (hk.of_model_eq h.model)
  · obtain ⟨solver, hsolver, hlast, hmodel⟩ := hS.model lease m (h.model ▸ hm)
    refine ⟨solver, (h.solver?_eq hsame).trans hsolver, ?_, ?_⟩
    · rw [h.lastStatus]
      exact hlast
    · rw [Answered, h.lastStatus]
      exact hmodel

/-! ### While a model is kept -/

/-- Whether the solver makes a model after an answer, and the model is kept with a new lease. -/
inductive MakesModel (lease : Nat) (S : Session σ μ) : Session σ μ → Prop where
  | intro {S' : Session σ μ} {model : μ} (hmodel : S.model = none) (hanswered : S.Answered)
      (hlease : S.models.next = lease) (h : Called Solver.model S (.ok model) S') :
      MakesModel lease S { S' with
        model := some (S'.models.take.1, model), models := S'.models.take.2 }

theorem MakesModel.answered (h : MakesModel lease S S') : S'.Answered := by
  cases h with
  | @intro S₁ _ _ hanswered _ hcalled =>
    have hanswered : S₁.Answered := by
      rw [Answered, hcalled.lastStatus]
      exact hanswered
    exact hanswered

theorem MakesModel.lease_eq (h : MakesModel lease S S') : S.models.next = lease := by
  cases h
  assumption

/-- A move either keeps a model that was there, or makes one. -/
theorem Move.keeps (h : Move S S') (hk : S'.Keeps lease) :
    S.Keeps lease ∨ MakesModel lease S S' := by
  have hold {S' : Session σ μ} (hk : S'.Keeps lease) (hmodel : S'.model = S.model) :
      S.Keeps lease ∨ MakesModel lease S S' := .inl (hk.of_model_eq hmodel)
  cases h with
  | note configuration sorts info => exact hold hk rfl
  | translate hterms => exact hold hk rfl
  | bind name hbinding => exact hold hk rfl
  | activate logic => exact hold hk rfl
  | drop => exact absurd hk (not_keeps (by simp))
  | refuse _ hcalled => exact hold hk hcalled.model
  | define _ _ hcalled => exact hold hk hcalled.model
  | assert _ _ hcalled => exact absurd hk (not_keeps (by simp))
  | push _ hcalled => exact hold hk hcalled.model
  | pop _ _ hcalled => exact hold hk hcalled.model
  | clear _ hcalled => exact hold hk hcalled.model
  | check _ _ hcalled => exact hold hk hcalled.model
  | keep hmodel hlast hcalled =>
    have hlease : _ = lease := Option.some.inj hk
    rw [hcalled.models] at hlease
    exact .inr (.intro hmodel hlast hlease hcalled)
  | core _ hcalled => exact hold hk hcalled.model
  | ask _ hmodel _ =>
    refine .inl ?_
    rw [Keeps, hmodel]
    exact hk
  | restart _ => exact absurd hk (not_keeps rfl)
  | exit _ => exact absurd hk (not_keeps (by simp))

theorem Move.next_le (h : Move S S') : S.models.next ≤ S'.models.next := by
  cases h with
  | keep _ _ hcalled =>
    rw [← hcalled.models]
    exact Nat.le_succ _
  | drop => simp
  | assert _ _ hcalled =>
    rw [dropped_next]
    exact hcalled.models ▸ Nat.le_refl _
  | restart _ => simp
  | exit _ => simp
  | refuse _ hcalled => exact hcalled.models ▸ Nat.le_refl _
  | define _ _ hcalled => exact hcalled.models ▸ Nat.le_refl _
  | push _ hcalled => exact hcalled.models ▸ Nat.le_refl _
  | pop _ _ hcalled => exact hcalled.models ▸ Nat.le_refl _
  | clear _ hcalled => exact hcalled.models ▸ Nat.le_refl _
  | check _ _ hcalled => exact hcalled.models ▸ Nat.le_refl _
  | core _ hcalled => exact hcalled.models ▸ Nat.le_refl _
  | _ => exact Nat.le_refl _

theorem Moves.next_le (h : Moves S S') : S.models.next ≤ S'.models.next := by
  induction h with
  | refl => exact Nat.le_refl _
  | tail _ hmove ih => exact Nat.le_trans ih hmove.next_le

theorem Move.keeping (h : Move S S') (hS : S.Cached) (hk : S.Keeps lease)
    (hk' : S'.Keeps lease) : Keeping S S' := by
  have hnone (h : S.model = none) : Keeping S S' := absurd hk (not_keeps h)
  cases h with
  | note configuration sorts info => exact .refl S
  | translate hterms => exact .inl ⟨rfl, rfl⟩
  | bind name hbinding => exact .inl ⟨rfl, rfl⟩
  | activate logic hstatus => exact hnone (hS.model_none (hS.idle hstatus))
  | drop => exact absurd hk' (not_keeps (by simp))
  | refuse _ hcalled => exact hcalled.keeping
  | @define S₁ symbol _ _ _ hcalled =>
    refine .inr ⟨hcalled.lastStatus_noted ({ · with last := none }) (fun _ => rfl) rfl, ?_⟩
    change _ < (S₁.definedParts.add symbol).items.length
    rw [hcalled.definedParts, Levels.items_add, List.length_append]
    exact Nat.lt_succ_self _
  | assert _ _ hcalled => exact absurd hk' (not_keeps (by simp))
  | push hmodel _ => exact hnone hmodel
  | pop hmodel _ _ => exact hnone hmodel
  | clear hmodel _ => exact hnone hmodel
  | check hmodel _ _ => exact hnone hmodel
  | keep hmodel _ _ => exact hnone hmodel
  | core _ hcalled => exact hcalled.keeping
  | ask _ _ _ => exact .inl ⟨rfl, rfl⟩
  | restart _ => exact absurd hk' (not_keeps rfl)
  | exit _ => exact absurd hk' (not_keeps (by simp))

/-- A lease that was given out before is that of a model that was there before. -/
theorem Moves.keeps (h : Moves S S') (hlease : lease < S.models.next) (hk : S'.Keeps lease) :
    S.Keeps lease := by
  induction h using Relation.ReflTransGen.head_induction_on with
  | refl => exact hk
  | head hmove _ ih =>
    rcases hmove.keeps (ih (Nat.lt_of_lt_of_le hlease hmove.next_le)) with hkeeps | hmakes
    · exact hkeeps
    · exact absurd hmakes.lease_eq (Nat.ne_of_gt hlease)

variable [SteadySolver σ μ]

/-! ### The model that the solver has -/

/-- A solver that is asked for its model stays as it is. -/
theorem solver_model {solver solver' : σ} {table table' : SymbolTable} {r : Except Fault μ}
    (hrun : Solver.model.run (solver, table) = (r, solver', table')) : solver' = solver := by
  have hsame := Prod.mk.inj (hrun.symm.trans (SteadySolver.model hrun table))
  exact (Prod.mk.inj hsame.2).1

theorem Move.cached (h : Move S S') (hS : S.Cached) : S'.Cached := by
  cases h with
  | note configuration sorts info => exact ⟨hS.idle, hS.lease, hS.model⟩
  | translate hterms => exact ⟨hS.idle, hS.lease, hS.model⟩
  | bind name hbinding => exact ⟨hS.idle, hS.lease, hS.model⟩
  | activate logic hstatus =>
    exact .of_none nofun (hS.model_none (hS.idle hstatus))
  | drop => exact .of_none (by simpa using hS.idle) (by simp)
  | refuse hoffers hcalled => exact hS.called hcalled (SteadySolver.refused hoffers)
  | @define S₁ symbol operand hpart hnew hcalled =>
    have hlast : (S₁.withDefined symbol).lastStatus = none :=
      hcalled.lastStatus_noted ({ · with last := none }) (fun _ => rfl) rfl
    refine ⟨fun hidle => absurd hidle (hcalled.busy hS), fun lease hk => ?_, fun lease m hm => ?_⟩
    · have hlease := hS.lease lease (hk.of_model_eq hcalled.model)
      rw [← hcalled.models] at hlease
      exact hlease
    · obtain ⟨_, solver', _, _, hsolver', _⟩ := hcalled.run
      refine ⟨solver', ?_, by simp [hlast], by simp [Answered, hlast]⟩
      cases hcalled with
      | intro _ _ _ => exact hsolver'
  | assert _ _ hcalled =>
    refine .of_none (fun hidle => ?_) (by simp)
    rw [dropped_status] at hidle
    exact absurd hidle (hcalled.busy hS)
  | push hmodel hcalled =>
    exact .of_none (fun hidle => absurd hidle (hcalled.busy hS)) (hcalled.model.trans hmodel)
  | pop hmodel _ hcalled =>
    exact .of_none (fun hidle => absurd hidle (hcalled.busy hS)) (hcalled.model.trans hmodel)
  | clear hmodel hcalled =>
    exact .of_none (fun hidle => absurd hidle (hcalled.busy hS)) (hcalled.model.trans hmodel)
  | check hmodel _ hcalled =>
    exact .of_none (fun hidle => absurd hidle (hcalled.busy hS)) (hcalled.model.trans hmodel)
  | @keep S₁ m hmodel hlast hcalled =>
    refine ⟨fun hidle => absurd hidle (hcalled.busy hS), fun lease hk => ?_, fun lease m' hm => ?_⟩
    · obtain rfl := Option.some.inj hk
      exact Nat.lt_succ_self _
    · obtain ⟨rfl, rfl⟩ := Prod.mk.inj (Option.some.inj hm)
      obtain ⟨solver, solver', table', _, hsolver', hrun⟩ := hcalled.run
      have hmodel := SteadySolver.model hrun
      obtain rfl := solver_model hrun
      have hanswered : S₁.Answered := by
        rw [Answered, hcalled.lastStatus]
        exact hlast
      exact ⟨solver', hsolver', hanswered.ne_unsat, fun _ => hmodel⟩
  | core hlast hcalled =>
    have hmodel : S.model = none := by
      cases hmodel : S.model with
      | none => rfl
      | some p =>
        obtain ⟨_, _, hne, _⟩ := hS.model p.1 p.2 hmodel
        exact absurd hlast hne
    exact .of_none (fun hidle => absurd hidle (hcalled.busy hS)) (hcalled.model.trans hmodel)
  | ask hanswers hmodel hrun =>
    obtain rfl := SteadySolver.answered hanswers hrun
    refine ⟨hS.idle, fun lease hk => hS.lease lease ?_, fun lease m hm => hS.model lease m ?_⟩
    · exact hk.of_model_eq hmodel.symm
    · exact hmodel.trans hm
  | restart _ => exact .of_none (fun _ => rfl) rfl
  | exit _ => exact .of_none nofun (by simp)

theorem Moves.cached (h : Moves S S') (hS : S.Cached) : S'.Cached := by
  induction h with
  | refl => exact hS
  | tail _ hmove ih => exact hmove.cached ih

/-- Between two times at which the same model is kept. -/
theorem Moves.keeping (h : Moves S S') (hS : S.Cached) (hk : S.Keeps lease)
    (hk' : S'.Keeps lease) : Keeping S S' := by
  induction h using Relation.ReflTransGen.head_induction_on with
  | refl => exact .refl _
  | @head S X hmove hlater ih =>
    have hX := hmove.cached hS
    have hlease := Nat.lt_of_lt_of_le (hS.lease lease hk) hmove.next_le
    have hkX : X.Keeps lease := Moves.keeps hlater hlease hk'
    exact (hmove.keeping hS hk hkX).trans (ih hX hkX)

/-- Quiet moves make a model right after an answer only, and leave the answer as it is. -/
theorem Quiet.answered {bound : Option String} (h : Quiet bound S S') (hS : S.Cached)
    (hk : S'.Keeps lease) :
    S.Keeps lease ∨ S'.Answered := by
  induction h with
  | refl => exact .inl hk
  | @tail X S' hearlier hmove ih =>
    rcases hmove.move.keeps hk with hkX | hmakes
    · rcases ih hkX with hkeeps | hanswered
      · exact .inl hkeeps
      · have hX : X.Cached := (Quiet.moves hearlier).cached hS
        exact .inr ((hmove.move.keeping hX hkX hk).answered hmove.definedParts hanswered)
    · exact .inr hmakes.answered

end Session

end SmtScript
