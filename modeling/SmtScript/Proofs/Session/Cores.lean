import Mathlib
import SmtScript.Proofs.Session.Floors
import SmtScript.Proofs.Session.Tidy

/-!
Unsatisfiable cores.

A core is made of formulas that the solver holds. These are the assertions, and the constraints of
integer parts, which no command has written: a script that asks for an integer part may find such a
constraint in a core, with a symbol in it that the script cannot name. With integer parts read as
floors the constraints always hold, so that it is the assertions in a core that contradict each
other.
-/

namespace SmtScript

namespace Session

open Solver ScopedSolver Step

variable {σ μ : Type} {S S' : Session σ μ} {ts : List Term}

/-- What is known of the formulas of a core. -/
structure IsCore (S : Session σ μ) (ts : List Term) : Prop where
  sent : ∀ t ∈ ts, S.Sent t
  /-- If the assertions in a core hold when integer parts are read as floors, so does the rest. -/
  floors : ∀ I : Interpretation, I.WellSorted →
    (∀ t ∈ ts, t ∈ S.assertions.items →
      t.eval (IntegerParts.read S.terms.integerParts I) = .bool true) →
    (IntegerParts.read S.terms.integerParts I).Satisfies ts

theorem isCore_of_sent (hS : S.Sound) (h : ∀ t ∈ ts, S.Sent t) : S.IsCore ts := by
  refine ⟨h, fun I hI hassertions t ht => ?_⟩
  rcases h t ht with hasserted | ⟨p, hp, _, rfl⟩
  · exact hassertions t ht hasserted
  · exact IntegerParts.eval_constraint_read hS.terms.proper hI hp

variable [Solver σ μ]

/-- A core is printed if the solver has one. -/
theorem run_getUnsatCore (hactive : S.status = .active) (hlast : S.lastStatus = some .unsat)
    (hcore : Called Solver.core S (.ok ts) S') :
    (perform .getUnsatCore).run S = (.ok (termLines ts), S') := by
  have hcontext : (onContext Context.core).run S = (.ok ts, S') := by
    cases hcore with
    | @intro lease context solver solver' table' _ hcontext hsolver hrun =>
      obtain ⟨_, depth, last⟩ := context
      obtain rfl : _ = some solver := hsolver
      obtain rfl : last = some .unsat := by simpa [lastStatus, hcontext] using hlast
      have hcall : Context.core.run (⟨some solver, depth, some .unsat⟩, S.terms.table) =
          (Context.call Context.plainError Solver.core).run
            (⟨some solver, depth, some .unsat⟩, S.terms.table) := rfl
      rw [run_onContext _ hcontext, hcall, Context.run_call _ rfl hrun]
      rfl
  have hget : getUnsatCore.run S = (.ok ts, S') :=
    (run_bind_ok (run_requireActive hactive)).trans hcontext
  exact run_bind_ok hget

/-- Only a core of the solver is printed. -/
theorem getUnsatCore_called (S : Session σ μ) :
    Leads (fun _ _ => True) (perform .getUnsatCore) S fun S' output =>
      ∃ ts, Called Solver.core S (.ok ts) S' ∧ output = termLines ts := by
  have hget : Leads (fun _ _ => True) getUnsatCore S fun S' ts =>
      Called Solver.core S (.ok ts) S' := by
    refine .bind closed_true (requireActive_leads closed_true S) fun _ S₁ _ h => ?_
    obtain ⟨rfl, _⟩ := h
    rw [← bind_pure (onContext Context.core)]
    refine .guarded trivial (run_core_cases S₁) fun _ => ?_
    rw [← bind_pure (Context.call _ _)]
    refine leads_call trivial (fun _ _ _ => trivial) fun ts S₂ hcalled => ?_
    refine .bind_of_run (hcalled.run_pure ts) (.of_run (run_pure _ _) trivial ?_)
    rintro _ ⟨⟩
    exact hcalled
  exact .bind closed_true hget fun ts S₁ _ hcalled =>
    .pure closed_true ⟨ts, hcalled, rfl⟩

/-- A check that answers leaves the session active, with the answer remembered. -/
theorem checkSat_active [GrowingSolver σ μ] (hS : S.Sound) (assumptions : List SExpr) :
    Leads (Quiet none) (checkSat assumptions) S
      fun S' status => S'.status = .active ∧ S'.lastStatus = some status := by
  rcases (requireActive_leads closed_eq S).same with ⟨e, he⟩ | ⟨_, _, _, hactive⟩
  · exact .of_run (run_bind_error he) (closed_quiet.refl S) nofun
  · exact (checkSat_quiet hS assumptions).keep.mono fun _ _ _ h =>
      ⟨h.1.status.trans hactive, h.2⟩

theorem text_unsat {status : CheckStatus} : status.text = "unsat" ↔ status = .unsat := by
  cases status <;> decide

/-- A check whose output is that there is no model. -/
theorem checkSat_unsat [GrowingSolver σ μ] (hS : S.Sound) {assumptions : List SExpr}
    (hrun : (perform (.checkSat assumptions)).run S = (.ok (some "unsat"), S')) :
    S'.status = .active ∧ S'.lastStatus = some .unsat := by
  have hcheck : Leads (Quiet none) (perform (.checkSat assumptions)) S fun S' output =>
      output = some "unsat" → S'.status = .active ∧ S'.lastStatus = some .unsat := by
    refine .bind closed_quiet (checkSat_active hS assumptions) fun status S₁ _ h => ?_
    refine .pure closed_quiet fun houtput => ?_
    obtain rfl := text_unsat.mp (Option.some.inj houtput)
    exact h
  exact (hcheck _ _ hrun).2 _ rfl rfl

variable [TracingSolver σ μ]

theorem Reachable.isCore (h : S.Reachable) (hcore : Called Solver.core S (.ok ts) S') :
    S.IsCore ts := by
  refine isCore_of_sent h.sound fun t ht => ?_
  cases hcore with
  | intro hcontext hsolver hrun =>
    exact h.scoped.sent h.sound hcontext hsolver (TracingSolver.selected hrun t ht)

/-- Once a check has found that there is no model, whatever core the solver has is printed, and
nothing else is: lines that print assertions, and constraints of integer parts. -/
theorem core_after_check {S₀ : Session σ μ} (h : S₀.Reachable) {check command listing : SExpr}
    {assumptions : List SExpr} (hcheck : check.Requests (.checkSat assumptions))
    (hcommand : command.Requests .getUnsatCore) (hlisting : listing.Requests .getAssertions)
    (hunsat : (execute check).run S₀ = (.ok (some "unsat"), S)) :
    (∀ ts S', Called Solver.core S (.ok ts) S' →
      (execute command).run S = (.ok (termLines ts), S')) ∧
    ∀ output S', (execute command).run S = (.ok output, S') →
      (execute listing).run S' = (.ok (termLines S.assertions.items), S') ∧
      ∃ ts, output = termLines ts ∧ S.IsCore ts := by
  obtain ⟨hactive, hlast⟩ := checkSat_unsat h.sound (run_execute_ok hcheck hunsat)
  have hopen {S : Session σ μ} (hactive : S.status = .active) : S.status ≠ .closed := by
    simp [hactive]
  refine ⟨fun ts S' hcore => ?_, fun output S' hrun => ?_⟩
  · rw [run_execute hcommand (hopen hactive)]
    exact run_getUnsatCore hactive hlast hcore
  · obtain ⟨ts, hcore, rfl⟩ :=
      (getUnsatCore_called S _ _ (run_execute_ok hcommand hrun)).2 _ rfl
    have hactive' : S'.status = .active := hcore.status.trans hactive
    refine ⟨?_, ts, rfl, (h.execute hunsat).isCore hcore⟩
    rw [run_execute hlisting (hopen hactive'), run_perform_getAssertions hactive',
      hcore.assertions]

/-- So it is when what is never true has been asserted. -/
theorem core_after_check_false :
    ∃ S₀ S S' : Session Engine Engine.Model,
      after [.list [.atom "set-logic", .atom "ALL"], .list [.atom "assert", .atom "false"]]
        (start ⟨"z3", ⟨some true, none, none⟩, .empty⟩) = S₀ ∧
      (execute (.list [.atom "check-sat"])).run S₀ = (.ok (some "unsat"), S) ∧
      (execute (.list [.atom "get-unsat-core"])).run S = (.ok (some "false"), S') ∧
      (execute (.list [.atom "get-assertions"])).run S' =
        (.ok (termLines S.assertions.items), S') ∧
      ∃ ts, some "false" = termLines ts ∧ S.IsCore ts := by
  obtain ⟨S₀, hS₀⟩ : ∃ S₀ : Session Engine Engine.Model,
    after [.list [.atom "set-logic", .atom "ALL"], .list [.atom "assert", .atom "false"]]
      (start ⟨"z3", ⟨some true, none, none⟩, .empty⟩) = S₀ := ⟨_, rfl⟩
  have hunsat : ((execute (.list [.atom "check-sat"])).run S₀).1 = .ok (some "unsat") := by
    subst hS₀
    cbv
  obtain ⟨S, hS⟩ : ∃ S, ((execute (.list [.atom "check-sat"])).run S₀).2 = S := ⟨_, rfl⟩
  have hcore : ((execute (.list [.atom "get-unsat-core"])).run S).1 = .ok (some "false") := by
    subst hS hS₀
    cbv
  have hcheck : (execute (.list [.atom "check-sat"])).run S₀ = (.ok (some "unsat"), S) :=
    Prod.ext hunsat hS
  have hcommand : (SExpr.list [.atom "get-unsat-core"]).Requests .getUnsatCore := .intro rfl rfl
  have hlisting : (SExpr.list [.atom "get-assertions"]).Requests .getAssertions := .intro rfl rfl
  have hprinted := core_after_check ⟨_, _, hS₀⟩ (.intro rfl rfl) hcommand hlisting hcheck
  exact ⟨S₀, S, _, hS₀, hcheck, Prod.ext hcore rfl, hprinted.2 _ _ (Prod.ext hcore rfl)⟩

end Session

end SmtScript
