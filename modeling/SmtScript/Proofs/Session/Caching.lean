import Mathlib.Data.List.Induction
import SmtScript.Proofs.Session.Asking
import SmtScript.Solver.Scripted

/-!
When the kept model may be used.

A kept model is coherent if it belongs to the last check and nothing has been sent to the solver
since. It is, as long as no command is interrupted that has defined an integer part: such a command
leaves the model of a check before it. A session with a coherent model gives the same results as
without it.
-/

namespace SmtScript

namespace Session

open Solver Step

variable {σ μ α : Type} {S S' : Session σ μ} {lease : Nat} {configuration : Configuration}
  {status : CheckStatus}

variable [Solver σ μ]

/-! ### Coherent models -/

/-- Whether a check has left an answer in a session without a model, and nothing has been sent to
the solver since. -/
inductive Checked (configuration : Configuration) (status : CheckStatus) :
    Session σ μ → Prop where
  | check {S S' : Session σ μ} {assumptions : List Term} {outcome : Except Fault Bool}
      (hrun : Moves (start configuration) S) (hmodel : S.model = none)
      (hstatus : Context.statusOf assumptions outcome = .ok status)
      (h : Called (Solver.satisfiable assumptions) S outcome S') :
      Checked configuration status (S'.mapContext ({ · with last := some status }))
  | later {S S' : Session σ μ} (h : Checked configuration status S) (hmove : Move S S')
      (hlast : S'.lastStatus = S.lastStatus) (hsolver : S'.solver? = S.solver?) :
      Checked configuration status S'

/-- Whether a kept model is that of the last check, with nothing sent to the solver since. -/
def Coherent (configuration : Configuration) (S : Session σ μ) : Prop :=
  ∀ lease, S.Keeps lease → ∃ status, (status = .sat ∨ status = .unknown) ∧
    S.lastStatus = some status ∧ S.Checked configuration status

theorem Coherent.answered (h : S.Coherent configuration) (hk : S.Keeps lease) : S.Answered := by
  obtain ⟨status, rfl | rfl, hlast, _⟩ := h lease hk
  · exact .inl hlast
  · exact .inr hlast

/-- A query that gives the same with a coherent model and fails without an answer, succeeds as it
would without the model if and only if the model is coherent, or the query fails. -/
theorem succeeds_iff_coherent {x : SessionStep σ μ α}
    (hsame : S.Coherent configuration → SameWithout x S)
    (hfails : ¬ S.Coherent configuration → ¬ Succeeds x S.dropped) :
    (Succeeds x S ↔ Succeeds x S.dropped) ↔ (S.Coherent configuration ∨ ¬ Succeeds x S) := by
  by_cases hcoherent : S.Coherent configuration
  · exact iff_of_true (hsame hcoherent).succeeds_iff (.inl hcoherent)
  · have hnot := hfails hcoherent
    simp [hcoherent, hnot]

variable [SteadySolver σ μ]

/-- A move that leaves an answer sends nothing to the solver, or it is a check. -/
theorem Move.checked (h : Move S S') (hrun : Moves (start configuration) S)
    (hstatus : status ≠ .unsat) (hlast : S'.lastStatus = some status)
    (hS : S.lastStatus = some status → S.Checked configuration status) :
    S'.Checked configuration status := by
  have hlater (hsame : S'.lastStatus = S.lastStatus) (hsolver : S'.solver? = S.solver?) :
      S'.Checked configuration status := .later (hS (hsame.symm.trans hlast)) h hsame hsolver
  have hnone (h : S'.lastStatus = none) : S'.Checked configuration status := by
    rw [hlast] at h
    cases h
  cases h with
  | note configuration sorts info => exact hlater rfl rfl
  | translate hterms => exact hlater rfl rfl
  | bind name hbinding => exact hlater rfl rfl
  | activate logic => exact hnone rfl
  | drop => exact hlater (by simp [lastStatus]) (by simp [solver?])
  | refuse hoffers hcalled =>
    exact hlater hcalled.lastStatus (hcalled.solver?_eq (SteadySolver.refused hoffers))
  | define _ _ hcalled =>
    exact hnone (hcalled.lastStatus_noted ({ · with last := none }) (fun _ => rfl) rfl)
  | assert _ _ hcalled =>
    exact hnone (hcalled.lastStatus_noted ({ · with last := none }) (fun _ => rfl)
      (dropped_context _))
  | push _ hcalled =>
    exact hnone (hcalled.lastStatus_noted
      (fun c => { c with depth := c.depth + _, last := none }) (fun _ => rfl) rfl)
  | pop _ _ hcalled =>
    exact hnone (hcalled.lastStatus_noted
      (fun c => { c with depth := c.depth - _, last := none }) (fun _ => rfl) rfl)
  | clear _ hcalled =>
    exact hnone (hcalled.lastStatus_noted ({ · with depth := 1, last := none }) (fun _ => rfl) rfl)
  | @check S₁ _ _ status' hmodel houtcome hcalled =>
    have hanswer : (S₁.mapContext ({ · with last := some status' })).lastStatus = some status' :=
      hcalled.lastStatus_noted ({ · with last := some status' }) (fun _ => rfl) rfl
    obtain rfl := Option.some.inj (hanswer.symm.trans hlast)
    exact .check hrun hmodel houtcome hcalled
  | keep _ _ hcalled => exact hlater hcalled.lastStatus (hcalled.solver?_eq solver_model)
  | core hunsat hcalled =>
    rw [hcalled.lastStatus, hunsat] at hlast
    exact absurd (Option.some.inj hlast).symm hstatus
  | ask _ _ _ => exact hlater rfl rfl
  | restart _ => exact hnone rfl
  | exit _ => exact hnone (by simp [lastStatus])

theorem Moves.checked (h : Moves (start configuration) S) (hstatus : status ≠ .unsat)
    (hlast : S.lastStatus = some status) : S.Checked configuration status := by
  induction h with
  | refl => cases hlast
  | tail hearlier hmove ih => exact hmove.checked hearlier hstatus hlast ih

/-- An answer is all that a kept model needs. -/
theorem coherent_iff (h : Moves (start configuration) S) (hk : S.Keeps lease) :
    S.Coherent configuration ↔ S.Answered := by
  refine ⟨fun hcoherent => hcoherent.answered hk, fun hanswered _ _ => ?_⟩
  rcases hanswered with hsat | hunknown
  · exact ⟨.sat, .inl rfl, hsat, Moves.checked h nofun hsat⟩
  · exact ⟨.unknown, .inr rfl, hunknown, Moves.checked h nofun hunknown⟩

/-! ### Interrupted commands -/

/-- Whether a command fails after it has changed the defined integer parts. -/
def Interrupted (S : Session σ μ) (command : SExpr) : Prop :=
  (∃ e, ((execute command).run S).1 = .error e) ∧
    ((execute command).run S).2.definedParts ≠ S.definedParts

/-- Whether no command has been interrupted while the model was kept that is kept in the end. -/
def Undisturbed (S : Session σ μ) (commands : List SExpr) : Prop :=
  ∀ lease, (after commands S).Keeps lease → ∀ before command later,
    commands = before ++ command :: later → (after before S).Keeps lease →
      ¬ (after before S).Interrupted command

/-- The ways to split a list with one more element at the end. -/
theorem forall_split_concat {P : List α → α → Prop} {xs : List α} {x : α} :
    (∀ before a later, xs ++ [x] = before ++ a :: later → P before a) ↔
      P xs x ∧ ∀ before a later, xs = before ++ a :: later → P before a := by
  constructor
  · refine fun h => ⟨h xs x [] rfl, fun before a later heq => h before a (later ++ [x]) ?_⟩
    rw [heq, List.append_assoc, List.cons_append]
  · rintro ⟨hlast, hrest⟩ before a later heq
    rcases List.eq_nil_or_concat later with rfl | ⟨later', y, rfl⟩
    · obtain ⟨rfl, hx⟩ := List.append_inj' heq rfl
      obtain rfl := (List.cons.inj hx).1
      exact hlast
    · rw [List.concat_eq_append, ← List.cons_append, ← List.append_assoc] at heq
      exact hrest before a later' (List.append_inj' heq rfl).1

/-- A command that makes the model that is kept after it, leaves an answer. -/
theorem answered_of_new {command : SExpr} (hS : S.Sound) (hcached : S.Cached)
    (hnew : ¬ S.Keeps lease) (hk : ((execute command).run S).2.Keeps lease) :
    ((execute command).run S).2.Answered := by
  rcases (execute_turns hS command _ _ rfl).1 with hsame | ⟨_, _, hturns⟩
  · exact absurd (hk.of_model_eq (congrArg model hsame)) hnew
  · rcases hturns.quiet_or_stacks with ⟨_, hquiet⟩ | hstacks
    · exact (hquiet.answered hcached hk).resolve_left hnew
    · rcases hstacks.model with hnone | hsame
      · exact absurd hk (not_keeps hnone)
      · exact absurd (hk.of_model_eq hsame) hnew

/-- While a model is kept, an answer is lost by a command that is interrupted, and by no other. -/
theorem answered_execute_iff {command : SExpr} (hS : S.Sound) (hcached : S.Cached)
    (hk : S.Keeps lease) (hk' : ((execute command).run S).2.Keeps lease) :
    ((execute command).run S).2.Answered ↔ S.Answered ∧ ¬ S.Interrupted command := by
  have hkeeping := Moves.keeping (moves_execute hS command) hcached hk hk'
  have hsettled := (execute_turns hS command _ _ rfl).2
  constructor
  · intro hanswered
    rcases hkeeping with ⟨hlast, hdefined⟩ | ⟨hlast, _⟩
    · rw [Answered, hlast] at hanswered
      exact ⟨hanswered, fun h => h.2 hdefined⟩
    · rw [Answered, hlast] at hanswered
      simp at hanswered
  · rintro ⟨hanswered, hundisturbed⟩
    refine hkeeping.answered ?_ hanswered
    by_contra hdefined
    cases hresult : ((execute command).run S).1 with
    | error e => exact hundisturbed ⟨⟨e, hresult⟩, hdefined⟩
    | ok a =>
      rcases hsettled a hresult with hsame | hnone
      · exact hdefined hsame
      · exact not_keeps hnone hk'

/-- The model that is kept after a run has an answer unless a command was interrupted since. -/
theorem answered_iff (hS : S.Sound) (hcached : S.Cached) (hnone : S.model = none)
    {commands : List SExpr} (hk : (after commands S).Keeps lease) :
    (after commands S).Answered ↔ ∀ before command later,
      commands = before ++ command :: later → (after before S).Keeps lease →
        ¬ (after before S).Interrupted command := by
  induction commands using List.reverseRecOn with
  | nil => exact absurd hk (not_keeps hnone)
  | append_singleton commands command ih =>
    have hbefore := sound_after hS commands
    have hcached' := (moves_after hS commands).cached hcached
    rw [forall_split_concat (P := fun before command =>
      (after before S).Keeps lease → ¬ (after before S).Interrupted command)]
    rw [after_concat] at hk ⊢
    by_cases hkept : (after commands S).Keeps lease
    · rw [answered_execute_iff hbefore hcached' hkept hk, ih hkept, and_comm]
      exact and_congr_left fun _ => ⟨fun h _ => h, fun h => h hkept⟩
    · refine iff_of_true (answered_of_new hbefore hcached' hkept hk)
        ⟨fun h => absurd h hkept, fun before earlier later heq hkept' => absurd ?_ hkept⟩
      -- the lease of a model that was kept before is not given out again
      have hlease := ((moves_after hS before).cached hcached).lease lease hkept'
      have hlater := moves_after (sound_after hS before) (earlier :: later)
      rw [← after_append, ← heq] at hlater
      exact Moves.keeps (moves_execute hbefore command)
        (Nat.lt_of_lt_of_le hlease hlater.next_le) hk

/-- What a run makes of the kept model: it is coherent exactly if no command was interrupted while
it was kept; queries give the same results with a coherent model as without it; and they succeed
with another one where they would fail without it. -/
structure Caches (configuration : Configuration) (commands : List SExpr) (S : Session σ μ) :
    Prop where
  coherent_iff : S.Coherent configuration ↔ Undisturbed (start configuration : Session σ μ) commands
  same_getValue : S.Coherent configuration → ∀ sexprs, SameWithout (getValue sexprs) S
  same_getModel : S.Coherent configuration → SameWithout getModel S
  getValue_iff : ∀ sexprs,
    (Succeeds (getValue sexprs) S ↔ Succeeds (getValue sexprs) S.dropped) ↔
      (S.Coherent configuration ∨ ¬ Succeeds (getValue sexprs) S)
  getModel_iff : (Succeeds getModel S ↔ Succeeds getModel S.dropped) ↔
    (S.Coherent configuration ∨ ¬ Succeeds getModel S)

/-- Every run keeps a model coherent until a command is interrupted. -/
theorem caches_after (configuration : Configuration) (commands : List SExpr)
    (h : after commands (start configuration) = S) : S.Caches configuration commands := by
  have hstart := sound_start (σ := σ) (μ := μ) configuration
  have hcachedStart := cached_start (σ := σ) (μ := μ) configuration
  have hmoves : Moves (start configuration) S := h ▸ moves_after hstart commands
  have hS : S.Sound := hmoves.sound hstart
  have hcached : S.Cached := hmoves.cached hcachedStart
  have hsame (hcoherent : S.Coherent configuration) :
      (∀ sexprs, SameWithout (getValue sexprs) S) ∧ SameWithout getModel S := by
    cases hmodel : S.model with
    | none =>
      have hdropped : S.dropped = S := by simp [dropped, hmodel]
      exact ⟨fun sexprs => by rw [SameWithout, hdropped], by rw [SameWithout, hdropped]⟩
    | some p =>
      obtain ⟨lease, m⟩ := p
      have hk : S.Keeps lease := by simp [Keeps, hmodel]
      have hhas := hcached.hasModel (hcoherent.answered hk) hmodel
      exact ⟨fun sexprs => sameWithout_of_alike (getValue_alike hmodel hhas sexprs),
        sameWithout_of_alike (getModel_alike hmodel hhas)⟩
  have hunanswered (hcoherent : ¬ S.Coherent configuration) : ¬ S.dropped.Answered := by
    intro hanswered
    refine hcoherent fun lease hk => (coherent_iff hmoves hk).mpr ?_ lease hk
    simpa [Answered, lastStatus] using hanswered
  have hdropped : S.dropped.Sound := (Move.drop S).sound hS
  refine ⟨⟨fun hcoherent lease hk => ?_, fun hundisturbed lease hk => ?_⟩,
    fun hcoherent => (hsame hcoherent).1, fun hcoherent => (hsame hcoherent).2,
    fun sexprs => ?_, ?_⟩
  · subst h
    exact (answered_iff hstart hcachedStart rfl hk).mp (hcoherent.answered hk)
  · subst h
    have hanswered := (answered_iff hstart hcachedStart rfl hk).mpr (hundisturbed lease hk)
    exact (coherent_iff hmoves hk).mpr hanswered lease hk
  · exact succeeds_iff_coherent (fun hcoherent => (hsame hcoherent).1 sexprs) fun hcoherent =>
      not_succeeds (getValue_fails hdropped (dropped_model S) (hunanswered hcoherent) sexprs)
  · exact succeeds_iff_coherent (fun hcoherent => (hsame hcoherent).2) fun hcoherent =>
      not_succeeds (getModel_fails (dropped_model S) (hunanswered hcoherent))

/-- So does a run in which a model is asked for, with a solver that gives prepared answers. -/
theorem caches_after_getModel :
    ∃ S : Session Scripted ScriptedModel, after [.list [.atom "set-logic", .atom "QF_LIRA"],
        .list [.atom "check-sat"], .list [.atom "get-model"]] (start (.ofSolver "z3")) = S ∧
      S.Keeps 0 ∧ S.Caches (.ofSolver "z3") [.list [.atom "set-logic", .atom "QF_LIRA"],
        .list [.atom "check-sat"], .list [.atom "get-model"]] :=
  ⟨_, rfl, by unfold Keeps; decide +kernel, caches_after _ _ rfl⟩

end Session

end SmtScript
