import Mathlib.Data.List.Induction
import SmtScript.Proofs.Session.KeptModel
import SmtScript.Proofs.Session.Lifecycle
import SmtScript.Solver.Scripted

/-!
What a session holds on to.

A session takes a lease for every context and for every model that it makes, and gives it back when
it lets go of them. What the moves of a session do to its leases is the work of a small machine,
`Holdings.Change`. Its accounts are balanced at the start and stay so: the context and the model that
the session has are the only ones that are out. A model that is kept has been made by the solver of
the context that the session still has.
-/

namespace SmtScript

/-- The resource of a kind that is held, if any, with the account of all that were taken. -/
structure Holding where
  held : Option Nat
  account : Leases

namespace Holding

variable {R : Holding} {number : Nat}

def take (R : Holding) : Holding := ⟨some R.account.take.1, R.account.take.2⟩

def letGo (R : Holding) : Holding :=
  match R.held with
  | none => R
  | some number => ⟨none, R.account.giveBack number⟩

@[simp] theorem letGo_held (R : Holding) : R.letGo.held = none := by
  unfold letGo
  split
  · assumption
  · rfl

@[simp] theorem letGo_next (R : Holding) : R.letGo.account.next = R.account.next := by
  unfold letGo
  split <;> rfl

/-- Whether the resource that is held is the only one that is out, and has been taken. -/
structure Balanced (R : Holding) : Prop where
  live : R.account.live = R.held.toList
  taken : ∀ number ∈ R.held, number < R.account.next

theorem balanced_empty : Balanced ⟨none, .empty⟩ := ⟨rfl, nofun⟩

theorem Balanced.take (hR : R.Balanced) (hheld : R.held = none) : R.take.Balanced := by
  refine ⟨?_, fun number hnumber => ?_⟩
  · change R.account.next :: R.account.live = [R.account.next]
    rw [hR.live, hheld]
    rfl
  · obtain rfl : R.account.next = number := Option.some.inj hnumber
    exact Nat.lt_succ_self _

theorem Balanced.letGo (hR : R.Balanced) : R.letGo.Balanced := by
  refine ⟨?_, fun number hnumber => ?_⟩
  · unfold Holding.letGo
    split
    · exact hR.live
    · rename_i number hheld
      change R.account.live.filter (· != number) = []
      rw [hR.live, hheld]
      simp
  · simp at hnumber

theorem Balanced.lt_next (hR : R.Balanced) (h : number ∈ R.account.live) :
    number < R.account.next := by
  rw [hR.live, Option.mem_toList] at h
  exact hR.taken number h

/-- Whether a resource has been taken and is not held any more. -/
def Gone (number : Nat) (R : Holding) : Prop := number < R.account.next ∧ R.held ≠ some number

theorem Gone.take (h : Gone number R) : Gone number R.take := by
  refine ⟨Nat.lt_succ_of_lt h.1, fun hheld => ?_⟩
  have hnew : R.account.next = number := Option.some.inj hheld
  exact absurd h.1 (by omega)

theorem Gone.letGo (h : Gone number R) : Gone number R.letGo := by
  simp [Gone, h.1]

theorem Balanced.gone_iff (hR : R.Balanced) :
    Gone number R ↔ number < R.account.next ∧ number ∉ R.account.live := by
  rw [Gone, hR.live, Option.mem_toList]

end Holding

/-- What a session holds. -/
structure Holdings where
  status : SessionStatus
  context : Holding
  model : Holding

namespace Holdings

variable {H H' : Holdings} {number : Nat}

/-- What a move can do to what a session holds. -/
inductive Change : Holdings → Holdings → Prop where
  | same (H : Holdings) : Change H H
  | activate {H : Holdings} (hidle : H.status = .uninitialized) :
      Change H { H with status := .active, context := H.context.take }
  | keep {H : Holdings} (hmodel : H.model.held = none) (hcontext : H.context.held ≠ none) :
      Change H { H with model := H.model.take }
  | drop (H : Holdings) : Change H { H with model := H.model.letGo }
  | release {H : Holdings} {status : SessionStatus} (hidle : status ≠ .active) :
      Change H ⟨status, H.context.letGo, H.model.letGo⟩

/-- Whether a session holds what is out, and a context only while it is active, and a model only
next to a context. -/
structure Balanced (H : Holdings) : Prop where
  context : H.context.Balanced
  model : H.model.Balanced
  active : H.context.held ≠ none → H.status = .active
  made : H.model.held ≠ none → H.context.held ≠ none

theorem Balanced.idle (hH : H.Balanced) (h : H.status ≠ .active) :
    H.context.held = none ∧ H.model.held = none := by
  have hcontext : H.context.held = none := not_not.mp fun hheld => h (hH.active hheld)
  exact ⟨hcontext, not_not.mp fun hheld => hH.made hheld hcontext⟩

theorem Change.balanced (h : Change H H') (hH : H.Balanced) : H'.Balanced := by
  cases h with
  | same => exact hH
  | activate hidle =>
    have hnone := (hH.idle (by simp [hidle])).1
    exact ⟨hH.context.take hnone, hH.model, fun _ => rfl, fun _ => nofun⟩
  | keep hmodel hcontext =>
    exact ⟨hH.context, hH.model.take hmodel, hH.active, fun _ => hcontext⟩
  | drop => exact ⟨hH.context, hH.model.letGo, hH.active, fun h => absurd (Holding.letGo_held _) h⟩
  | release hidle =>
    exact ⟨hH.context.letGo, hH.model.letGo, fun h => absurd (Holding.letGo_held _) h,
      fun h => absurd (Holding.letGo_held _) h⟩

/-- What a session has let go of does not come back. -/
theorem Change.gone (h : Change H H') :
    (H.context.Gone number → H'.context.Gone number) ∧
      (H.model.Gone number → H'.model.Gone number) := by
  cases h with
  | same => exact ⟨id, id⟩
  | activate hidle => exact ⟨.take, id⟩
  | keep hmodel hcontext => exact ⟨id, .take⟩
  | drop => exact ⟨id, .letGo⟩
  | release hidle => exact ⟨.letGo, .letGo⟩

/-- A session with a model neither gets a context nor lets go of it. -/
theorem Change.context_eq (h : Change H H') (hH : H.Balanced) (hmodel : H.model.held ≠ none)
    (hmodel' : H'.model.held ≠ none) : H'.context = H.context := by
  cases h with
  | same => rfl
  | activate hidle => exact absurd (hH.idle (by simp [hidle])).2 hmodel
  | keep hnone hcontext => rfl
  | drop => rfl
  | release hidle => exact absurd (Holding.letGo_held _) hmodel'

end Holdings

namespace Session

open Solver Step

variable {σ μ α : Type} {S S' : Session σ μ} {context model : Nat}

/-! ### What moves do to the holdings -/

def holdings (S : Session σ μ) : Holdings where
  status := S.status
  context := ⟨S.context.map Prod.fst, S.contexts⟩
  model := ⟨S.model.map Prod.fst, S.models⟩

/-- Whether the context with a lease is held. -/
def Holds (S : Session σ μ) (lease : Nat) : Prop := S.context.map Prod.fst = some lease

theorem holdings_dropped (S : Session σ μ) :
    S.dropped.holdings = { S.holdings with model := S.holdings.model.letGo } := by
  cases S with
  | mk initial configuration status logic sorts names terms info assertions definedParts context
    model contexts models => cases model <;> rfl

theorem holdings_released (S : Session σ μ) :
    S.released.holdings = ⟨S.status, S.holdings.context.letGo, S.holdings.model.letGo⟩ := by
  cases S with
  | mk initial configuration status logic sorts names terms info assertions definedParts context
    model contexts models => cases context <;> cases model <;> rfl

theorem holdings_mapContext (f : Context σ → Context σ) (S : Session σ μ) :
    (S.mapContext f).holdings = S.holdings := by
  cases h : S.context <;> simp [holdings, mapContext, h]

theorem Called.holdings {call : SolverCall σ α} {r : Except Fault α} (h : Called call S r S') :
    S'.holdings = S.holdings := by
  cases h with
  | intro hcontext _ _ => simp [Session.holdings, hcontext]

theorem Called.holdings_noted {call : SolverCall σ α} {r : Except Fault α} {T : Session σ μ}
    (h : Called call S r S') (f : Context σ → Context σ)
    (hT : T.holdings = (S'.mapContext f).holdings) : T.holdings = S.holdings :=
  hT.trans ((holdings_mapContext f S').trans h.holdings)

theorem balanced_start (configuration : Configuration) :
    (start configuration : Session σ μ).holdings.Balanced :=
  ⟨Holding.balanced_empty, Holding.balanced_empty, fun h => absurd rfl h, fun h => absurd rfl h⟩

variable [Solver σ μ]

theorem Move.change (h : Move S S') : Holdings.Change S.holdings S'.holdings := by
  have hsame {T : Session σ μ} (h : T.holdings = S.holdings) :
      Holdings.Change S.holdings T.holdings := h ▸ .same _
  have hdrop {T : Session σ μ} (h : T.holdings = S.holdings) :
      Holdings.Change S.holdings T.dropped.holdings := by
    rw [holdings_dropped, h]
    exact .drop _
  have hrelease {T : Session σ μ} (status : SessionStatus) (hidle : status ≠ .active)
      (hT : T.holdings = { S.released.holdings with status }) :
      Holdings.Change S.holdings T.holdings := by
    rw [hT, holdings_released]
    exact .release hidle
  cases h with
  | note configuration sorts info => exact .same _
  | translate hterms => exact .same _
  | bind name hbinding => exact .same _
  | activate logic hidle => exact .activate hidle
  | drop => exact hdrop rfl
  | refuse _ hcalled => exact hsame hcalled.holdings
  | define _ _ hcalled => exact hsame (hcalled.holdings_noted ({ · with last := none }) rfl)
  | assert _ _ hcalled => exact hdrop (hcalled.holdings_noted ({ · with last := none }) rfl)
  | push _ hcalled =>
    exact hsame (hcalled.holdings_noted
      (fun c => { c with depth := c.depth + _, last := none }) rfl)
  | pop _ _ hcalled =>
    exact hsame (hcalled.holdings_noted
      (fun c => { c with depth := c.depth - _, last := none }) rfl)
  | clear _ hcalled =>
    exact hsame (hcalled.holdings_noted ({ · with depth := 1, last := none }) rfl)
  | check _ _ hcalled =>
    exact hsame (hcalled.holdings_noted ({ · with last := some _ }) rfl)
  | keep hmodel _ hcalled =>
    have hcontext : S.holdings.context.held ≠ none := by
      cases hcalled with
      | intro hcontext _ _ => simp [holdings, hcontext]
    have hnone : S.holdings.model.held = none := by simp [holdings, hmodel]
    have htake := Holdings.Change.keep hnone hcontext
    rw [← hcalled.holdings] at htake
    exact hcalled.holdings ▸ htake
  | core _ hcalled => exact hsame hcalled.holdings
  | ask _ hmodel _ => exact hsame (by simp [holdings, hmodel])
  | restart _ => exact hrelease .uninitialized (by decide) (by simp [holdings, start])
  | exit _ => exact hrelease .closed (by decide) rfl

theorem Moves.balanced (h : Moves S S') (hS : S.holdings.Balanced) : S'.holdings.Balanced := by
  induction h with
  | refl => exact hS
  | tail _ hmove ih => exact hmove.change.balanced ih

theorem Moves.gone {number : Nat} (h : Moves S S') :
    (S.holdings.context.Gone number → S'.holdings.context.Gone number) ∧
      (S.holdings.model.Gone number → S'.holdings.model.Gone number) := by
  induction h with
  | refl => exact ⟨id, id⟩
  | tail _ hmove ih => exact ⟨hmove.change.gone.1 ∘ ih.1, hmove.change.gone.2 ∘ ih.2⟩

/-! ### Where the kept model is from -/

/-- Whether a model is made, on the way from a session to another, by the solver of a context. -/
def Produces (context model : Nat) (S S' : Session σ μ) : Prop :=
  ∃ T T', Moves S T ∧ T.Holds context ∧ MakesModel model T T' ∧ Moves T' S'

theorem MakesModel.holds (h : MakesModel model S S') :
    ∃ context, S.Holds context ∧ S'.Holds context := by
  cases h with
  | intro _ _ _ hcalled =>
    cases hcalled with
    | @intro lease _ _ _ _ _ hcontext _ _ => exact ⟨lease, by simp [Holds, hcontext], rfl⟩

/-- While a model is kept, so is the context. -/
theorem Move.holds (h : Move S S') (hS : S.holdings.Balanced) (hk : S.Keeps model)
    (hk' : S'.Keeps model) (hcontext : S.Holds context) : S'.Holds context := by
  have hheld {T : Session σ μ} (h : T.Keeps model) : T.holdings.model.held ≠ none :=
    fun hnone => nomatch h.symm.trans hnone
  have hsame := h.change.context_eq hS (hheld hk) (hheld hk')
  exact (congrArg Holding.held hsame).trans hcontext

/-- The model that is kept in the end has been kept from the start, with the same context, or it is
produced by the context that is held in the end. -/
theorem Moves.origin (h : Moves S S') (hS : S.holdings.Balanced) (hk : S'.Keeps model) :
    (S.Keeps model ∧ ∀ context, S.Holds context → S'.Holds context) ∨
      ∃ context, S'.Holds context ∧ Produces context model S S' := by
  induction h with
  | refl => exact .inl ⟨hk, fun _ => id⟩
  | @tail X S' hearlier hmove ih =>
    rcases hmove.keeps hk with hkX | hmakes
    · have hX : X.holdings.Balanced := Moves.balanced hearlier hS
      rcases ih hkX with ⟨hkS, hcontext⟩ | ⟨context, hcontext, T, T', hbefore, hT, hmakes, hlater⟩
      · exact .inl ⟨hkS, fun context h => hmove.holds hX hkX hk (hcontext context h)⟩
      · exact .inr ⟨context, hmove.holds hX hkX hk hcontext, T, T', hbefore, hT, hmakes,
          hlater.tail hmove⟩
    · obtain ⟨context, hX, hS'⟩ := hmakes.holds
      exact .inr ⟨context, hS', X, S', hearlier, hX, hmakes, .refl⟩

variable [GrowingSolver σ μ] {command : SExpr} {configuration : Configuration}

/-- A model that is kept after a run is produced during one of its commands. -/
theorem produced_after {commands : List SExpr}
    (hk : (after commands (start configuration : Session σ μ)).Keeps model) :
    ∃ context, (after commands (start configuration : Session σ μ)).Holds context ∧
      ∃ before command later, commands = before ++ command :: later ∧
        Produces context model (after before (start configuration : Session σ μ))
          (after (before ++ [command]) (start configuration)) := by
  have hstart := sound_start (σ := σ) (μ := μ) configuration
  induction commands using List.reverseRecOn with
  | nil => exact absurd hk (not_keeps rfl)
  | append_singleton commands command ih =>
    have hbalanced := (moves_after hstart commands).balanced (balanced_start configuration)
    have hmoves := moves_execute (sound_after hstart commands) command
    rw [← after_concat] at hmoves
    rcases hmoves.origin hbalanced hk with ⟨hkept, hcontext⟩ | ⟨context, hcontext, hproduces⟩
    · obtain ⟨context, hheld, before, producing, later, rfl, hproduces⟩ := ih hkept
      exact ⟨context, hcontext context hheld, before, producing, later ++ [command], by simp,
        hproduces⟩
    · exact ⟨context, hcontext, commands, command, [], rfl, hproduces⟩

/-! ### What is out -/

omit [Solver σ μ] [GrowingSolver σ μ] in
theorem nothing_live (hS : S.holdings.Balanced) (hidle : S.status ≠ .active) :
    S.contexts.live = [] ∧ S.models.live = [] := by
  obtain ⟨hcontext, hmodel⟩ := hS.idle hidle
  exact ⟨hS.context.live.trans (congrArg Option.toList hcontext),
    hS.model.live.trans (congrArg Option.toList hmodel)⟩

omit [GrowingSolver σ μ] in
theorem not_active_of_end (hrequest : command.Requests .exit ∨ command.Requests .reset)
    (S : Session σ μ) : ((execute command).run S).2.status ≠ .active := by
  by_cases hclosed : S.status = .closed
  · obtain ⟨e, hrun, _⟩ := execute_closed hclosed command
    rw [hrun, hclosed]
    nofun
  · rcases hrequest with hexit | hreset
    · rw [run_execute hexit hclosed,
        show (perform .exit).run S = _ from run_bind_ok (run_exit_open hclosed)]
      nofun
    · rw [run_execute hreset hclosed,
        show (perform .reset).run S = _ from run_bind_ok (run_reset_open hclosed)]
      nofun

/-- After every run, the context and the model that the session has are the only ones that are out
of all that were ever made, and what was given back stays so. A model is kept only in an active session, and has been produced
during one of the commands by the context that is still held. A session that is not active, as after
an exit or a reset, has nothing out. -/
theorem holdings_after (commands : List SExpr) (h : after commands (start configuration) = S) :
    S.contexts.live = (S.context.map Prod.fst).toList ∧
    S.models.live = (S.model.map Prod.fst).toList ∧
    (∀ number ∈ S.contexts.live, number < S.contexts.next) ∧
    (∀ number ∈ S.models.live, number < S.models.next) ∧
    (∀ later number,
      (number < S.contexts.next → number ∉ S.contexts.live →
        number ∉ (after later S).contexts.live) ∧
      (number < S.models.next → number ∉ S.models.live →
        number ∉ (after later S).models.live)) ∧
    (∀ model, S.Keeps model → S.status = .active ∧ ∃ context, S.Holds context ∧
      ∃ before command later, commands = before ++ command :: later ∧
        Produces context model (after before (start configuration : Session σ μ))
          (after (before ++ [command]) (start configuration))) ∧
    (S.status ≠ .active → S.contexts.live = [] ∧ S.models.live = []) ∧
    ∀ command, command.Requests .exit ∨ command.Requests .reset →
      ((execute command).run S).2.contexts.live = [] ∧
        ((execute command).run S).2.models.live = [] := by
  have hstart := sound_start (σ := σ) (μ := μ) configuration
  subst h
  have hmoves := moves_after hstart commands
  have hsound := hmoves.sound hstart
  have hbalanced := hmoves.balanced (balanced_start configuration)
  refine ⟨hbalanced.context.live, hbalanced.model.live, fun _ => hbalanced.context.lt_next,
    fun _ => hbalanced.model.lt_next, fun later number => ?_, fun model hk => ?_,
    nothing_live hbalanced, fun command hrequest => ?_⟩
  · have hlater := moves_after hsound later
    have hbalanced' := hlater.balanced hbalanced
    exact ⟨fun hnext hlive => (hbalanced'.context.gone_iff.mp
        (hlater.gone.1 (hbalanced.context.gone_iff.mpr ⟨hnext, hlive⟩))).2,
      fun hnext hlive => (hbalanced'.model.gone_iff.mp
        (hlater.gone.2 (hbalanced.model.gone_iff.mpr ⟨hnext, hlive⟩))).2⟩
  · have hheld := hbalanced.made fun hnone => nomatch hk.symm.trans hnone
    exact ⟨hbalanced.active hheld, produced_after hk⟩
  · exact nothing_live ((moves_execute hsound command).balanced hbalanced)
      (not_active_of_end hrequest _)

/-- So does a run in which a session starts again, with a solver that gives prepared answers: the
second context is held, and the third model. -/
theorem holdings_after_restart :
    let query : List SExpr := [.list [.atom "check-sat"], .list [.atom "get-model"]]
    let script := .list [.atom "set-logic", .atom "QF_LIRA"] :: query ++
      .list [.atom "reset"] :: .list [.atom "set-logic", .atom "QF_LRA"] :: query ++ query
    ∃ S : Session Scripted ScriptedModel, after script (start (.ofSolver "z3")) = S ∧
      S.contexts.next = 2 ∧ S.contexts.live = [1] ∧ S.models.next = 3 ∧ S.models.live = [2] ∧
      S.status = .active ∧ ∃ context, S.Holds context ∧ ∃ before command later,
        script = before ++ command :: later ∧
          Produces context 2 (after before (start (.ofSolver "z3") : Session Scripted ScriptedModel))
            (after (before ++ [command]) (start (.ofSolver "z3"))) := by
  intro query script
  obtain ⟨hcontexts, hmodels, _, _, _, hkept, _⟩ :=
    @holdings_after Scripted ScriptedModel _ _ _ (.ofSolver "z3") script rfl
  refine ⟨_, rfl, by decide +kernel, hcontexts.trans (by decide +kernel), by decide +kernel,
    hmodels.trans (by decide +kernel), hkept 2 ?_⟩
  unfold Keeps
  decide +kernel

end Session

end SmtScript
