import SmtScript.Proofs.Command
import SmtScript.Proofs.Session.Queries

/-!
Runs of a session.

A run executes commands one after the other and goes on after those that fail. `Turns` says what
each command can do. Every command leads along moves, so that what all moves preserve holds of
every session that a run leads to, `Reachable.induction`.
-/

namespace SmtScript

namespace Session

open Solver Step

variable {σ μ : Type} [Solver σ μ] {S S' : Session σ μ}

/-- The session that commands lead to. The failing ones among them are skipped over, but what they
did until they failed stays. -/
def after (commands : List SExpr) (S : Session σ μ) : Session σ μ :=
  commands.foldl (fun S command => ((execute command).run S).2) S

@[simp] theorem after_nil (S : Session σ μ) : after [] S = S := rfl

theorem after_append (before later : List SExpr) (S : Session σ μ) :
    after (before ++ later) S = after later (after before S) := by
  simp [after]

theorem after_concat (commands : List SExpr) (command : SExpr) (S : Session σ μ) :
    after (commands ++ [command]) S = ((execute command).run (after commands S)).2 := by
  simp [after]

/-- What a command that succeeds does to the defined integer parts and to the model. -/
def Settled (S S' : Session σ μ) : Prop :=
  S'.definedParts = S.definedParts ∨ S'.model = none

/-- What a command can do to a session, whether it fails or not. -/
def Turns (command : Command) : Session σ μ → Session σ μ → Prop :=
  match command with
  | .assertTerm _ => Flat
  | .push _ | .pop _ => Shifts
  | .setLogic _ => fun S S' => Stacks S S' ∧ (S.status = .active → S' = S)
  | .resetAssertions | .reset | .exit => Stacks
  | _ => Quiet command.bound?

/-- A command is quiet or makes no model. -/
theorem Turns.quiet_or_stacks {command : Command} (h : Turns command S S') :
    (∃ bound, Quiet bound S S') ∨ Stacks S S' := by
  cases command with
  | assertTerm sexpr => exact .inr (Flat.stacks h)
  | push levels => exact .inr (Shifts.stacks h)
  | pop levels => exact .inr (Shifts.stacks h)
  | setLogic logic => exact .inr h.1
  | resetAssertions => exact .inr h
  | reset => exact .inr h
  | exit => exact .inr h
  | _ => exact .inl ⟨_, h⟩

theorem Turns.moves {command : Command} (h : Turns command S S') : Moves S S' := by
  rcases h.quiet_or_stacks with ⟨_, hquiet⟩ | hstacks
  · exact hquiet.moves
  · exact hstacks.moves

/-- What an S-expression does to a session when it is executed: nothing, if it is not a command. -/
def Executes (sexpr : SExpr) (S S' : Session σ μ) : Prop :=
  S' = S ∨ ∃ command, sexpr.Requests command ∧ Turns command S S'

theorem Executes.moves {sexpr : SExpr} (h : Executes sexpr S S') : Moves S S' := by
  rcases h with rfl | ⟨command, _, hturns⟩
  · exact .refl
  · exact hturns.moves

omit [Solver σ μ] in
/-- An operation that is followed by a result. -/
theorem leads_result {α : Type} {R : Session σ μ → Session σ μ → Prop} {x : SessionStep σ μ α}
    {f : α → Option String} {P : Session σ μ → Prop} (h : Leads R x S fun S' _ => P S') :
    Leads R (do return f (← x)) S fun S' _ => P S' :=
  h.bind_into (fun _ => id) fun _ _ hR hP => .of_run (run_pure _ _) hR fun _ _ => hP

theorem turn_quiet {α : Type} {bound : Option String} {x : SessionStep σ μ α}
    {f : α → Option String} (h : Leads (Quiet bound) x S fun _ _ => True) :
    Leads (Quiet bound) (do return f (← x)) S fun S' _ => Settled S S' :=
  leads_result (h.keep.mono fun _ _ _ h => .inl h.1.definedParts)

theorem turn_still {α : Type} {x : SessionStep σ μ α} {f : α → Option String}
    (h : Leads Still x S fun _ _ => True) :
    Leads (Quiet none) (do return f (← x)) S fun S' _ => Settled S S' :=
  turn_quiet (h.weaken fun _ h => h.quiet)

omit [Solver σ μ] in
theorem turn_dropped {α : Type} {R : Session σ μ → Session σ μ → Prop} {x : SessionStep σ μ α}
    {f : α → Option String} (h : Leads R x S fun S' _ => S'.model = none) :
    Leads R (do return f (← x)) S fun S' _ => Settled S S' :=
  leads_result (h.mono fun _ _ _ hmodel => .inr hmodel)

/-! ### Commands that add nothing -/

/-- Whether names stand for what they stood for, no sort has gone and nothing has been asserted. -/
structure Sheds (S S' : Session σ μ) : Prop where
  names : ∀ name, S'.names.get? name = S.names.get? name
  sorts : S.sorts.declared ⊆ S'.sorts.declared
  assertions : S'.assertions.items ⊆ S.assertions.items

omit [Solver σ μ] in
theorem sheds_of_eq (hnames : S'.names = S.names) (hsorts : S'.sorts = S.sorts)
    (hassertions : S'.assertions.items ⊆ S.assertions.items) : Sheds S S' :=
  ⟨fun _ => by rw [hnames], hsorts ▸ List.Subset.refl _, hassertions⟩

omit [Solver σ μ] in
theorem Sheds.refl (S : Session σ μ) : Sheds S S :=
  sheds_of_eq rfl rfl (List.Subset.refl _)

theorem Quiet.sheds (h : Quiet none S S') : Sheds S S' := by
  induction h with
  | refl => exact .refl S
  | tail _ hmove ih =>
    refine ⟨fun name => ?_, fun name hname => ?_, ?_⟩
    · rw [hmove.names name nofun, ih.names name]
    · exact hmove.sorts.subset (ih.sorts hname)
    · rw [hmove.assertions]
      exact ih.assertions

omit [Solver σ μ] in
/-- A call of the solver in a session without a model. -/
theorem Called.sheds {α : Type} {call : SolverCall σ α} {r : Except Fault α}
    (h : Called call S.dropped r S') : Sheds S S' :=
  sheds_of_eq (by simp [h.names]) (by simp [h.sorts]) (by simp [h.assertions])

theorem setLogic_sheds (logic : String) (S : Session σ μ) :
    Leads Sheds (setLogic logic) S fun _ _ => True := by
  refine .bind_same (.refl S) (requireOpen_leads closed_eq S) fun _ _ => ?_
  refine .get ?_
  by_cases hactive : S.status = .active
  · simp only [hactive, if_true]
    exact .bind_same (Q := fun _ _ => False) (.refl S) (.throw closed_eq _) fun _ h => h.elim
  · simp only [hactive, if_false]
    split
    · exact .of_run (run_throw _ S) (.refl S) nofun
    · refine .of_run (run_set _ _) ?_ fun _ _ => trivial
      exact sheds_of_eq rfl rfl (List.Subset.refl _)

theorem push_sheds (levels : Nat) (S : Session σ μ) :
    Leads Sheds (push levels) S fun _ _ => True := by
  refine .bind_same (.refl S) (requireActive_leads closed_eq S) fun _ _ => ?_
  have hdropped : Sheds S S.dropped := sheds_of_eq (by simp) (by simp) (by simp)
  refine .bind_of_run (P := Sheds S) (run_dropModel S) ?_
  refine leads_call_change hdropped (fun e S₁ hcalled => hcalled.sheds) fun S₁ hcalled => ?_
  have h := hcalled.sheds
  exact .modify ⟨h.names, h.sorts, by simpa using h.assertions⟩ trivial

theorem pop_sheds (levels : Nat) (S : Session σ μ) :
    Leads Sheds (pop levels) S fun _ _ => True := by
  refine .bind_same (.refl S) (requireActive_leads closed_eq S) fun _ _ => ?_
  have hdropped : Sheds S S.dropped := sheds_of_eq (by simp) (by simp) (by simp)
  refine .get ?_
  dsimp only
  by_cases hdepth : S.assertions.depth ≤ levels
  · simp only [hdepth, if_true]
    exact .of_run rfl (.refl S) nofun
  · simp only [hdepth, if_false]
    refine .bind_of_run (P := Sheds S) (run_dropModel S) ?_
    refine .guarded hdropped (run_pop_cases levels S.dropped) fun _ => ?_
    refine leads_call_change hdropped (fun e S₁ hcalled => hcalled.sheds) fun S₁ hcalled => ?_
    have h := hcalled.sheds
    refine .modify ⟨h.names, h.sorts, fun t ht => ?_⟩ trivial
    exact h.assertions ((Levels.items_popMany_sublist _ _).subset ht)

theorem resetAssertions_sheds (S : Session σ μ) :
    Leads Sheds resetAssertions S fun _ _ => True := by
  refine .bind_same (.refl S) (requireActive_leads closed_eq S) fun _ _ => ?_
  have hdropped : Sheds S S.dropped := sheds_of_eq (by simp) (by simp) (by simp)
  refine .bind_of_run (P := Sheds S) (run_dropModel S) ?_
  refine leads_call_change hdropped (fun e S₁ hcalled => hcalled.sheds) fun S₁ hcalled => ?_
  have h := hcalled.sheds
  exact .modify ⟨h.names, h.sorts, by simp⟩ trivial

omit [Solver σ μ] in
theorem exit_sheds (S : Session σ μ) : Leads Sheds exit S fun _ _ => True := by
  refine .bind_same (.refl S) (requireOpen_leads closed_eq S) fun _ _ => ?_
  refine .bind_of_run (P := Sheds S) (run_release S) ?_
  exact .modify (sheds_of_eq (by simp) (by simp) (by simp)) trivial

/-! ### What commands do -/

variable [GrowingSolver σ μ]

theorem perform_turns (hS : S.Sound) (command : Command) :
    Leads (Turns command) (perform command) S fun S' _ => Settled S S' := by
  have hpure (a : Option String) :
      Leads (Quiet none) (pure a : SessionStep σ μ _) S fun S' _ => Settled S S' :=
    .of_run (run_pure a S) .refl fun _ _ => .inl rfl
  have hactive := requireActive_leads closed_eq S
  cases command with
  | setLogic logic =>
    exact leads_result ((setLogic_stacks logic S).mono fun _ _ _ h => .inl h)
  | setOption keyword value => exact turn_still (setOption_still keyword value S)
  | setInfo keyword value => exact turn_still (setInfo_still keyword value S)
  | ignoreInfo => exact hpure _
  | getInfo keyword => exact turn_still (getInfo_still keyword S)
  | getOption keyword => exact turn_still (getOption_still keyword S)
  | echo text => exact hpure _
  | push levels => exact turn_dropped (push_shifts levels S)
  | pop levels => exact turn_dropped (pop_shifts levels S)
  | resetAssertions => exact turn_dropped (resetAssertions_stacks S)
  | reset => exact turn_dropped (reset_stacks S)
  | exit => exact turn_dropped (exit_stacks S)
  | declareSort name arity => exact turn_still (declareSort_still name arity S)
  | declareFun name domains codomain => exact turn_quiet (declareFun_quiet name domains codomain S)
  | defineFun name parameters codomain body =>
    exact turn_quiet (defineFun_quiet hS name parameters codomain body)
  | assertTerm sexpr => exact turn_dropped (assertTerm_flat hS sexpr)
  | checkSat assumptions =>
    exact turn_quiet ((checkSat_quiet hS assumptions).mono fun _ _ _ _ => trivial)
  | getAssertions =>
    exact .bind_same .refl hactive fun _ _ => .get (hpure _)
  | getValue sexprs => exact turn_quiet (getValue_quiet hS sexprs)
  | getModel =>
    exact .bind_same .refl hactive fun _ _ => turn_still (getModel_still S)
  | getUnsatCore => exact turn_still (getUnsatCore_still S)
  | unsupported head sexpr isQuery =>
    have hthrow : Leads (Quiet none)
        (throw (.unsupportedCommand head sexpr) : SessionStep σ μ (Option String)) S
        fun S' _ => Settled S S' :=
      .of_run (run_throw _ S) .refl nofun
    cases isQuery with
    | false => exact hthrow
    | true => exact .bind_same .refl hactive fun _ _ => hthrow

/-- A command that adds nothing sheds, whether it fails or not. -/
theorem perform_sheds (hS : S.Sound) {command : Command} (hadds : command.adds = false) :
    Sheds S ((perform command).run S).2 := by
  have hturns := (perform_turns hS command _ _ rfl).1
  have hleads {α : Type} {x : SessionStep σ μ α} {f : α → Option String}
      (h : Leads Sheds x S fun _ _ => True) :
      Sheds S ((do return f (← x) : SessionStep σ μ (Option String)).run S).2 :=
    (leads_result (P := fun _ => True) h _ _ rfl).1
  cases command with
  | setLogic logic => exact hleads (setLogic_sheds logic S)
  | push levels => exact hleads (push_sheds levels S)
  | pop levels => exact hleads (pop_sheds levels S)
  | resetAssertions => exact hleads (resetAssertions_sheds S)
  | exit => exact hleads (exit_sheds S)
  | declareFun name domains codomain => cases hadds
  | defineFun name parameters codomain body => cases hadds
  | assertTerm sexpr => cases hadds
  | reset => cases hadds
  | _ => exact Quiet.sheds hturns

/-- Every command does what it can do, whether it fails or not. -/
theorem execute_turns (hS : S.Sound) (sexpr : SExpr) :
    Leads (Executes sexpr) (execute sexpr) S fun S' _ => Settled S S' := by
  have hrefl : Executes sexpr S S := .inl rfl
  unfold execute
  split
  · dsimp only
    split
    · exact .of_run (run_throw _ S) hrefl nofun
    · rename_i head args _ name hname
      refine .bind_same hrefl (requireOpen_leads closed_eq S) fun _ _ => ?_
      refine .bind_same hrefl (ofExcept_leads _ S) fun command hread => ?_
      exact (perform_turns hS command).weaken fun _ h => .inr ⟨command, .intro hname hread, h⟩
  · exact .of_run (run_throw _ S) hrefl nofun

theorem moves_execute (hS : S.Sound) (command : SExpr) :
    Moves S ((execute command).run S).2 :=
  (execute_turns hS command _ _ rfl).1.moves

theorem moves_after (hS : S.Sound) (commands : List SExpr) : Moves S (after commands S) := by
  induction commands generalizing S with
  | nil => exact .refl
  | cons command rest ih =>
    have hfirst := moves_execute hS command
    exact hfirst.trans (ih (hfirst.sound hS))

theorem sound_after (hS : S.Sound) (commands : List SExpr) : (after commands S).Sound :=
  (moves_after hS commands).sound hS

/-- Whether a session is one that a run from the start leads to. -/
def Reachable (S : Session σ μ) : Prop :=
  ∃ configuration commands, after commands (start configuration) = S

theorem Reachable.sound (h : S.Reachable) : S.Sound := by
  obtain ⟨configuration, commands, rfl⟩ := h
  exact sound_after (sound_start configuration) commands

/-- What every move of a sound session preserves holds after every run. -/
theorem Reachable.induction {P : Session σ μ → Prop} (h : S.Reachable)
    (hstart : ∀ configuration, P (start configuration))
    (hmove : ∀ S S', S.Sound → Move S S' → P S → P S') : P S := by
  have hmoves {S S' : Session σ μ} (h : Moves S S') (hS : S.Sound) (hP : P S) : P S' := by
    induction h with
    | refl => exact hP
    | tail hearlier hlast ih => exact hmove _ _ (Moves.sound hearlier hS) hlast ih
  obtain ⟨configuration, commands, rfl⟩ := h
  have hsound := sound_start (σ := σ) (μ := μ) configuration
  exact hmoves (moves_after hsound commands) hsound (hstart configuration)

end Session

end SmtScript
