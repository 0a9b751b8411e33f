import SmtScript.Engine
import SmtScript.Proofs.Session.Run
import SmtScript.Proofs.Session.Stages
import SmtScript.Proofs.Session.Tidy

/-!
The life of a session.

A session is active as long as it has an open solver, and before that it holds nothing that needs
one. Every command takes it along one of four ways, `Session.Passage`: it stays at its stage, it
becomes active, it starts again, or it is closed for good. Which commands are refused for the status
of the session follows from the status alone, `Session.execute_blames_iff`; all of this together
holds of every session that commands lead to, `Session.lifecycle`.
-/

namespace SmtScript

open Step

/-- Whether a command is refused unless a logic is set. -/
def Command.needsLogic : Command → Bool
  | .push _ | .pop _ | .assertTerm _ | .checkSat _ | .getValue _ | .getModel | .getAssertions
  | .getUnsatCore | .resetAssertions => true
  | .unsupported _ _ isQuery => isQuery
  | _ => false

/-- Whether an error is reported as one of syntax. -/
def Error.IsSyntax (e : Error) : Prop := ∃ r ∈ e.report, .malformed ∈ r.kind.lineage

namespace Session

variable {σ μ : Type} {S S' : Session σ μ}

theorem setLogic_cases [Solver σ μ] (hopen : S.status ≠ .closed) (logic : String) :
    (∃ e, e.blamesStatus = false ∧ (setLogic logic).run S = (.error e, S)) ∨
      S.status = .uninitialized ∧ ∃ lease contexts solver, (setLogic logic).run S = (.ok ⟨⟩, { S with
        context := some (lease, .ofSolver solver), contexts
        logic := some logic, status := .active }) := by
  unfold setLogic
  rw [run_bind_ok (run_requireOpen hopen), run_bind_ok (run_get S)]
  by_cases hactive : S.status = .active
  · simp only [hactive, if_true]
    exact .inl ⟨_, rfl, run_bind_error (run_throw _ S)⟩
  · simp only [hactive, if_false]
    split
    · exact .inl ⟨_, rfl, run_throw _ S⟩
    · refine .inr ⟨?_, _, _, _, run_set _ _⟩
      cases h : S.status
      · rfl
      · exact absurd h hactive
      · exact absurd h hopen

theorem run_reset_open (hopen : S.status ≠ .closed) :
    (reset : SessionStep σ μ Unit).run S = (.ok ⟨⟩, { start S.initial with
      contexts := S.released.contexts, models := S.released.models }) := by
  rw [reset, run_bind_ok (run_requireOpen hopen), run_bind_ok (run_release S), run_modify,
    released_initial]

theorem run_exit_open (hopen : S.status ≠ .closed) :
    (exit : SessionStep σ μ Unit).run S = (.ok ⟨⟩, { S.released with status := .closed }) := by
  rw [exit, run_bind_ok (run_requireOpen hopen), run_bind_ok (run_release S), run_modify]

variable [Solver σ μ] {command : SExpr} {request : Command}

/-! ### Which commands are refused -/

/-- A command that needs a logic is refused without one. -/
theorem perform_refuses (hneeds : request.needsLogic = true) (hactive : S.status ≠ .active) :
    ∃ e, e.blamesStatus = true ∧ (perform request).run S = (.error e, S) := by
  obtain ⟨e, he, hrun⟩ := requireActive_refuses hactive
  have hbegins {α β : Type} (f : Unit → SessionStep σ μ α) (g : α → SessionStep σ μ β) :
      ((requireActive >>= f) >>= g).run S = (.error e, S) :=
    run_bind_error (run_bind_error hrun)
  refine ⟨e, he, ?_⟩
  cases request with
  | push levels => exact hbegins _ _
  | pop levels => exact hbegins _ _
  | assertTerm sexpr => exact hbegins _ _
  | checkSat assumptions => exact hbegins _ _
  | getValue sexprs => exact hbegins _ _
  | getModel => exact run_bind_error hrun
  | getAssertions => exact run_bind_error hrun
  | getUnsatCore => exact hbegins _ _
  | resetAssertions => exact hbegins _ _
  | unsupported head sexpr isQuery =>
    obtain rfl : isQuery = true := hneeds
    exact run_bind_error hrun
  | _ => cases hneeds

/-- Other commands than those that set a logic, start again or close a session stay at a stage. -/
theorem perform_abides (hopen : S.status ≠ .closed)
    (hactive : request.needsLogic = true → S.status = .active)
    (hlogic : ∀ logic, request ≠ .setLogic logic) (hreset : request ≠ .reset)
    (hexit : request ≠ .exit) : Abides (perform request) S := by
  have hresult {α : Type} {x : SessionStep σ μ α} {f : α → Option String} (h : Abides x S) :
      Abides (do return f (← x)) S := h.bind fun _ _ _ _ => abides_pure _
  cases request with
  | setLogic logic => exact absurd rfl (hlogic logic)
  | setOption keyword value => exact hresult (setOption_abides hopen keyword value)
  | setInfo keyword value => exact hresult (setInfo_abides hopen keyword value)
  | ignoreInfo => exact abides_pure _
  | getInfo keyword => exact hresult (getInfo_abides hopen keyword)
  | getOption keyword => exact hresult (getOption_abides hopen keyword)
  | echo text => exact abides_pure _
  | push levels => exact hresult (push_abides (hactive rfl) levels)
  | pop levels => exact hresult (pop_abides (hactive rfl) levels)
  | resetAssertions => exact hresult (resetAssertions_abides (hactive rfl))
  | reset => exact absurd rfl hreset
  | exit => exact absurd rfl hexit
  | declareSort name arity => exact hresult (declareSort_abides hopen name arity)
  | declareFun name domains codomain => exact hresult (declareFun_abides hopen name domains codomain)
  | defineFun name parameters codomain body =>
    exact hresult (defineFun_abides hopen name parameters codomain body)
  | assertTerm sexpr => exact hresult (assertTerm_abides (hactive rfl) sexpr)
  | checkSat assumptions => exact hresult (checkSat_abides (hactive rfl) assumptions)
  | getAssertions => exact .active (hactive rfl) (.get (abides_pure _))
  | getValue sexprs => exact hresult (getValue_abides (hactive rfl) sexprs)
  | getModel => exact .active (hactive rfl) (hresult (getModel_abides (hactive rfl)))
  | getUnsatCore => exact hresult (getUnsatCore_abides (hactive rfl))
  | unsupported head sexpr isQuery =>
    cases isQuery with
    | false => exact abides_throw rfl
    | true => exact .active (hactive rfl) (abides_throw rfl)

/-- Where a session stands is no reason to refuse a command that belongs there. -/
theorem perform_unguarded (hopen : S.status ≠ .closed)
    (hactive : request.needsLogic = true → S.status = .active) :
    Unguarded (perform request) S := by
  by_cases hlogic : ∃ logic, request = .setLogic logic
  · obtain ⟨logic, rfl⟩ := hlogic
    rcases setLogic_cases hopen logic with ⟨e, he, hrun⟩ | ⟨_, _, _, _, hrun⟩
    · exact .of_error (run_bind_error hrun) he
    · exact .of_ok (run_bind_ok hrun)
  by_cases hreset : request = .reset
  · subst hreset
    exact .of_ok (run_bind_ok (run_reset_open hopen))
  by_cases hexit : request = .exit
  · subst hexit
    exact .of_ok (run_bind_ok (run_exit_open hopen))
  exact (perform_abides hopen hactive (fun logic h => hlogic ⟨logic, h⟩) hreset hexit).1

/-- A closed session refuses everything, and is not changed by it. -/
theorem execute_closed (hclosed : S.status = .closed) (command : SExpr) :
    ∃ e, (execute command).run S = (.error e, S) ∧
      ((∃ request, command.Requests request) → e.blamesStatus = true) ∧
        (e.IsProtocol ∨ e.IsSyntax) := by
  have hguard : (requireOpen : SessionStep σ μ Unit).run S = (.error .closed, S) := by
    rw [requireOpen, run_bind_ok (run_get S), if_pos hclosed, run_throw]
  unfold execute
  split
  · dsimp only
    split
    · rename_i hnone
      refine ⟨_, run_throw _ S, ?_, .inr ⟨_, rfl, .head _⟩⟩
      rintro ⟨request, hrequest⟩
      cases hrequest with
      | intro hname _ => cases hname.symm.trans hnone
    · exact ⟨_, run_bind_error hguard, fun _ => rfl, .inl (Error.isProtocol_iff.mpr rfl)⟩
  · rename_i hshape
    refine ⟨_, run_throw _ S, ?_, .inr ⟨_, rfl, .head _⟩⟩
    rintro ⟨request, hrequest⟩
    cases hrequest with
    | intro _ _ => exact (hshape _ _ rfl).elim

/-- A command succeeds in an open session only. -/
theorem open_of_run {output : Option String} (hrun : (execute command).run S = (.ok output, S')) :
    S.status ≠ .closed := by
  intro hclosed
  obtain ⟨e, he, _⟩ := execute_closed hclosed command
  cases he.symm.trans hrun

/-- A command with well-formed arguments is refused for the status of the session just if it needs
a logic and there is none, or if the session is closed. -/
theorem execute_blames_iff (hrequest : command.Requests request) (S : Session σ μ) :
    (∃ e, ((execute command).run S : Except Error (Option String) × Session σ μ).1 = .error e ∧
        e.IsProtocol) ↔
      if request.needsLogic then S.status ≠ .active else S.status = .closed := by
  by_cases hclosed : S.status = .closed
  · obtain ⟨e, hrun, hblames, _⟩ := execute_closed hclosed command
    have he := Error.isProtocol_iff.mpr (hblames ⟨request, hrequest⟩)
    have hright : if request.needsLogic then S.status ≠ .active else S.status = .closed := by
      rw [hclosed]
      split
      · nofun
      · rfl
    exact iff_of_true ⟨e, congrArg Prod.fst hrun, he⟩ hright
  rw [run_execute hrequest hclosed]
  by_cases hrefused : request.needsLogic = true ∧ S.status ≠ .active
  · obtain ⟨hneeds, hactive⟩ := hrefused
    obtain ⟨e, he, hrun⟩ := perform_refuses hneeds hactive
    rw [if_pos hneeds]
    exact iff_of_true ⟨e, congrArg Prod.fst hrun, Error.isProtocol_iff.mpr he⟩ hactive
  · have hactive : request.needsLogic = true → S.status = .active := fun hneeds =>
      not_not.mp fun h => hrefused ⟨hneeds, h⟩
    refine iff_of_false (fun ⟨e, he, hprotocol⟩ => ?_) ?_
    · have hspares : e.blamesStatus = false :=
        perform_unguarded hclosed hactive e _ (Prod.ext he rfl)
      exact Bool.eq_false_iff.mp hspares (Error.isProtocol_iff.mp hprotocol)
    · split
      · exact not_not.mpr (hactive ‹_›)
      · exact hclosed

/-! ### What commands make of a session -/

/-- Where a command can take a session. -/
inductive Passage (command : SExpr) (S : Session σ μ) : Session σ μ → Prop where
  | stay {S' : Session σ μ} (h : Steady S S') : Passage command S S'
  | activate {logic : String} {lease : Nat} {solver : σ} {contexts : Leases}
      (hrequest : command.Requests (.setLogic logic)) (hidle : S.status = .uninitialized) :
      Passage command S { S with
        context := some (lease, .ofSolver solver), contexts
        logic := some logic, status := .active }
  | restart {contexts models : Leases} (hrequest : command.Requests .reset) :
      Passage command S { start S.initial with contexts, models }
  | close (hrequest : command.Requests .exit) :
      Passage command S { S.released with status := .closed }

theorem perform_passes (hrequest : command.Requests request) (hopen : S.status ≠ .closed) :
    Passage command S ((perform request).run S).2 := by
  by_cases hlogic : ∃ logic, request = .setLogic logic
  · obtain ⟨logic, rfl⟩ := hlogic
    rcases setLogic_cases hopen logic with ⟨e, _, hrun⟩ | ⟨hidle, _, _, _, hrun⟩
    · rw [show (perform (.setLogic logic)).run S = _ from run_bind_error hrun]
      exact .stay (.refl S)
    · rw [show (perform (.setLogic logic)).run S = _ from run_bind_ok hrun]
      exact .activate hrequest hidle
  by_cases hreset : request = .reset
  · subst hreset
    rw [show (perform .reset).run S = _ from run_bind_ok (run_reset_open hopen)]
    exact .restart hrequest
  by_cases hexit : request = .exit
  · subst hexit
    rw [show (perform .exit).run S = _ from run_bind_ok (run_exit_open hopen)]
    exact .close hrequest
  by_cases hrefused : request.needsLogic = true ∧ S.status ≠ .active
  · obtain ⟨e, _, hrun⟩ := perform_refuses hrefused.1 hrefused.2
    rw [hrun]
    exact .stay (.refl S)
  · have hactive : request.needsLogic = true → S.status = .active := fun hneeds =>
      not_not.mp fun h => hrefused ⟨hneeds, h⟩
    have hstays := perform_abides hopen hactive (fun logic h => hlogic ⟨logic, h⟩) hreset hexit
    exact .stay (hstays.2 _ _ rfl).1

/-- Whatever is executed takes a session along one of the ways. -/
theorem execute_passes (command : SExpr) (S : Session σ μ) :
    Passage command S ((execute command).run S).2 := by
  by_cases hclosed : S.status = .closed
  · obtain ⟨e, hrun, _⟩ := execute_closed hclosed command
    rw [hrun]
    exact .stay (.refl S)
  rcases run_execute_cases command S with ⟨e, hrun⟩ | ⟨request, hrequest, hrun⟩
  · rw [hrun]
    exact .stay (.refl S)
  · rw [hrun]
    exact perform_passes hrequest hclosed

/-- Whether a session is active just as long as it has an open solver, and blank before. -/
structure Staged (S : Session σ μ) : Prop where
  active : S.status = .active ↔ S.solver?.isSome = true
  idle : S.status = .uninitialized → S.logic = none ∧ S.Blank

omit [Solver σ μ] in
theorem staged_start (configuration : Configuration) :
    (start configuration : Session σ μ).Staged :=
  ⟨⟨nofun, nofun⟩, fun _ => ⟨rfl, rfl, rfl, rfl⟩⟩

omit [Solver σ μ] in
theorem Passage.staged (h : Passage command S S') (hS : S.Staged) : S'.Staged := by
  cases h with
  | stay h =>
    refine ⟨by rw [h.status, h.solver]; exact hS.active, fun hidle => ?_⟩
    rw [h.status] at hidle
    obtain ⟨hlogic, hblank⟩ := hS.idle hidle
    exact ⟨h.logic.trans hlogic, h.blank (by simp [hidle]) hblank⟩
  | activate => exact ⟨iff_of_true rfl rfl, nofun⟩
  | restart => exact ⟨⟨nofun, nofun⟩, fun _ => ⟨rfl, rfl, rfl, rfl⟩⟩
  | close => exact ⟨iff_of_false nofun (by simp [solver?]), nofun⟩

theorem Reachable.staged (h : S.Reachable) : S.Staged := by
  have hafter (commands : List SExpr) {S : Session σ μ} (hS : S.Staged) :
      (after commands S).Staged := by
    induction commands generalizing S with
    | nil => exact hS
    | cons command rest ih => exact ih ((execute_passes command S).staged hS)
  obtain ⟨configuration, commands, rfl⟩ := h
  exact hafter commands (staged_start configuration)

/-! ### The logic -/

/-- Whether a session has got a logic, whether it has been closed since or not. -/
structure HasLogic (logic : String) (S : Session σ μ) : Prop where
  logic : S.logic = some logic
  started : S.status ≠ .uninitialized

omit [Solver σ μ] in
theorem Passage.hasLogic {logic : String} (h : Passage command S S') (hS : S.HasLogic logic)
    (hreset : ¬ command.Requests .reset) : S'.HasLogic logic := by
  cases h with
  | stay h => exact ⟨h.logic.trans hS.logic, by rw [h.status]; exact hS.started⟩
  | activate _ hidle => exact absurd hidle hS.started
  | restart hrequest => exact absurd hrequest hreset
  | close =>
    have hlogic : S.released.logic = S.logic := by
      unfold released dropped
      split <;> split <;> rfl
    exact ⟨hlogic.trans hS.logic, nofun⟩

/-- Without a reset, a session keeps the logic that it has got. -/
theorem HasLogic.after {logic : String} (hS : S.HasLogic logic) (commands : List SExpr)
    (hreset : ∀ command ∈ commands, ¬ command.Requests .reset) :
    (Session.after commands S).HasLogic logic := by
  induction commands generalizing S with
  | nil => exact hS
  | cons command rest ih =>
    obtain ⟨hfirst, hrest⟩ := List.forall_mem_cons.mp hreset
    exact ih ((execute_passes command S).hasLogic hS hfirst) hrest

/-- A command that sets a logic succeeds only before there is one. -/
theorem run_execute_setLogic {logic : String} {output : Option String}
    (hrequest : command.Requests (.setLogic logic))
    (hrun : (execute command).run S = (.ok output, S')) :
    S.status = .uninitialized ∧ S'.HasLogic logic := by
  have hopen := open_of_run hrun
  have hperform := run_execute_ok hrequest hrun
  rcases setLogic_cases hopen logic with ⟨e, _, hset⟩ | ⟨hidle, _, _, _, hset⟩
  · cases (run_bind_error hset).symm.trans hperform
  · obtain ⟨_, rfl⟩ := Prod.mk.inj ((run_bind_ok hset).symm.trans hperform)
    exact ⟨hidle, rfl, nofun⟩

/-! ### The end -/

theorem run_execute_exit {output : Option String} (hrequest : command.Requests .exit)
    (hrun : (execute command).run S = (.ok output, S')) : S'.status = .closed := by
  have hopen := open_of_run hrun
  have hexit := (run_bind_ok (run_exit_open hopen)).symm.trans (run_execute_ok hrequest hrun)
  rw [← (Prod.mk.inj hexit).2]

theorem after_closed (hclosed : S.status = .closed) (commands : List SExpr) :
    after commands S = S := by
  induction commands with
  | nil => rfl
  | cons command rest ih =>
    obtain ⟨e, he, _⟩ := execute_closed hclosed command
    exact (congrArg (fun p => after rest p.2) he).trans ih

/-- A session is active just as long as it owns an open context, and blank without a logic before.
Up to the next reset, a logic is set once at most and kept. A command with well-formed arguments is
refused as out of place just if it needs a logic and there is none, or if the session is closed.
Once it is closed, nothing is done or printed any more. -/
theorem lifecycle (hS : S.Reachable) :
    (S.status = .active ↔
      ∃ lease context, S.context = some (lease, context) ∧ context.isClosed = false) ∧
    (S.status = .uninitialized → S.logic = none ∧ S.Blank) ∧
    (∀ command logic output S₁, command.Requests (.setLogic logic) →
      (execute command).run S = (.ok output, S₁) →
      ∀ later : List SExpr, (∀ c ∈ later, ¬ c.Requests .reset) →
        (after later S₁).logic = some logic ∧
          ∀ again logic', again.Requests (.setLogic logic') →
            ∃ e, ((execute again).run (after later S₁)).1 = .error e) ∧
    (∀ command request, command.Requests request →
      ((∃ e, ((execute command).run S).1 = .error e ∧ e.IsProtocol) ↔
        if request.needsLogic then S.status ≠ .active else S.status = .closed)) ∧
    ∀ command output S₁, command.Requests .exit → (execute command).run S = (.ok output, S₁) →
      ∀ later : List SExpr, after later S₁ = S₁ ∧
        ∀ next, ∃ e, (execute next).run S₁ = (.error e, S₁) ∧ (e.IsProtocol ∨ e.IsSyntax) := by
  have hstaged := hS.staged
  refine ⟨?_, hstaged.idle, ?_, ?_, ?_⟩
  · rw [hstaged.active, solver?]
    cases hcontext : S.context with
    | none => simp
    | some p =>
      obtain ⟨lease, context⟩ := p
      simp [Context.isClosed]
  · intro command logic output S₁ hrequest hrun later hlater
    have hkept := (run_execute_setLogic hrequest hrun).2.after later hlater
    refine ⟨hkept.logic, fun again logic' hagain => ?_⟩
    obtain ⟨⟨r, S₂⟩, hrun₂⟩ : ∃ p, (execute again).run (after later S₁) = p := ⟨_, rfl⟩
    cases r with
    | error e => exact ⟨e, congrArg Prod.fst hrun₂⟩
    | ok output₂ => exact absurd (run_execute_setLogic hagain hrun₂).1 hkept.started
  · exact fun command request hrequest => execute_blames_iff hrequest S
  · intro command output S₁ hrequest hrun later
    have hclosed := run_execute_exit hrequest hrun
    refine ⟨after_closed hclosed later, fun next => ?_⟩
    obtain ⟨e, he, _, hkind⟩ := execute_closed hclosed next
    exact ⟨e, he, hkind⟩

/-- A level is refused before a logic is set, the logic outlasts it afterwards, and an exit is the
end. -/
theorem lifecycle_started :
    let set : SExpr := .list [.atom "set-logic", .atom "QF_LRA"]
    let push : SExpr := .list [.atom "push"]
    let exit : SExpr := .list [.atom "exit"]
    let S : Session Engine Engine.Model := start (.ofSolver "z3")
    S.Reachable ∧ (∃ e, ((execute push).run S).1 = .error e ∧ e.IsProtocol) ∧
      (∃ output S₁, set.Requests (.setLogic "QF_LRA") ∧ (∀ c ∈ [push], ¬ c.Requests .reset) ∧
        (execute set).run S = (.ok output, S₁) ∧ (after [push] S₁).logic = some "QF_LRA") ∧
      ∃ output S₁, exit.Requests .exit ∧ (execute exit).run S = (.ok output, S₁) ∧
        after [push] S₁ = S₁ := by
  intro set push exit S
  have hpush : push.Requests (.push 1) := .intro rfl rfl
  have hset : set.Requests (.setLogic "QF_LRA") := .intro rfl rfl
  have hexit : exit.Requests .exit := .intro rfl rfl
  have hreset : ∀ c ∈ [push], ¬ c.Requests .reset :=
    List.forall_mem_singleton.mpr fun h => nomatch h.unique hpush
  have hS : S.Reachable := ⟨_, [], rfl⟩
  have hruns (c : SExpr) (hok : ((execute c).run S).1.isOk = true) :
      ∃ output S₁, (execute c).run S = (.ok output, S₁) := by
    obtain ⟨⟨r, S₁⟩, hrun⟩ : ∃ p, (execute c).run S = p := ⟨_, rfl⟩
    rw [hrun] at hok
    cases r with
    | ok output => exact ⟨output, S₁, hrun⟩
    | error e => cases hok
  obtain ⟨_, _, hlogic, hguards, hend⟩ := lifecycle hS
  refine ⟨hS, (hguards push _ hpush).mpr nofun, ?_, ?_⟩
  · obtain ⟨output, S₁, hrun⟩ := hruns set (by decide +kernel)
    exact ⟨output, S₁, hset, hreset, hrun, (hlogic set _ _ _ hset hrun [push] hreset).1⟩
  · obtain ⟨output, S₁, hrun⟩ := hruns exit (by decide +kernel)
    exact ⟨output, S₁, hexit, hrun, (hend exit _ _ hexit hrun [push]).1⟩

end Session

end SmtScript
