import SmtScript.Proofs.Session.Confined

/-!
Runs in which no substitution fails.

`Session.Tidy` says of a session that it comes from commands of which none has left a substitution
unfinished since the session was started or reset, and which symbols they have declared. What such
a session holds is confined, `Session.Tidy.confined`.
-/

namespace SmtScript

open Solver Step Translation TermState

/-- An S-expression is read as one command at most. -/
theorem SExpr.Requests.unique {sexpr : SExpr} {command command' : Command}
    (h : sexpr.Requests command) (h' : sexpr.Requests command') : command = command' := by
  cases h with
  | intro hname hread =>
    cases h' with
    | intro hname' hread' =>
      obtain rfl := Option.some.inj (hname.symm.trans hname')
      exact Except.ok.inj (hread.symm.trans hread')

/-- Whether a command makes symbols for names or starts again without them. -/
def Command.redeclares : Command → Bool
  | .declareFun _ _ _ | .reset => true
  | _ => false

namespace Session

variable {σ μ : Type} {S S' : Session σ μ} {D : List Symbol}

/-- A reset fails and does nothing, or starts again. -/
theorem run_reset (S : Session σ μ) :
    (∃ e, (reset : SessionStep σ μ Unit).run S = (.error e, S)) ∨
      ∃ contexts models, (reset : SessionStep σ μ Unit).run S =
        (.ok ⟨⟩, { start S.initial with contexts, models }) := by
  unfold reset
  rcases (requireOpen_leads closed_eq S).same with ⟨e, he⟩ | ⟨_, h, _⟩
  · exact .inl ⟨e, run_bind_error he⟩
  refine .inr ⟨S.released.contexts, S.released.models, ?_⟩
  rw [run_bind_ok h, run_bind_ok (run_release S), run_modify, released_initial]

variable [Solver σ μ] {command : SExpr}

/-- A command is refused, or performed as it is read. -/
theorem run_execute_cases (command : SExpr) (S : Session σ μ) :
    (∃ e, (execute command).run S = (.error e, S)) ∨
      ∃ request, command.Requests request ∧ (execute command).run S = (perform request).run S := by
  unfold execute
  split
  · dsimp only
    split
    · exact .inl ⟨_, rfl⟩
    · rename_i head args _ name hname
      rcases (requireOpen_leads closed_eq S).same with ⟨e, he⟩ | ⟨_, h, _⟩
      · exact .inl ⟨e, run_bind_error he⟩
      rw [run_bind_ok h]
      rcases (ofExcept_leads (Command.read head (.list (.atom head :: args)) name args) S).same
        with ⟨e, he⟩ | ⟨request, h, hread⟩
      · exact .inl ⟨e, run_bind_error he⟩
      exact .inr ⟨request, .intro hname hread, run_bind_ok h⟩
  · exact .inl ⟨_, rfl⟩

theorem run_execute {request : Command} (hrequest : command.Requests request)
    (hopen : S.status ≠ .closed) : (execute command).run S = (perform request).run S := by
  cases hrequest with
  | intro hname hread =>
    unfold execute
    simp only [hname, hread]
    exact run_bind_ok (run_requireOpen hopen)

/-- What an accepted command has done is what it is read as. -/
theorem run_execute_ok {request : Command} {output : Option String}
    (hrequest : command.Requests request) (hrun : (execute command).run S = (.ok output, S')) :
    (perform request).run S = (.ok output, S') := by
  rcases run_execute_cases command S with ⟨e, he⟩ | ⟨request', hrequest', h⟩
  · cases he.symm.trans hrun
  · obtain rfl := hrequest.unique hrequest'
    exact h.symm.trans hrun

theorem run_perform_declareFun (S : Session σ μ) (name : String) (domains : List SExpr)
    (codomain : SExpr) :
    (∃ e, (perform (.declareFun name domains codomain)).run S = (.error e, S)) ∨
      ∃ s table, ¬ S.terms.Knows s ∧ table.symbols = s :: S.terms.table.symbols ∧
        (perform (.declareFun name domains codomain)).run S = (.ok none, { S with
          terms := { S.terms with table }, names := S.names.insert name (.term (.symbol s)) }) := by
  rcases run_declareFun S name domains codomain with ⟨e, he⟩ | ⟨s, table, hdeclares, h⟩
  · exact .inl ⟨e, run_bind_error he⟩
  · exact .inr ⟨s, table, SymbolTable.not_mem_of_hasName hdeclares.new, hdeclares.symbols,
      run_bind_ok h⟩

theorem run_perform_reset (S : Session σ μ) :
    (∃ e, (perform .reset).run S = (.error e, S)) ∨ ∃ contexts models,
      (perform .reset).run S = (.ok none, { start S.initial with contexts, models }) := by
  rcases run_reset S with ⟨e, he⟩ | ⟨contexts, models, h⟩
  · exact .inl ⟨e, run_bind_error he⟩
  · exact .inr ⟨contexts, models, run_bind_ok h⟩

theorem run_perform_getAssertions (hactive : S.status = .active) :
    (perform .getAssertions).run S = (.ok (termLines S.assertions.items), S) :=
  run_bind_ok (run_requireActive hactive)

/-- Whether a session has just been started or reset. -/
inductive Fresh : Session σ μ → Prop where
  | start (configuration : Configuration) : Fresh (start configuration)
  | reset {S S' : Session σ μ} {command : SExpr} {output : Option String} (hS : S.Reachable)
      (hrequest : command.Requests .reset) (hrun : (execute command).run S = (.ok output, S')) :
      Fresh S'

/-- Whether commands lead from a fresh session to another one and leave no substitution unfinished,
and which symbols they declare. -/
inductive Tidy : List Symbol → Session σ μ → Prop where
  | fresh {S : Session σ μ} (h : S.Fresh) : Tidy [] S
  | declare {D : List Symbol} {S S' : Session σ μ} {command : SExpr} {name : String}
      {domains : List SExpr} {codomain : SExpr} {output : Option String} {s : Symbol}
      (h : Tidy D S) (hrequest : command.Requests (.declareFun name domains codomain))
      (hrun : (execute command).run S = (.ok output, S'))
      (hs : S'.names.get? name = some (.term (.symbol s))) : Tidy (s :: D) S'
  | keep {D : List Symbol} {S S' : Session σ μ} {command : SExpr}
      {result : Except Error (Option String)} (h : Tidy D S)
      (hrun : (execute command).run S = (result, S')) (hclean : S'.terms.leftover = none)
      (hother : ∀ output request, result = .ok output → command.Requests request →
        request.redeclares = false) : Tidy D S'

theorem Reachable.execute {result : Except Error (Option String)} (h : S.Reachable)
    (hrun : (execute command).run S = (result, S')) : S'.Reachable := by
  obtain ⟨configuration, commands, rfl⟩ := h
  exact ⟨configuration, commands ++ [command], by rw [after_concat, hrun]⟩

theorem Fresh.reachable (h : S.Fresh) : S.Reachable := by
  cases h with
  | start configuration => exact ⟨configuration, [], rfl⟩
  | reset hS _ hrun => exact hS.execute hrun

theorem Fresh.eq_start (h : S.Fresh) : ∃ initial contexts models,
    S = { (Session.start initial : Session σ μ) with contexts, models } := by
  cases h with
  | start configuration => exact ⟨configuration, _, _, rfl⟩
  | @reset S₀ _ _ _ _ hrequest hrun =>
    have hperform := run_execute_ok hrequest hrun
    rcases run_perform_reset S₀ with ⟨e, he⟩ | ⟨contexts, models, hok⟩
    · cases he.symm.trans hperform
    · obtain ⟨_, rfl⟩ := Prod.mk.inj (hok.symm.trans hperform)
      exact ⟨_, contexts, models, rfl⟩

/-- A declaration that succeeds makes one symbol and binds the name to it. -/
theorem declared_of_run {name : String} {domains : List SExpr} {codomain : SExpr}
    {output : Option String} {s : Symbol}
    (hrequest : command.Requests (.declareFun name domains codomain))
    (hrun : (execute command).run S = (.ok output, S'))
    (hs : S'.names.get? name = some (.term (.symbol s))) :
    ∃ table, ¬ S.terms.Knows s ∧ table.symbols = s :: S.terms.table.symbols ∧
      S' = { S with
        terms := { S.terms with table }, names := S.names.insert name (.term (.symbol s)) } := by
  have hperform := run_execute_ok hrequest hrun
  rcases run_perform_declareFun S name domains codomain with
    ⟨e, he⟩ | ⟨s', table, hnew, htable, hok⟩
  · cases he.symm.trans hperform
  · obtain ⟨_, rfl⟩ := Prod.mk.inj (hok.symm.trans hperform)
    obtain rfl : s' = s := by simpa using hs
    exact ⟨table, hnew, htable, rfl⟩

theorem Tidy.reachable (h : Tidy D S) : S.Reachable := by
  induction h with
  | fresh h => exact h.reachable
  | declare _ _ hrun _ ih => exact ih.execute hrun
  | keep _ hrun _ _ ih => exact ih.execute hrun

theorem Tidy.clean (h : Tidy D S) : S.terms.leftover = none := by
  induction h with
  | fresh h =>
    obtain ⟨_, _, _, rfl⟩ := h.eq_start
    rfl
  | declare _ hrequest hrun hs ih =>
    obtain ⟨_, _, _, rfl⟩ := declared_of_run hrequest hrun hs
    exact ih
  | keep _ _ hclean _ _ => exact hclean

/-- A command resets a session, makes a symbol for a name, or does neither. -/
theorem redeclares_cases {result : Except Error (Option String)}
    (hrun : (execute command).run S = (result, S')) :
    (∃ output, result = .ok output ∧ command.Requests .reset) ∨
      (∃ output name domains codomain s, result = .ok output ∧
        command.Requests (.declareFun name domains codomain) ∧
        S'.names.get? name = some (.term (.symbol s))) ∨
      ∀ output request, result = .ok output → command.Requests request →
        request.redeclares = false := by
  by_cases hredeclares : ∃ output request,
      result = .ok output ∧ command.Requests request ∧ request.redeclares = true
  · obtain ⟨output, request, rfl, hrequest, hredeclares⟩ := hredeclares
    cases request with
    | declareFun name domains codomain =>
      have hperform := run_execute_ok hrequest hrun
      rcases run_perform_declareFun S name domains codomain with ⟨e, he⟩ | ⟨s, table, _, _, hok⟩
      · cases he.symm.trans hperform
      · obtain ⟨_, rfl⟩ := Prod.mk.inj (hok.symm.trans hperform)
        exact .inr (.inl ⟨output, name, domains, codomain, s, rfl, hrequest, by simp⟩)
    | reset => exact .inl ⟨output, rfl, hrequest⟩
    | _ => cases hredeclares
  · refine .inr (.inr fun output request houtput hrequest => ?_)
    exact Bool.eq_false_iff.mpr fun hredeclares' =>
      hredeclares ⟨output, request, houtput, hrequest, hredeclares'⟩

/-- A command that leaves no substitution unfinished keeps a session tidy. -/
theorem Tidy.execute {result : Except Error (Option String)} (h : Tidy D S)
    (hrun : (execute command).run S = (result, S')) (hclean : S'.terms.leftover = none) :
    ∃ D', Tidy D' S' := by
  rcases redeclares_cases hrun with
    ⟨output, rfl, hrequest⟩ | ⟨output, name, _, _, s, rfl, hrequest, hs⟩ | hother
  · exact ⟨[], .fresh (.reset h.reachable hrequest hrun)⟩
  · exact ⟨s :: D, h.declare hrequest hrun hs⟩
  · exact ⟨D, h.keep hrun hclean hother⟩

/-- Whatever commands that leave no substitution unfinished lead to is tidy. -/
theorem Tidy.after (h : Tidy D S) (commands : List SExpr)
    (hclean : ∀ k ≤ commands.length, (after (commands.take k) S).terms.leftover = none) :
    ∃ D', Tidy D' (Session.after commands S) := by
  induction commands generalizing D S with
  | nil => exact ⟨D, h⟩
  | cons command rest ih =>
    obtain ⟨D₁, h₁⟩ : ∃ D₁, Tidy D₁ (after [command] S) := h.execute rfl (hclean 1 (by simp))
    exact ih h₁ fun k hk => hclean (k + 1) (by simpa using hk)

variable [GrowingSolver σ μ]

theorem perform_confined (hS : S.Confined D) (hsound : S.Sound)
    (hclean : S.terms.leftover = none) {request : Command} (hrequest : request.redeclares = false) :
    Leads (fun _ S' => S'.Confined D) (perform request) S fun _ _ => True := by
  have hpure (a : Option String) :
      Leads (fun _ S' => S'.Confined D) (pure a : SessionStep σ μ _) S fun _ _ => True :=
    .of_run (run_pure a S) hS fun _ _ => trivial
  have hactive := requireActive_leads closed_eq S
  have hstill {α : Type} {x : SessionStep σ μ α} {f : α → Option String}
      (h : Leads Still x S fun _ _ => True) :
      Leads (fun _ S' => S'.Confined D) (do return f (← x)) S fun _ _ => True :=
    leads_result (h.weaken fun _ h => h.confined hS)
  cases request with
  | setLogic logic => exact leads_result (setLogic_confined hS logic)
  | setOption keyword value => exact hstill (setOption_still keyword value S)
  | setInfo keyword value => exact hstill (setInfo_still keyword value S)
  | ignoreInfo => exact hpure _
  | getInfo keyword => exact hstill (getInfo_still keyword S)
  | getOption keyword => exact hstill (getOption_still keyword S)
  | echo text => exact hpure _
  | push levels => exact leads_result (push_confined hS levels)
  | pop levels => exact leads_result (pop_confined hS levels)
  | resetAssertions => exact leads_result (resetAssertions_confined hS)
  | reset => cases hrequest
  | exit => exact leads_result (exit_confined hS)
  | declareSort name arity => exact hstill (declareSort_still name arity S)
  | declareFun name domains codomain => cases hrequest
  | defineFun name parameters codomain body =>
    exact leads_result (defineFun_confined hS hsound hclean name parameters codomain body)
  | assertTerm sexpr => exact leads_result (assertTerm_confined hS hsound hclean sexpr)
  | checkSat assumptions => exact leads_result (checkSat_confined hS hsound hclean assumptions)
  | getAssertions => exact .bind_same hS hactive fun _ _ => .get (hpure _)
  | getValue sexprs => exact leads_result (getValue_confined hS hsound hclean sexprs)
  | getModel => exact .bind_same hS hactive fun _ _ => hstill (getModel_still S)
  | getUnsatCore => exact hstill (getUnsatCore_still S)
  | unsupported head sexpr isQuery =>
    have hthrow : Leads (fun _ S' => S'.Confined D)
        (throw (.unsupportedCommand head sexpr) : SessionStep σ μ (Option String)) S
        fun _ _ => True :=
      .of_run (run_throw _ S) hS nofun
    cases isQuery with
    | false => exact hthrow
    | true => exact .bind_same hS hactive fun _ _ => hthrow

/-- A command that does not redeclare, or fails, keeps local symbols confined. -/
theorem execute_confined (hS : S.Confined D) (hsound : S.Sound)
    (hclean : S.terms.leftover = none) {result : Except Error (Option String)}
    (hrun : (execute command).run S = (result, S'))
    (hother : ∀ output request, result = .ok output → command.Requests request →
      request.redeclares = false) : S'.Confined D := by
  rcases run_execute_cases command S with ⟨e, he⟩ | ⟨request, hrequest, h⟩
  · obtain ⟨_, rfl⟩ := Prod.mk.inj (he.symm.trans hrun)
    exact hS
  · rw [h] at hrun
    cases hredeclares : request.redeclares with
    | false => exact (perform_confined hS hsound hclean hredeclares _ _ hrun).1
    | true =>
      cases request with
      | declareFun name domains codomain =>
        rcases run_perform_declareFun S name domains codomain with ⟨e, he⟩ | ⟨_, _, _, _, hok⟩
        · obtain ⟨_, rfl⟩ := Prod.mk.inj (he.symm.trans hrun)
          exact hS
        · obtain ⟨rfl, _⟩ := Prod.mk.inj (hok.symm.trans hrun)
          cases hother _ _ rfl hrequest
      | reset =>
        rcases run_perform_reset S with ⟨e, he⟩ | ⟨_, _, hok⟩
        · obtain ⟨_, rfl⟩ := Prod.mk.inj (he.symm.trans hrun)
          exact hS
        · obtain ⟨rfl, _⟩ := Prod.mk.inj (hok.symm.trans hrun)
          cases hother _ _ rfl hrequest
      | _ => cases hredeclares

theorem Tidy.confined (h : Tidy D S) : S.Confined D := by
  induction h with
  | fresh h =>
    obtain ⟨initial, _, _, rfl⟩ := h.eq_start
    have h := confined_start (σ := σ) (μ := μ) initial
    exact ⟨h.names, h.hidden, h.tame, h.assertions⟩
  | declare _ hrequest hrun hs ih =>
    obtain ⟨table, hnew, htable, rfl⟩ := declared_of_run hrequest hrun hs
    refine (ih.declare hnew htable).bind _ ?_ (Term.tame_symbol _) nofun
    simp [Binding.Confined, Term.Confined, Term.freeSymbols, Visible, Global]
  | keep h hrun _ hother ih => exact execute_confined ih h.reachable.sound h.clean hrun hother

end Session

end SmtScript
