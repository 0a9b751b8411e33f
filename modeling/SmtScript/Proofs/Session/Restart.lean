import SmtScript.Proofs.Session.Lifecycle

/-!
Starting again.

The numbers of leases are the only thing that a session keeps over a reset, and no step looks at
them: `Session.Blind` says that a step gives the same result, and leads to the same session but for
these numbers, in two sessions that agree but for these numbers. Every command is blind, so that a
session that has been reset cannot be told from a new one, `Session.reset_starts_again`.
-/

namespace SmtScript

open Step

namespace Session

variable {σ μ α β : Type} {S S' : Session σ μ}

/-- Whether two sessions agree but for the numbers of their leases. -/
def Twins (S S' : Session σ μ) : Prop :=
  ∃ context model contexts models, S' = { S with context, model, contexts, models } ∧
    context.map Prod.snd = S.context.map Prod.snd ∧ model.map Prod.snd = S.model.map Prod.snd

/-- Whether two steps in two sessions give the same result and lead to twins. -/
def Same (x y : SessionStep σ μ α) (S S' : Session σ μ) : Prop :=
  (x.run S).1 = (y.run S').1 ∧ Twins (x.run S).2 (y.run S').2

/-- Whether a step does the same in twins. -/
def Blind (x : SessionStep σ μ α) : Prop := ∀ S S', Twins S S' → Same x x S S'

/-! ### Ways of putting steps together -/

theorem blind_pure (a : α) : Blind (pure a : SessionStep σ μ α) := fun _ _ h => ⟨rfl, h⟩

theorem blind_throw (e : Error) : Blind (throw e : SessionStep σ μ α) := fun _ _ h => ⟨rfl, h⟩

theorem blind_ofExcept (result : Except Error α) :
    Blind (ofExcept result : SessionStep σ μ α) := fun _ _ h => ⟨rfl, h⟩

theorem Blind.bind {x : SessionStep σ μ α} {f : α → SessionStep σ μ β} (hx : Blind x)
    (hf : ∀ a, Blind (f a)) : Blind (x >>= f) := by
  intro S S' h
  obtain ⟨hresult, hstates⟩ := hx S S' h
  rw [Same, run_bind, run_bind]
  revert hresult hstates
  generalize (x.run S : Except Error α × Session σ μ) = p
  generalize (x.run S' : Except Error α × Session σ μ) = q
  obtain ⟨r, T⟩ := p
  obtain ⟨r', T'⟩ := q
  rintro (rfl : r = r') hstates
  cases r with
  | ok a => exact hf a T T' hstates
  | error e => exact ⟨rfl, hstates⟩

/-- What is done next depends on the session, but not on what twins differ in. -/
theorem blind_get {f : Session σ μ → SessionStep σ μ α}
    (hsame : ∀ S context model contexts models,
      f { S with context, model, contexts, models } = f S)
    (h : ∀ S, Blind (f S)) : Blind (MonadState.get >>= f) := by
  intro S S' htwins
  obtain ⟨context, model, contexts, models, hS', _⟩ := id htwins
  have hnext : f S' = f S := by
    rw [hS']
    exact hsame S context model contexts models
  rw [Same, run_bind_ok (run_get S), run_bind_ok (run_get S'), hnext]
  exact h S S S' htwins

/-- A change of what twins agree in. -/
theorem blind_modify {f : Session σ μ → Session σ μ}
    (hsame : ∀ S context model contexts models,
      f { S with context, model, contexts, models } =
        { f S with context, model, contexts, models })
    (hcontext : ∀ S, (f S).context = S.context) (hmodel : ∀ S, (f S).model = S.model) :
    Blind (modify f : SessionStep σ μ PUnit) := by
  rintro S _ ⟨context, model, contexts, models, rfl, hcontexts, hmodels⟩
  refine ⟨rfl, context, model, contexts, models, hsame S context model contexts models, ?_, ?_⟩
  · rw [run_modify, hcontext]
    exact hcontexts
  · rw [run_modify, hmodel]
    exact hmodels

theorem blind_onTerms (step : Translation α) : Blind (onTerms step : SessionStep σ μ α) := by
  rintro S _ ⟨context, model, contexts, models, rfl, hcontext, hmodel⟩
  exact ⟨rfl, context, model, contexts, models, rfl, hcontext, hmodel⟩

theorem blind_onContext (step : ContextStep σ α) : Blind (onContext step : SessionStep σ μ α) := by
  rintro S _ ⟨context, model, contexts, models, rfl, hcontext, hmodel⟩
  cases hS : S.context with
  | none =>
    obtain rfl : context = none := by simpa [hS] using hcontext
    rw [Same, run_onContext_none step hS, run_onContext_none step rfl]
    exact ⟨rfl, none, model, contexts, models, rfl, by rw [hS], hmodel⟩
  | some p =>
    obtain ⟨⟨lease, context⟩, rfl, rfl⟩ : ∃ q, context = some q ∧ q.2 = p.2 := by
      simpa [hS, Option.map_eq_some_iff] using hcontext
    rw [Same, run_onContext step hS, run_onContext step rfl]
    exact ⟨rfl, _, model, contexts, models, rfl, rfl, hmodel⟩

theorem blind_onModel (step : PartStep μ α) : Blind (onModel step : SessionStep σ μ α) := by
  rintro S _ ⟨context, model, contexts, models, rfl, hcontext, hmodel⟩
  rw [Same, run_onModel, run_onModel]
  dsimp only
  rw [hmodel]
  generalize step.run (S.model.map Prod.snd, S.terms) = p
  refine ⟨rfl, context, _, contexts, models, rfl, hcontext, ?_⟩
  unfold withAsked
  cases hS : S.model <;> cases model <;> cases p.2.1 <;> simp_all

/-! ### Operations -/

theorem requireOpen_blind : Blind (requireOpen : SessionStep σ μ Unit) := by
  refine blind_get (fun _ _ _ _ _ => rfl) fun S => ?_
  split
  · exact blind_throw _
  · exact blind_pure _

theorem requireActive_blind : Blind (requireActive : SessionStep σ μ Unit) := by
  refine Blind.bind requireOpen_blind fun _ => blind_get (fun _ _ _ _ _ => rfl) fun S => ?_
  split
  · exact blind_throw _
  · exact blind_pure _

theorem dropModel_blind : Blind (dropModel : SessionStep σ μ Unit) := by
  rintro S _ ⟨context, model, contexts, models, rfl, hcontext, hmodel⟩
  rw [Same, run_dropModel, run_dropModel]
  refine ⟨rfl, ?_⟩
  cases hS : S.model with
  | none =>
    obtain rfl : model = none := by simpa [hS] using hmodel
    exact ⟨context, none, contexts, models, by simp [dropped, hS], by simpa using hcontext, by simp⟩
  | some p =>
    obtain ⟨q, rfl, _⟩ : ∃ q, model = some q ∧ q.2 = p.2 := by
      simpa [hS, Option.map_eq_some_iff] using hmodel
    exact ⟨context, none, contexts, models.giveBack q.1, by simp [dropped, hS],
      by simpa using hcontext, by simp⟩

theorem release_blind : Blind (release : SessionStep σ μ Unit) := by
  refine Blind.bind dropModel_blind fun _ => ?_
  rintro S _ ⟨context, model, contexts, models, rfl, hcontext, hmodel⟩
  rw [Same, run_modify, run_modify]
  refine ⟨rfl, ?_⟩
  cases hS : S.context with
  | none =>
    obtain rfl : context = none := by simpa [hS] using hcontext
    exact ⟨none, model, contexts, models, rfl, by rw [hS], hmodel⟩
  | some p =>
    obtain ⟨q, rfl, _⟩ : ∃ q, context = some q ∧ q.2 = p.2 := by
      simpa [hS, Option.map_eq_some_iff] using hcontext
    exact ⟨none, model, _, models, rfl, rfl, hmodel⟩

theorem reset_blind : Blind (reset : SessionStep σ μ Unit) := by
  refine Blind.bind requireOpen_blind fun _ => Blind.bind release_blind fun _ => ?_
  rintro S _ ⟨context, model, contexts, models, rfl, _, _⟩
  exact ⟨rfl, none, none, contexts, models, rfl, rfl, rfl⟩

theorem exit_blind : Blind (exit : SessionStep σ μ Unit) :=
  Blind.bind requireOpen_blind fun _ => Blind.bind release_blind fun _ =>
    blind_modify (fun _ _ _ _ _ => rfl) (fun _ => rfl) fun _ => rfl

theorem setOption_blind (keyword value : String) :
    Blind (setOption keyword value : SessionStep σ μ Unit) := by
  refine Blind.bind requireOpen_blind fun _ => ?_
  rintro S _ ⟨context, model, contexts, models, rfl, hcontext, hmodel⟩
  exact ⟨rfl, context, model, contexts, models, rfl, hcontext, hmodel⟩

theorem getOption_blind (keyword : String) :
    Blind (getOption keyword : SessionStep σ μ String) := by
  refine Blind.bind requireOpen_blind fun _ => blind_get (fun _ _ _ _ _ => rfl) fun S => ?_
  split
  · exact blind_pure _
  · exact blind_throw _

theorem setInfo_blind (keyword value : String) :
    Blind (setInfo keyword value : SessionStep σ μ Unit) :=
  Blind.bind requireOpen_blind fun _ =>
    blind_modify (fun _ _ _ _ _ => rfl) (fun _ => rfl) fun _ => rfl

theorem getInfo_blind (keyword : String) : Blind (getInfo keyword : SessionStep σ μ String) := by
  refine Blind.bind requireOpen_blind fun _ => blind_get (fun _ _ _ _ _ => rfl) fun S => ?_
  split
  · exact blind_pure _
  · exact blind_throw _

theorem declareSort_blind (name : String) (arity : Nat) :
    Blind (declareSort name arity : SessionStep σ μ Unit) := by
  refine Blind.bind requireOpen_blind fun _ => blind_get (fun _ _ _ _ _ => rfl) fun S => ?_
  exact (blind_ofExcept _).bind fun p =>
    blind_modify (fun _ _ _ _ _ => rfl) (fun _ => rfl) fun _ => rfl

theorem newSymbol_blind (name : String) (sort : SmtSort) :
    Blind (newSymbol name sort : SessionStep σ μ Symbol) := by
  refine blind_get (fun _ _ _ _ _ => rfl) fun S => ?_
  dsimp only
  split
  · exact blind_onTerms _
  · split
    · exact blind_throw _
    · exact Blind.bind (blind_modify (fun _ _ _ _ _ => rfl) (fun _ => rfl) fun _ => rfl)
        fun _ => blind_pure _

theorem bindName_blind (name : String) (binding : Binding) :
    Blind (bindName name binding : SessionStep σ μ Unit) :=
  blind_modify (fun _ _ _ _ _ => rfl) (fun _ => rfl) fun _ => rfl

theorem declareFun_blind (name : String) (domains : List SExpr) (codomain : SExpr) :
    Blind (declareFun name domains codomain : SessionStep σ μ Symbol) := by
  refine Blind.bind requireOpen_blind fun _ => blind_get (fun _ _ _ _ _ => rfl) fun S => ?_
  refine (blind_ofExcept _).bind fun domains => (blind_ofExcept _).bind fun codomain => ?_
  refine (newSymbol_blind name _).bind fun symbol => ?_
  exact (bindName_blind name _).bind fun _ => blind_pure _

theorem declareParameters_blind (name : String) (parameters : List SExpr) :
    Blind (declareParameters name parameters : SessionStep σ μ (List (String × Symbol))) := by
  induction parameters with
  | nil => exact blind_pure _
  | cons parameter rest ih =>
    unfold declareParameters
    split
    · exact blind_pure _
    · rename_i heq
      obtain ⟨rfl, rfl⟩ := List.cons.inj heq
      refine blind_get (fun _ _ _ _ _ => rfl) fun S => (blind_ofExcept _).bind fun sort => ?_
      exact (blind_onTerms _).bind fun symbol => ih.bind fun _ => blind_pure _
    · exact blind_throw _

theorem defineFun_blind (name : String) (parameters : List SExpr) (codomain body : SExpr) :
    Blind (defineFun name parameters codomain body : SessionStep σ μ Unit) := by
  refine Blind.bind requireOpen_blind fun _ => blind_get (fun _ _ _ _ _ => rfl) fun S => ?_
  refine (blind_ofExcept _).bind fun sort => ?_
  refine (declareParameters_blind name parameters).bind fun declared => ?_
  refine blind_get (fun _ _ _ _ _ => rfl) fun S => (blind_onTerms _).bind fun t => ?_
  refine (blind_ofExcept _).bind fun term => ?_
  split
  · exact bindName_blind name _
  · exact bindName_blind name _

theorem parseTerm_blind (sexpr : SExpr) : Blind (parseTerm sexpr : SessionStep σ μ Term) :=
  blind_get (fun _ _ _ _ _ => rfl) fun _ => blind_onTerms _

theorem parseTerms_blind (sexprs : List SExpr) :
    Blind (parseTerms sexprs : SessionStep σ μ (List Term)) := by
  induction sexprs with
  | nil => exact blind_pure _
  | cons sexpr rest ih =>
    exact (parseTerm_blind sexpr).bind fun _ => ih.bind fun _ => blind_pure _

variable [Solver σ μ]

theorem setLogic_blind (logic : String) : Blind (setLogic logic : SessionStep σ μ Unit) := by
  refine Blind.bind requireOpen_blind fun _ => ?_
  rintro S _ ⟨context, model, contexts, models, rfl, hcontext, hmodel⟩
  have htwins : Twins S { S with context, model, contexts, models } :=
    ⟨context, model, contexts, models, rfl, hcontext, hmodel⟩
  rw [Same, run_bind_ok (run_get _), run_bind_ok (run_get _)]
  dsimp only
  split
  · exact ⟨rfl, htwins⟩
  · split
    · exact blind_throw _ S _ htwins
    · exact ⟨rfl, _, model, _, models, rfl, rfl, hmodel⟩

theorem defineParts_blind (parts : IntegerParts) :
    Blind (defineParts parts : SessionStep σ μ Unit) := by
  induction parts with
  | nil => exact blind_pure _
  | cons part rest ih =>
    exact (blind_onContext _).bind fun _ =>
      Blind.bind (blind_modify (fun _ _ _ _ _ => rfl) (fun _ => rfl) fun _ => rfl) fun _ => ih

theorem assertTerm_blind (sexpr : SExpr) : Blind (assertTerm sexpr : SessionStep σ μ Term) := by
  refine Blind.bind requireActive_blind fun _ => (parseTerm_blind sexpr).bind fun t => ?_
  refine blind_get (fun _ _ _ _ _ => rfl) fun S => (defineParts_blind _).bind fun _ => ?_
  refine (blind_onContext _).bind fun _ => ?_
  refine Blind.bind (blind_modify (fun _ _ _ _ _ => rfl) (fun _ => rfl) fun _ => rfl) fun _ => ?_
  exact Blind.bind dropModel_blind fun _ => blind_pure _

omit [Solver σ μ] in
/-- A step on the context of a session without a model, and a change of the stack. -/
theorem onStack_blind (step : ContextStep σ Unit)
    (assertions : Levels Term → Levels Term) (parts : Levels Symbol → Levels Symbol) :
    Blind (do
      dropModel
      onContext step
      modify fun session => { session with
        assertions := assertions session.assertions
        definedParts := parts session.definedParts } : SessionStep σ μ Unit) :=
  Blind.bind dropModel_blind fun _ => (blind_onContext _).bind fun _ =>
    blind_modify (fun _ _ _ _ _ => rfl) (fun _ => rfl) fun _ => rfl

theorem push_blind (levels : Nat) : Blind (push levels : SessionStep σ μ Unit) :=
  Blind.bind requireActive_blind fun _ => onStack_blind _ (·.pushMany levels) (·.pushMany levels)

theorem pop_blind (levels : Nat) : Blind (pop levels : SessionStep σ μ Unit) := by
  refine Blind.bind requireActive_blind fun _ => blind_get (fun _ _ _ _ _ => rfl) fun S => ?_
  dsimp only
  have hpop := onStack_blind (μ := μ) (Context.pop (σ := σ) levels) (·.popMany levels)
    (·.popMany levels)
  split
  · exact (blind_throw _).bind fun _ => hpop
  · exact hpop

theorem resetAssertions_blind : Blind (resetAssertions : SessionStep σ μ Unit) :=
  Blind.bind requireActive_blind fun _ => onStack_blind _ (fun _ => .empty) fun _ => .empty

theorem checkSat_blind (assumptions : List SExpr) :
    Blind (checkSat assumptions : SessionStep σ μ CheckStatus) :=
  Blind.bind requireActive_blind fun _ => Blind.bind dropModel_blind fun _ =>
    (parseTerms_blind assumptions).bind fun _ =>
      blind_get (fun _ _ _ _ _ => rfl) fun _ => blind_onContext _

theorem ensureModel_blind : Blind (ensureModel : SessionStep σ μ Unit) := by
  have hmake : Blind (do
      let model ← onContext Context.model
      modify fun session =>
        let taken := session.models.take
        { session with model := some (taken.1, model), models := taken.2 } :
          SessionStep σ μ Unit) := by
    refine (blind_onContext _).bind fun m => ?_
    rintro S _ ⟨context, model, contexts, models, rfl, hcontext, hmodel⟩
    exact ⟨rfl, context, _, contexts, _, rfl, hcontext, rfl⟩
  refine Blind.bind requireActive_blind fun _ => ?_
  rintro S _ ⟨context, model, contexts, models, rfl, hcontext, hmodel⟩
  have htwins : Twins S { S with context, model, contexts, models } :=
    ⟨context, model, contexts, models, rfl, hcontext, hmodel⟩
  rw [Same, run_bind_ok (run_get _), run_bind_ok (run_get _)]
  cases hS : S.model with
  | none =>
    obtain rfl : model = none := by simpa [hS] using hmodel
    exact hmake S _ htwins
  | some p =>
    obtain ⟨q, rfl, _⟩ : ∃ q, model = some q ∧ q.2 = p.2 := by
      simpa [hS, Option.map_eq_some_iff] using hmodel
    exact ⟨rfl, htwins⟩

theorem evaluateAll_blind (ts : List Term) :
    Blind (evaluateAll ts : SessionStep σ μ (List Term)) := by
  induction ts with
  | nil => exact blind_pure _
  | cons t rest ih => exact (blind_onModel _).bind fun _ => ih.bind fun _ => blind_pure _

theorem getValue_blind (sexprs : List SExpr) :
    Blind (getValue sexprs : SessionStep σ μ (List (SExpr × Term))) :=
  Blind.bind requireActive_blind fun _ => (parseTerms_blind sexprs).bind fun ts =>
    Blind.bind ensureModel_blind fun _ => (evaluateAll_blind ts).bind fun _ => blind_pure _

theorem modelEntry_blind (name : String) (binding : Binding) :
    Blind (modelEntry name binding : SessionStep σ μ (Option ModelEntry)) := by
  unfold modelEntry
  split
  · split
    · exact (blind_onModel _).bind fun _ => blind_pure _
    · exact (blind_onModel _).bind fun _ => blind_pure _
  · exact blind_pure _

theorem modelEntries_blind (entries : List (String × Binding)) :
    Blind (modelEntries entries : SessionStep σ μ (List ModelEntry)) := by
  induction entries with
  | nil => exact blind_pure _
  | cons entry rest ih =>
    exact (modelEntry_blind entry.1 entry.2).bind fun _ => ih.bind fun _ => blind_pure _

theorem getModel_blind : Blind (getModel : SessionStep σ μ (List ModelEntry)) :=
  Blind.bind ensureModel_blind fun _ =>
    blind_get (fun _ _ _ _ _ => rfl) fun _ => modelEntries_blind _

theorem getUnsatCore_blind : Blind (getUnsatCore : SessionStep σ μ (List Term)) :=
  Blind.bind requireActive_blind fun _ => blind_onContext _

/-! ### Commands -/

theorem perform_blind (command : Command) :
    Blind (perform command : SessionStep σ μ (Option String)) := by
  have hresult {α : Type} {x : SessionStep σ μ α} {f : α → Option String} (h : Blind x) :
      Blind (do return f (← x)) := h.bind fun _ => blind_pure _
  cases command with
  | setLogic logic => exact hresult (setLogic_blind logic)
  | setOption keyword value => exact hresult (setOption_blind keyword value)
  | setInfo keyword value => exact hresult (setInfo_blind keyword value)
  | ignoreInfo => exact blind_pure _
  | getInfo keyword => exact hresult (getInfo_blind keyword)
  | getOption keyword => exact hresult (getOption_blind keyword)
  | echo text => exact blind_pure _
  | push levels => exact hresult (push_blind levels)
  | pop levels => exact hresult (pop_blind levels)
  | resetAssertions => exact hresult resetAssertions_blind
  | reset => exact hresult reset_blind
  | exit => exact hresult exit_blind
  | declareSort name arity => exact hresult (declareSort_blind name arity)
  | declareFun name domains codomain => exact hresult (declareFun_blind name domains codomain)
  | defineFun name parameters codomain body =>
    exact hresult (defineFun_blind name parameters codomain body)
  | assertTerm sexpr => exact hresult (assertTerm_blind sexpr)
  | checkSat assumptions => exact hresult (checkSat_blind assumptions)
  | getAssertions =>
    exact Blind.bind requireActive_blind fun _ =>
      blind_get (fun _ _ _ _ _ => rfl) fun _ => blind_pure _
  | getValue sexprs => exact hresult (getValue_blind sexprs)
  | getModel => exact Blind.bind requireActive_blind fun _ => hresult getModel_blind
  | getUnsatCore => exact hresult getUnsatCore_blind
  | unsupported head sexpr isQuery =>
    cases isQuery with
    | false => exact blind_throw _
    | true => exact Blind.bind requireActive_blind fun _ => blind_throw _

theorem execute_blind (command : SExpr) :
    Blind (execute command : SessionStep σ μ (Option String)) := by
  unfold execute
  split
  · dsimp only
    split
    · exact blind_throw _
    · exact Blind.bind requireOpen_blind fun _ => (blind_ofExcept _).bind perform_blind
  · exact blind_throw _

/-- What each of several commands prints, or the error that it fails with. -/
def results : List SExpr → Session σ μ → List (Except Error (Option String))
  | [], _ => []
  | command :: rest, S =>
    ((execute command).run S).1 :: results rest ((execute command).run S).2

/-- Commands do the same in twins. -/
theorem Twins.run (h : Twins S S') (commands : List SExpr) :
    results commands S = results commands S' ∧
      Twins (after commands S) (after commands S') := by
  induction commands generalizing S S' with
  | nil => exact ⟨rfl, h⟩
  | cons command rest ih =>
    obtain ⟨hresult, hstates⟩ := execute_blind command S S' h
    obtain ⟨hresults, hafter⟩ := ih hstates
    exact ⟨by rw [results, results, hresult, hresults], hafter⟩

/-! ### After a reset -/

omit [Solver σ μ] in
theorem Passage.initial {command : SExpr} (h : Passage command S S') : S'.initial = S.initial := by
  cases h with
  | stay h => exact h.initial
  | activate => rfl
  | restart => rfl
  | close => exact released_initial S

/-- A session is closed by nothing but a command that does so. -/
theorem closed_by_exit {command : SExpr} (hopen : S.status ≠ .closed)
    (hclosed : ((execute command).run S : Except Error (Option String) × Session σ μ).2.status =
      .closed) :
    command.Requests .exit ∧
      ((execute command).run S : Except Error (Option String) × Session σ μ).1.isOk = true := by
  have hpasses := execute_passes command S
  generalize hrun : ((execute command).run S : Except Error (Option String) × Session σ μ).2 = S'
    at hpasses hclosed
  cases hpasses with
  | stay h => exact absurd (h.status.symm.trans hclosed) hopen
  | activate => cases hclosed
  | restart => cases hclosed
  | close hrequest =>
    refine ⟨hrequest, ?_⟩
    rw [run_execute hrequest hopen,
      show (perform .exit).run S = _ from run_bind_ok (run_exit_open hopen)]
    rfl

/-- Commands of which none ends a session leave it open, and its first configuration alone. -/
theorem after_open (S : Session σ μ) (hopen : S.status ≠ .closed) (commands : List SExpr)
    (hexit : ∀ earlier command later, commands = earlier ++ command :: later →
      command.Requests .exit → ((execute command).run (after earlier S)).1.isOk = false) :
    (after commands S).status ≠ .closed ∧ (after commands S).initial = S.initial := by
  induction commands generalizing S with
  | nil => exact ⟨hopen, rfl⟩
  | cons command rest ih =>
    have hfirst : ((execute command).run S : Except Error (Option String) × Session σ μ).2.status ≠
        .closed := fun hclosed => by
      obtain ⟨hrequest, hok⟩ := closed_by_exit hopen hclosed
      exact Bool.eq_false_iff.mp (hexit [] command rest rfl hrequest) hok
    obtain ⟨hstatus, hinitial⟩ := ih _ hfirst fun earlier c later hrest =>
      hexit (command :: earlier) c later (congrArg (command :: ·) hrest)
    exact ⟨hstatus, hinitial.trans (execute_passes command S).initial⟩

/-- Unless a session has been closed, a reset succeeds, and after it all commands give the same
results as in a new session with the configuration that the old one began with. They lead to
sessions that differ in the numbers of their leases only. -/
theorem reset_starts_again (configuration : Configuration) {commands : List SExpr}
    (hexit : ∀ earlier command later, commands = earlier ++ command :: later →
      command.Requests .exit →
        ((execute command).run (after earlier (start configuration : Session σ μ))).1.isOk = false)
    {reset : SExpr} (hreset : reset.Requests .reset) (later : List SExpr) :
    let new : Session σ μ := start configuration
    let S := after (commands ++ [reset]) new
    ((execute reset).run (after commands new)).1 = .ok none ∧
      results later S = results later new ∧
      (after later S).status = (after later new).status ∧
      (after later S).assertions = (after later new).assertions ∧
      (after later S).assertions.depth = (after later new).assertions.depth ∧
      Twins (after later new) (after later S) := by
  intro new S
  obtain ⟨hopen, hinitial⟩ := after_open new nofun commands hexit
  have hrun : (execute reset).run (after commands new) = (.ok none, { start configuration with
      contexts := (after commands new).released.contexts
      models := (after commands new).released.models }) := by
    rw [run_execute hreset hopen,
      show (perform .reset).run _ = _ from run_bind_ok (run_reset_open hopen), hinitial]
    rfl
  have hS : S = { new with
      contexts := (after commands new).released.contexts
      models := (after commands new).released.models } :=
    (after_concat commands reset new).trans (congrArg Prod.snd hrun)
  have htwins : Twins new S := ⟨none, none, _, _, hS, rfl, rfl⟩
  obtain ⟨hresults, hafter⟩ := htwins.run later
  refine ⟨congrArg Prod.fst hrun, hresults.symm, ?_, ?_, ?_, hafter⟩
  all_goals
    obtain ⟨_, _, _, _, heq, _⟩ := hafter
    rw [heq]

/-- The seed and the logic that a session has been told of are forgotten with the rest. -/
theorem reset_starts_again_seeded :
    let atom : String → SExpr := .atom
    let commands : List SExpr := [.list [atom "set-option", atom ":random-seed", atom "5"],
      .list [atom "set-logic", atom "QF_LRA"],
      .list [atom "declare-const", atom "x", atom "Real"], .list [atom "push"]]
    let reset : SExpr := .list [atom "reset"]
    let later : List SExpr := [.list [atom "get-option", atom ":random-seed"], .list [atom "push"],
      .list [atom "set-logic", atom "QF_LIA"]]
    let new : Session Engine Engine.Model := start (.ofSolver "z3")
    (∀ earlier command rest, commands = earlier ++ command :: rest → command.Requests .exit →
        ((execute command).run (after earlier new)).1.isOk = false) ∧
      reset.Requests .reset ∧
      results later (after (commands ++ [reset]) new) = results later new := by
  intro atom commands reset later new
  have hclears : ∀ command ∈ commands, command.clears = false := by decide +kernel
  have hexit (earlier : List SExpr) (command : SExpr) (rest : List SExpr)
      (hcommands : commands = earlier ++ command :: rest) (hrequest : command.Requests .exit) :
      ((execute command).run (after earlier new)).1.isOk = false := by
    have hmem : command ∈ commands := by simp [hcommands]
    have hend := hrequest.clears (.inr (.inr rfl))
    exact absurd hend (by simp [hclears command hmem])
  have hreset : reset.Requests .reset := .intro rfl rfl
  exact ⟨hexit, hreset, (reset_starts_again (.ofSolver "z3") hexit hreset later).2.1⟩

end Session

end SmtScript
