import Mathlib
import SmtScript.Proofs.Session.Brackets
import SmtScript.Proofs.Session.Tidy

/-!
What failures and queries leave alone.

A query changes nothing that a session has been told, whether it fails or not, and a command that
fails does not either, `failures_and_queries_intact`. There are two exceptions. An option with a
bad value is recorded all the same. An assertion that the solver refuses may have sent the
constraints of integer parts before it; each of them is noted at the top level, so that it goes
away with the level.
-/

namespace SmtScript

open Solver Step

/-- Whether a command only asks. -/
def Command.isQuery : Command → Bool
  | .checkSat _ | .getValue _ | .getModel | .getAssertions | .getUnsatCore | .getInfo _
  | .getOption _ | .echo _ => true
  | _ => false

/-- Adds items at the top level, one after the other. -/
def Levels.addAll {α : Type} (levels : Levels α) (items : List α) : Levels α :=
  items.foldl Levels.add levels

theorem Levels.addAll_append {α : Type} (levels : Levels α) (items later : List α) :
    levels.addAll (items ++ later) = (levels.addAll items).addAll later :=
  List.foldl_append

namespace Session

variable {σ μ α β : Type} [Solver σ μ] [ScopedSolver σ μ] {S S' S'' : Session σ μ}

/-- Whether two sessions agree in all but what translation has made, the model, and the constraints
of integer parts. -/
structure Unaltered (S S' : Session σ μ) : Prop where
  status : S'.status = S.status
  logic : S'.logic = S.logic
  configuration : S'.configuration = S.configuration
  assertions : S'.assertions = S.assertions
  depth : S'.context.map (·.2.depth) = S.context.map (·.2.depth)
  names : S'.names = S.names
  sorts : S'.sorts = S.sorts
  info : S'.info = S.info

/-- Whether the integer parts that are defined and the formulas of the solver are the same, too. -/
structure Intact (S S' : Session σ μ) : Prop extends Unaltered S S' where
  definedParts : S'.definedParts = S.definedParts
  formulas : S'.held? = S.held?

/-- Whether the solver has got the constraints of some integer parts at its top level, and they are
recorded at the top level of the session. -/
structure Supplied (parts : IntegerParts) (S S' : Session σ μ) : Prop
    extends Unaltered S S' where
  known : ∀ p ∈ parts, p ∈ S'.terms.integerParts
  definedParts : S'.definedParts = S.definedParts.addAll (parts.map Prod.fst)
  formulas : S'.held? = S.held?.map (·.addAll parts.constraints)

omit [Solver σ μ] [ScopedSolver σ μ] in
theorem Unaltered.trans (h : Unaltered S S') (h' : Unaltered S' S'') : Unaltered S S'' :=
  ⟨h'.status.trans h.status, h'.logic.trans h.logic, h'.configuration.trans h.configuration,
    h'.assertions.trans h.assertions, h'.depth.trans h.depth, h'.names.trans h.names,
    h'.sorts.trans h.sorts, h'.info.trans h.info⟩

theorem closed_intact : Step.Closed (Intact (σ := σ) (μ := μ)) where
  refl _ := ⟨⟨rfl, rfl, rfl, rfl, rfl, rfl, rfl, rfl⟩, rfl, rfl⟩
  trans h h' := ⟨h.toUnaltered.trans h'.toUnaltered, h'.definedParts.trans h.definedParts,
    h'.formulas.trans h.formulas⟩

theorem Intact.supplied (h : Intact S S') : Supplied [] S S' :=
  ⟨h.toUnaltered, by simp, h.definedParts, by rw [h.formulas]; exact Option.map_id'.symm⟩

theorem Supplied.trans {parts later : IntegerParts} (h : Supplied parts S S')
    (h' : Supplied later S' S'') (hparts : S''.terms.integerParts = S'.terms.integerParts) :
    Supplied (parts ++ later) S S'' := by
  refine ⟨h.toUnaltered.trans h'.toUnaltered, fun p hp => ?_, ?_, ?_⟩
  · rcases List.mem_append.mp hp with hp | hp
    · exact hparts ▸ h.known p hp
    · exact h'.known p hp
  · rw [h'.definedParts, h.definedParts, List.map_append, Levels.addAll_append]
  · rw [h'.formulas, h.formulas, Option.map_map, IntegerParts.constraints,
      IntegerParts.constraints, IntegerParts.constraints, List.map_append]
    exact congrArg (S.held?.map ·) (funext fun levels => (levels.addAll_append _ _).symm)

/-! ### Parts of a step -/

theorem intact_terms (S : Session σ μ) (terms : TermState) : Intact S { S with terms } :=
  ⟨⟨rfl, rfl, rfl, rfl, rfl, rfl, rfl, rfl⟩, rfl, rfl⟩

theorem intact_dropped (S : Session σ μ) : Intact S S.dropped := by
  unfold dropped
  split
  · exact closed_intact.refl S
  · exact ⟨⟨rfl, rfl, rfl, rfl, rfl, rfl, rfl, rfl⟩, rfl, rfl⟩

/-- What the context notes of the last check is no part of what is kept. -/
theorem intact_mapContext (S : Session σ μ) {f : Context σ → Context σ}
    (hf : ∀ c, (f c).solver = c.solver ∧ (f c).depth = c.depth) : Intact S (S.mapContext f) := by
  refine ⟨⟨rfl, rfl, rfl, rfl, ?_, rfl, rfl, rfl⟩, rfl, ?_⟩
  · cases hcontext : S.context <;> simp [mapContext, hcontext, hf]
  · rw [held?, held?, solver?_mapContext S fun c => (hf c).1]

/-- A call of the solver that leaves its formulas as they are. -/
theorem Called.intact {call : SolverCall σ α} {r : Except Fault α} (h : Called call S r S')
    (hheld : ∀ {solver solver' table'}, call.run (solver, S.terms.table) = (r, solver', table') →
      ScopedSolver.held solver' = ScopedSolver.held solver) : Intact S S' := by
  cases h with
  | intro hcontext hsolver hrun =>
    refine ⟨⟨rfl, rfl, rfl, rfl, ?_, rfl, rfl, rfl⟩, rfl, ?_⟩
    · simp [hcontext]
    · simp [held?, solver?, hcontext, hsolver, hheld hrun]

theorem Called.refused_intact {call : SolverCall σ α} {e : Fault} (hoffers : Offers call)
    (h : Called call S (.error e) S') : Intact S S' :=
  h.intact fun hrun => ScopedSolver.refused hoffers hrun

omit [ScopedSolver σ μ] [Solver σ μ] in
/-- A step that fails with a call of the solver or after it. -/
theorem stops_call_change {E : Error → Session σ μ → Prop} {toError : Fault → Error}
    {call : SolverCall σ Unit} {f : Context σ → Context σ} {next : Unit → SessionStep σ μ β}
    (hrefused : ∀ e, E e S) (herror : ∀ e S₁, Called call S (.error e) S₁ → E (toError e) S₁)
    (hok : ∀ S₁, Called call S (.ok ()) S₁ → Stops E (next ()) (S₁.mapContext f)) :
    Stops E (onContext (do Context.call toError call; Context.change f) >>= next) S := by
  rcases run_call_cases S toError call fun _ => Context.change f with
    ⟨e, he⟩ | ⟨e, S₁, hcalled, he⟩ | ⟨_, S₁, hcalled, h⟩
  · exact .of_error (run_bind_error he) (hrefused e)
  · exact .of_error (run_bind_error he) (herror e S₁ hcalled)
  · intro e S' hrun
    rw [run_bind_ok (h.trans (hcalled.run_change f))] at hrun
    exact hok S₁ hcalled e S' hrun

theorem onTerms_intact (step : Translation α) (S : Session σ μ) :
    Leads Intact (onTerms step) S fun _ _ => True :=
  .of_run (run_onTerms step S) (intact_terms S _) fun _ _ => trivial

theorem parseTerm_intact (sexpr : SExpr) (S : Session σ μ) :
    Leads Intact (parseTerm sexpr) S fun _ _ => True :=
  .get (onTerms_intact _ S)

theorem parseTerms_intact (sexprs : List SExpr) (S : Session σ μ) :
    Leads Intact (parseTerms sexprs) S fun _ _ => True := by
  induction sexprs generalizing S with
  | nil => exact .pure closed_intact trivial
  | cons sexpr rest ih =>
    refine .bind closed_intact (parseTerm_intact sexpr S) fun _ S₁ _ _ => ?_
    exact .bind closed_intact (ih S₁) fun _ _ _ _ => .pure closed_intact trivial

theorem onModel_intact (step : PartStep μ α) (S : Session σ μ) :
    Leads Intact (onModel step) S fun _ _ => True :=
  .of_run (run_onModel step S) ⟨⟨rfl, rfl, rfl, rfl, rfl, rfl, rfl, rfl⟩, rfl, rfl⟩
    fun _ _ => trivial

theorem dropModel_intact (S : Session σ μ) : Leads Intact dropModel S fun _ _ => True :=
  .of_run (run_dropModel S) (intact_dropped S) fun _ _ => trivial

/-! ### Queries -/

theorem check_intact (assumptions : List Term) (S : Session σ μ) :
    Leads Intact (onContext (Context.check assumptions)) S fun _ _ => True := by
  refine leads_call_last (closed_intact.refl S) (fun e S₁ hcalled => ?_) fun r S₁ hcalled => ?_
  · obtain ⟨outcome, houtcome, _⟩ := called_outcome hcalled
    cases houtcome
  · obtain ⟨outcome, houtcome, hcalled'⟩ := called_outcome hcalled
    obtain rfl := Except.ok.inj houtcome
    have hintact := hcalled'.intact fun hrun => held_satisfiable hrun
    split
    · rename_i status _
      exact .of_run (hcalled.run_change_return _ status)
        (closed_intact.trans hintact (intact_mapContext S₁ fun _ => ⟨rfl, rfl⟩))
        fun _ _ => trivial
    · exact .of_run (hcalled.run_throw _) hintact nofun

theorem checkSat_intact (assumptions : List SExpr) (S : Session σ μ) :
    Leads Intact (checkSat assumptions) S fun _ _ => True := by
  refine .bind closed_intact (requireActive_leads closed_intact S) fun _ S₁ _ _ => ?_
  refine .bind closed_intact (dropModel_intact S₁) fun _ S₂ _ _ => ?_
  refine .bind closed_intact (parseTerms_intact assumptions S₂) fun ts S₃ _ _ => ?_
  exact .get (check_intact _ S₃)

theorem ensureModel_intact (S : Session σ μ) : Leads Intact ensureModel S fun _ _ => True := by
  refine .bind closed_intact (requireActive_leads closed_intact S) fun _ S₁ _ _ => ?_
  refine .get ?_
  split
  · exact .pure closed_intact trivial
  · refine .guarded (closed_intact.refl _) (run_model_cases S₁) fun _ => ?_
    rw [← bind_pure (Context.call _ _)]
    refine leads_call (closed_intact.refl _) (fun e S₂ hcalled => hcalled.refused_intact .model)
      fun model S₂ hcalled => ?_
    refine .bind_of_run (hcalled.run_pure model) ?_
    have h := hcalled.intact fun hrun => ScopedSolver.model hrun
    exact .modify ⟨⟨h.status, h.logic, h.configuration, h.assertions, h.depth, h.names, h.sorts,
      h.info⟩, h.definedParts, h.formulas⟩ trivial

theorem evaluateAll_intact (ts : List Term) (S : Session σ μ) :
    Leads Intact (evaluateAll ts) S fun _ _ => True := by
  induction ts generalizing S with
  | nil => exact .pure closed_intact trivial
  | cons t rest ih =>
    refine .bind closed_intact (onModel_intact _ S) fun _ S₁ _ _ => ?_
    exact .bind closed_intact (ih S₁) fun _ _ _ _ => .pure closed_intact trivial

theorem getValue_intact (sexprs : List SExpr) (S : Session σ μ) :
    Leads Intact (getValue sexprs) S fun _ _ => True := by
  refine .bind closed_intact (requireActive_leads closed_intact S) fun _ S₁ _ _ => ?_
  refine .bind closed_intact (parseTerms_intact sexprs S₁) fun ts S₂ _ _ => ?_
  refine .bind closed_intact (ensureModel_intact S₂) fun _ S₃ _ _ => ?_
  exact .bind closed_intact (evaluateAll_intact ts S₃) fun _ _ _ _ => .pure closed_intact trivial

theorem modelEntry_intact (name : String) (binding : Binding) (S : Session σ μ) :
    Leads Intact (modelEntry name binding) S fun _ _ => True := by
  unfold modelEntry
  split
  · split
    · exact .bind closed_intact (onModel_intact _ S) fun _ _ _ _ => .pure closed_intact trivial
    · exact .bind closed_intact (onModel_intact _ S) fun _ _ _ _ => .pure closed_intact trivial
  · exact .pure closed_intact trivial

theorem modelEntries_intact (entries : List (String × Binding)) (S : Session σ μ) :
    Leads Intact (modelEntries entries) S fun _ _ => True := by
  induction entries generalizing S with
  | nil => exact .pure closed_intact trivial
  | cons entry rest ih =>
    refine .bind closed_intact (modelEntry_intact entry.1 entry.2 S) fun _ S₁ _ _ => ?_
    exact .bind closed_intact (ih S₁) fun _ _ _ _ => .pure closed_intact trivial

theorem getModel_intact (S : Session σ μ) : Leads Intact getModel S fun _ _ => True :=
  .bind closed_intact (ensureModel_intact S) fun _ S₁ _ _ => .get (modelEntries_intact _ S₁)

theorem getUnsatCore_intact (S : Session σ μ) :
    Leads Intact getUnsatCore S fun _ _ => True := by
  refine .bind closed_intact (requireActive_leads closed_intact S) fun _ S₁ _ _ => ?_
  rw [← bind_pure (onContext Context.core)]
  refine .guarded (closed_intact.refl _) (run_core_cases S₁) fun _ => ?_
  rw [← bind_pure (Context.call _ _)]
  refine leads_call (closed_intact.refl _) (fun e S₂ hcalled => hcalled.refused_intact .core)
    fun ts S₂ hcalled => ?_
  refine .bind_of_run (hcalled.run_pure ts) ?_
  exact .of_run (run_pure _ _) (hcalled.intact fun hrun => ScopedSolver.core hrun)
    fun _ _ => trivial

/-- A query leaves everything alone, whether it fails or not. -/
theorem perform_query_intact {command : Command} (hquery : command.isQuery = true)
    (S : Session σ μ) : Leads Intact (perform command) S fun _ _ => True := by
  have hpure (a : Option String) :
      Leads Intact (pure a : SessionStep σ μ _) S fun _ _ => True := .pure closed_intact trivial
  have hactive := requireActive_leads closed_intact S
  have hresult {α : Type} {x : SessionStep σ μ α} {f : α → Option String}
      (h : Leads Intact x S fun _ _ => True) :
      Leads Intact (do return f (← x) : SessionStep σ μ (Option String)) S fun _ _ => True :=
    leads_result (P := fun _ => True) h
  cases command with
  | checkSat assumptions => exact hresult (checkSat_intact assumptions S)
  | getValue sexprs => exact hresult (getValue_intact sexprs S)
  | getModel =>
    exact .bind closed_intact hactive fun _ S₁ _ h => h.1 ▸ hresult (getModel_intact S)
  | getAssertions => exact .bind closed_intact hactive fun _ S₁ _ h => .get (h.1 ▸ hpure _)
  | getUnsatCore => exact hresult (getUnsatCore_intact S)
  | getInfo keyword =>
    refine hresult (.bind closed_intact (requireOpen_leads closed_intact S) fun _ S₁ _ _ => ?_)
    refine .get ?_
    split
    · exact .pure closed_intact trivial
    · exact .throw closed_intact _
  | getOption keyword =>
    refine hresult (.bind closed_intact (requireOpen_leads closed_intact S) fun _ S₁ _ _ => ?_)
    refine .get ?_
    split
    · exact .pure closed_intact trivial
    · exact .throw closed_intact _
  | echo text => exact hpure _
  | _ => cases hquery

/-! ### Failures -/

/-- Whether a step that fails leaves everything alone. -/
abbrev StopsIntact (x : SessionStep σ μ α) (S : Session σ μ) : Prop :=
  Stops (fun _ S' => Intact S S') x S

/-- A step that leaves the session alone comes first. -/
theorem stopsIntact_same {x : SessionStep σ μ α} {f : α → SessionStep σ μ β}
    {Q : Session σ μ → α → Prop} (hx : Leads Eq x S Q)
    (hf : ∀ a, Q S a → StopsIntact (f a) S) : StopsIntact (x >>= f) S :=
  .bind_leads hx (fun _ _ h => h ▸ closed_intact.refl S) fun a _ h hQ => by
    subst h
    exact hf a hQ

theorem stopsIntact_after {x : SessionStep σ μ α} {f : α → SessionStep σ μ β}
    {Q : Session σ μ → α → Prop} (hx : Leads Intact x S Q)
    (hf : ∀ a S', StopsIntact (f a) S') : StopsIntact (x >>= f) S :=
  .bind_leads hx (fun _ _ => id) fun a S' h _ =>
    (hf a S').mono fun _ _ => closed_intact.trans h

theorem stopsIntact_throw (e : Error) : StopsIntact (throw e : SessionStep σ μ α) S :=
  Stops.throw (closed_intact.refl S)

theorem setLogic_stops (logic : String) (S : Session σ μ) : StopsIntact (setLogic logic) S := by
  refine stopsIntact_same (requireOpen_leads closed_eq S) fun _ _ => .get ?_
  by_cases hactive : S.status = .active
  · simp only [hactive, if_true]
    exact .of_error (run_bind_error (run_throw _ S)) (closed_intact.refl S)
  · simp only [hactive, if_false]
    split
    · exact stopsIntact_throw _
    · exact .of_ok (run_set _ _)

theorem setInfo_stops (keyword value : String) (S : Session σ μ) :
    StopsIntact (setInfo keyword value) S :=
  stopsIntact_same (requireOpen_leads closed_eq S) fun _ _ => .modify _

theorem declareSort_stops (name : String) (arity : Nat) (S : Session σ μ) :
    StopsIntact (declareSort name arity) S :=
  stopsIntact_same (requireOpen_leads closed_eq S) fun _ _ => .get <|
    stopsIntact_same (ofExcept_leads _ S) fun _ _ => .modify _

theorem newSymbol_intact (name : String) (sort : SmtSort) (S : Session σ μ) :
    Leads Intact (newSymbol name sort) S fun _ _ => True := by
  refine .get ?_
  dsimp only
  split
  · exact onTerms_intact _ S
  · split
    · exact .throw closed_intact _
    · exact .bind closed_intact (.modify (Q := fun _ _ => True) (intact_terms S _) trivial)
        fun _ _ _ _ => .pure closed_intact trivial

theorem declareFun_stops (name : String) (domains : List SExpr) (codomain : SExpr)
    (S : Session σ μ) : StopsIntact (declareFun name domains codomain) S := by
  refine stopsIntact_same (requireOpen_leads closed_eq S) fun _ _ => .get ?_
  refine stopsIntact_same (ofExcept_leads _ S) fun domains _ => ?_
  refine stopsIntact_same (ofExcept_leads _ S) fun codomain _ => ?_
  refine stopsIntact_after (newSymbol_intact name _ S) fun symbol S' => ?_
  exact .of_ok (run_bind_ok (run_modify _ S'))

theorem declareParameters_intact (name : String) (parameters : List SExpr) (S : Session σ μ) :
    Leads Intact (declareParameters name parameters) S fun _ _ => True := by
  induction parameters generalizing S with
  | nil => exact .pure closed_intact trivial
  | cons parameter rest ih =>
    unfold declareParameters
    split
    · cases ‹_ = _›
    · rename_i heq
      obtain ⟨rfl, rfl⟩ := List.cons.inj heq
      refine .get ?_
      refine .bind_same (closed_intact.refl S) (ofExcept_leads _ S) fun sort _ => ?_
      refine .bind closed_intact (onTerms_intact _ S) fun symbol S₁ _ _ => ?_
      exact .bind closed_intact (ih S₁) fun _ _ _ _ => .pure closed_intact trivial
    · exact .throw closed_intact _

theorem defineFun_stops (name : String) (parameters : List SExpr) (codomain body : SExpr)
    (S : Session σ μ) : StopsIntact (defineFun name parameters codomain body) S := by
  refine stopsIntact_same (requireOpen_leads closed_eq S) fun _ _ => .get ?_
  refine stopsIntact_same (ofExcept_leads _ S) fun sort _ => ?_
  refine stopsIntact_after (declareParameters_intact name parameters S) fun parameters S₁ => .get ?_
  refine stopsIntact_after (onTerms_intact _ S₁) fun t S₂ => ?_
  refine stopsIntact_same (ofExcept_leads _ S₂) fun u _ => ?_
  split <;> exact .of_ok (run_modify _ S₂)

theorem push_stops (levels : Nat) (S : Session σ μ) : StopsIntact (push levels) S := by
  refine stopsIntact_same (requireActive_leads closed_eq S) fun _ _ => ?_
  refine stopsIntact_after (dropModel_intact S) fun _ S₁ => ?_
  exact stops_call_change (fun _ => closed_intact.refl S₁)
    (fun _ _ hcalled => hcalled.refused_intact (.push _)) fun _ _ => .modify _

theorem pop_stops (levels : Nat) (S : Session σ μ) : StopsIntact (pop levels) S := by
  refine stopsIntact_same (requireActive_leads closed_eq S) fun _ _ => .get ?_
  dsimp only
  by_cases hdepth : S.assertions.depth ≤ levels
  · simp only [hdepth, if_true]
    exact .of_error (run_bind_error (run_throw _ S)) (closed_intact.refl S)
  · simp only [hdepth, if_false]
    refine stopsIntact_after (dropModel_intact S) fun _ S₁ => ?_
    rcases run_pop_cases levels S₁ with ⟨e, he⟩ | ⟨_, h⟩
    · exact .of_error (run_bind_error he) (closed_intact.refl S₁)
    · intro e S' hrun
      rw [run_bind, h, ← run_bind] at hrun
      exact stops_call_change (E := fun _ S' => Intact S₁ S') (fun _ => closed_intact.refl S₁)
        (fun _ _ hcalled => hcalled.refused_intact (.pop _)) (fun _ _ => .modify _) e S' hrun

theorem resetAssertions_stops (S : Session σ μ) : StopsIntact resetAssertions S := by
  refine stopsIntact_same (requireActive_leads closed_eq S) fun _ _ => ?_
  refine stopsIntact_after (dropModel_intact S) fun _ S₁ => ?_
  exact stops_call_change (fun _ => closed_intact.refl S₁)
    (fun _ _ hcalled => hcalled.refused_intact .reset) fun _ _ => .modify _

theorem reset_stops (S : Session σ μ) : StopsIntact reset S := by
  rcases run_reset S with ⟨e, he⟩ | ⟨contexts, models, h⟩
  · exact .of_error he (closed_intact.refl S)
  · exact .of_ok h

theorem exit_stops (S : Session σ μ) : StopsIntact exit S :=
  stopsIntact_same (requireOpen_leads closed_eq S) fun _ _ => .of_ok (run_bind_ok (run_release S))

/-- A command other than an option or an assertion leaves everything alone if it fails. -/
theorem perform_stops {command : Command} (S : Session σ μ)
    (hoption : ∀ keyword value, command ≠ .setOption keyword value)
    (hassert : ∀ sexpr, command ≠ .assertTerm sexpr) : StopsIntact (perform command) S := by
  have hquery (hquery : command.isQuery = true) : StopsIntact (perform command) S :=
    (perform_query_intact hquery S).stops
  cases command with
  | setLogic logic => exact .bind (setLogic_stops logic S) fun _ _ _ => .pure _
  | setOption keyword value => exact absurd rfl (hoption keyword value)
  | setInfo keyword value => exact .bind (setInfo_stops keyword value S) fun _ _ _ => .pure _
  | ignoreInfo => exact .pure _
  | push levels => exact .bind (push_stops levels S) fun _ _ _ => .pure _
  | pop levels => exact .bind (pop_stops levels S) fun _ _ _ => .pure _
  | resetAssertions => exact .bind (resetAssertions_stops S) fun _ _ _ => .pure _
  | reset => exact .bind (reset_stops S) fun _ _ _ => .pure _
  | exit => exact .bind (exit_stops S) fun _ _ _ => .pure _
  | declareSort name arity => exact .bind (declareSort_stops name arity S) fun _ _ _ => .pure _
  | declareFun name domains codomain =>
    exact .bind (declareFun_stops name domains codomain S) fun _ _ _ => .pure _
  | defineFun name parameters codomain body =>
    exact .bind (defineFun_stops name parameters codomain body S) fun _ _ _ => .pure _
  | assertTerm sexpr => exact absurd rfl (hassert sexpr)
  | unsupported head sexpr isQuery =>
    cases isQuery with
    | false => exact stopsIntact_throw _
    | true =>
      exact stopsIntact_same (requireActive_leads closed_eq S) fun _ _ => stopsIntact_throw _
  | _ => exact hquery rfl

/-! ### Assertions that fail -/

/-- Whether nothing has come about but the constraints of some integer parts that exist. -/
structure Supplies (S S' : Session σ μ) : Prop where
  parts : ∃ parts, Supplied parts S S'
  integerParts : S'.terms.integerParts = S.terms.integerParts

theorem closed_supplies : Step.Closed (Supplies (σ := σ) (μ := μ)) where
  refl S := ⟨⟨[], (closed_intact.refl S).supplied⟩, rfl⟩
  trans := by
    rintro S S' S'' ⟨⟨parts, h⟩, hparts⟩ ⟨⟨later, h'⟩, hlater⟩
    exact ⟨⟨parts ++ later, h.trans h' hlater⟩, hlater.trans hparts⟩

/-- The constraint of an integer part is sent and recorded. -/
theorem Called.supplies {symbol : Symbol} {operand : Term}
    (h : Called (Solver.add (integerPartConstraint symbol operand)) S (.ok ()) S')
    (hknown : (symbol, operand) ∈ S.terms.integerParts) : Supplies S (S'.withDefined symbol) := by
  cases h with
  | intro hcontext hsolver hrun =>
    refine ⟨⟨[(symbol, operand)], ⟨rfl, rfl, rfl, rfl, ?_, rfl, rfl, rfl⟩, ?_, rfl, ?_⟩, rfl⟩
    · simp [withDefined, mapContext, hcontext]
    · exact List.forall_mem_singleton.mpr hknown
    · simp [withDefined, mapContext, held?, solver?, hcontext, hsolver, ScopedSolver.add hrun,
        IntegerParts.constraints, Levels.addAll]

theorem Called.refused_supplies {call : SolverCall σ α} {e : Fault} (hoffers : Offers call)
    (h : Called call S (.error e) S') : Supplies S S' :=
  ⟨⟨[], (h.refused_intact hoffers).supplied⟩, h.integerParts⟩

theorem defineParts_supplies {parts : IntegerParts}
    (hknown : ∀ p ∈ parts, p ∈ S.terms.integerParts) :
    Leads Supplies (defineParts parts) S fun _ _ => True := by
  induction parts generalizing S with
  | nil => exact .pure closed_supplies trivial
  | cons part rest ih =>
    obtain ⟨symbol, operand⟩ := part
    obtain ⟨hfirst, hrest⟩ := List.forall_mem_cons.mp hknown
    rw [defineParts]
    unfold Context.add
    refine leads_call_change (closed_supplies.refl S)
      (fun e S₁ hcalled => hcalled.refused_supplies (.add _)) fun S₁ hcalled => ?_
    have hstep := hcalled.supplies hfirst
    refine .bind_of_run (run_modify _ _) ?_
    have hlater := ih fun p hp => hstep.integerParts ▸ hrest p hp
    exact hlater.weaken fun _ => closed_supplies.trans hstep

theorem assertTerm_stops (sexpr : SExpr) (S : Session σ μ) :
    Stops (fun _ S' => ∃ parts, Supplied parts S S') (assertTerm sexpr) S := by
  have hintact {S S₁ S' : Session σ μ} (h : Intact S S₁) (h' : Supplies S₁ S') :
      ∃ parts, Supplied parts S S' := by
    obtain ⟨⟨parts, hparts⟩, hsame⟩ := h'
    exact ⟨[] ++ parts, h.supplied.trans hparts hsame⟩
  unfold assertTerm
  refine .bind_leads (requireActive_leads closed_eq S)
    (fun _ S' h => h ▸ ⟨[], (closed_intact.refl S).supplied⟩) fun _ S₁ h₁ _ => ?_
  subst h₁
  refine .bind_leads (parseTerm_intact sexpr S) (fun _ _ h => ⟨[], h.supplied⟩)
    fun t S₂ h₂ _ => .get ?_
  have hknown : ∀ p ∈ S₂.undefinedParts [t], p ∈ S₂.terms.integerParts := fun p hp =>
    (IntegerParts.mem_reachable.mp (List.mem_filter.mp hp).1).mem
  refine .bind_leads (defineParts_supplies hknown) (fun _ _ h => hintact h₂ h) fun _ S₃ h₃ _ => ?_
  unfold Context.add
  refine stops_call_change (fun _ => hintact h₂ h₃) (fun e S₄ hcalled => ?_) fun S₄ _ => ?_
  · exact hintact h₂ (closed_supplies.trans h₃ (hcalled.refused_supplies (.add _)))
  · exact .of_ok (run_bind_ok (run_modify _ _))

/-! ### Commands -/

/-- A query that is executed leaves everything alone, and so does a command that fails, except that
an option may have been recorded, and that an assertion may have sent constraints of integer parts,
each of which is recorded. -/
theorem failures_and_queries_intact {command : SExpr} {result : Except Error (Option String)}
    (hrun : (execute command).run S = (result, S')) :
    (∀ query, command.Requests query → query.isQuery = true → Intact S S') ∧
      ∀ e, result = .error e → (∀ keyword value, ¬ command.Requests (.setOption keyword value)) →
        Intact S S' ∨
          ∃ sexpr parts, command.Requests (.assertTerm sexpr) ∧ Supplied parts S S' := by
  rcases run_execute_cases command S with ⟨e, he⟩ | ⟨request, hrequest, hperform⟩
  · obtain ⟨rfl, rfl⟩ := Prod.mk.inj (he.symm.trans hrun)
    have hintact := closed_intact.refl S
    exact ⟨fun _ _ _ => hintact, fun _ _ _ => .inl hintact⟩
  rw [hperform] at hrun
  refine ⟨fun query hquery hasks => ?_, ?_⟩
  · obtain rfl := hquery.unique hrequest
    exact (perform_query_intact hasks S _ _ hrun).1
  · rintro e rfl hoption
    by_cases hassert : ∃ sexpr, request = .assertTerm sexpr
    · obtain ⟨sexpr, rfl⟩ := hassert
      have hstops : Stops (fun _ S' => ∃ parts, Supplied parts S S')
          (perform (.assertTerm sexpr)) S := .bind (assertTerm_stops sexpr S) fun _ _ _ => .pure _
      obtain ⟨parts, hparts⟩ := hstops e S' hrun
      exact .inr ⟨sexpr, parts, hrequest, hparts⟩
    · refine .inl (perform_stops S (fun keyword value heq => ?_) (fun sexpr heq => ?_) e S' hrun)
      · exact hoption keyword value (heq ▸ hrequest)
      · exact hassert ⟨sexpr, heq⟩

/-- The solver refuses the integer part of a Real symbol as an assertion, but not its constraint
that is sent first. -/
theorem failures_and_queries_intact_refused :
    let x : SExpr := .atom "x"
    let S : Session Engine Engine.Model := after [.list [.atom "set-logic", .atom "QF_LIRA"],
      .list [.atom "declare-const", x, .atom "Real"]] (start (.ofSolver "z3"))
    let command : SExpr := .list [.atom "assert", .list [.atom "to_int", x]]
    ∃ result S', (execute command).run S = (result, S') ∧ result.isOk = false ∧
      (∀ query, command.Requests query → query.isQuery = true → Intact S S') ∧
        ∀ e, result = .error e →
          (∀ keyword value, ¬ command.Requests (.setOption keyword value)) →
            Intact S S' ∨
              ∃ sexpr parts, command.Requests (.assertTerm sexpr) ∧ Supplied parts S S' := by
  refine ⟨_, _, rfl, ?_, failures_and_queries_intact rfl⟩
  cbv
  rw [Term.symbols_eq]
  cbv

end Session

end SmtScript
