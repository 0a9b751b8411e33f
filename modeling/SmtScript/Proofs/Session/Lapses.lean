import SmtScript.Proofs.Session.Silence
import SmtScript.Proofs.Session.Slips

/-!
Commands that fail without a word.

A command fails without a word only if it has a slip in it, `Slip`, or asks for a value after a
substitution has been left unfinished, or if a call of the solver or a question to a model that it
makes fails in this way, `Lapse`. This is so of each operation of a session, and so of every
command, `Session.execute_owns`.
-/

namespace SmtScript

open Solver Step

/-- Whether a command asks a model. -/
def Command.asksModel : Command → Bool
  | .getValue _ | .getModel => true
  | _ => false

namespace Session

variable {σ μ α β : Type} [Solver σ μ] {S S₁ S' : Session σ μ} {command : SExpr}

/-! ### Contexts -/

/-- Whether there is a solver context as long as the session is active. -/
def Equipped (S : Session σ μ) : Prop := S.status = .active → S.context.isSome = true

omit [Solver σ μ] in
theorem Called.context {call : SolverCall σ α} {r : Except Fault α} (h : Called call S r S') :
    S'.context.isSome = true := by
  cases h
  rfl

theorem Move.equipped (h : Move S S') (hS : S.Equipped) : S'.Equipped := by
  cases h with
  | note | translate _ | bind _ _ | ask _ _ _ => exact hS
  | activate => exact fun _ => rfl
  | drop => simpa [Equipped] using hS
  | refuse _ hcalled | core _ hcalled | keep _ _ hcalled => exact fun _ => hcalled.context
  | assert _ _ hcalled | define _ _ hcalled | push _ hcalled | pop _ _ hcalled | clear _ hcalled
  | check _ _ hcalled => exact fun _ => by simpa [mapContext, withDefined] using hcalled.context
  | restart | exit =>
    intro hactive
    cases hactive

theorem Moves.equipped (h : Moves S S') (hS : S.Equipped) : S'.Equipped := by
  induction h with
  | refl => exact hS
  | tail _ hlast ih => exact hlast.equipped ih

theorem Reachable.equipped [GrowingSolver σ μ] (h : S.Reachable) : S.Equipped :=
  h.induction (fun _ => nofun) fun _ _ _ hmove hS => hmove.equipped hS

theorem Defining.status (h : Defining S S') : S'.status = S.status := by
  have hmoves := h.moves
  clear h
  induction hmoves with
  | refl => rfl
  | tail _ hlast ih => exact hlast.status.trans ih

/-! ### Causes -/

/-- The calls of the solver that a command makes. -/
inductive Makes : {α : Type} → Command → SolverCall σ α → Prop where
  | assert (sexpr : SExpr) (t : Term) : Makes (.assertTerm sexpr) (Solver.add t)
  | push (levels : Nat) : Makes (.push levels) (Solver.push levels)
  | pop (levels : Nat) : Makes (.pop levels) (Solver.pop levels)
  | reset : Makes .resetAssertions Solver.reset
  | check (assumptions : List SExpr) (ts : List Term) :
      Makes (.checkSat assumptions) (Solver.satisfiable ts)
  | model {request : Command} (h : request.asksModel = true) : Makes request Solver.model
  | core : Makes .getUnsatCore Solver.core

/-- Why a command fails without a word. -/
inductive Lapse (S : Session σ μ) (command : SExpr) (S' : Session σ μ) : Prop where
  /-- A part of the command is refused. -/
  | slip (h : S.Slip command)
  /-- A command before has left a substitution unfinished, which values are computed by. -/
  | unfinished {sexprs : List SExpr} (hrequest : command.Requests (.getValue sexprs))
      (h : S.terms.leftover ≠ none)
  /-- A call of the solver fails. -/
  | call {request : Command} {α : Type} {call : SolverCall σ α} {S₁ : Session σ μ}
      (hrequest : command.Requests request) (hmakes : Makes request call) (hmoves : Moves S S₁)
      (hcalled : Called call S₁ (.error .broken) S')
  /-- A question to the model is left unanswered. -/
  | question {request : Command} (hrequest : command.Requests request)
      (hasks : request.asksModel = true) (h : Baffled S S')

variable {request : Command} {sexpr : SExpr} {cause : Session σ μ → Prop}
  {next : Unit → SessionStep σ μ α}

/-! ### Conditions and sorts -/

omit [Solver σ μ] in
theorem requireOpen_owns (h : Owns cause (next ⟨⟩) S) : Owns cause (requireOpen >>= next) S := by
  refine Stops.bind (Stops.get ?_) fun _ S' hrun => ?_
  · split
    · exact Owns.throw rfl
    · exact Stops.pure _
  · obtain ⟨rfl, _⟩ := requireOpen_leads closed_eq S _ _ hrun
    exact h

omit [Solver σ μ] in
theorem requireActive_owns (h : S.status = .active → Owns cause (next ⟨⟩) S) :
    Owns cause (requireActive >>= next) S := by
  refine Stops.bind (requireOpen_owns (Stops.get ?_)) fun _ S' hrun => ?_
  · split
    · exact Owns.throw rfl
    · exact Stops.pure _
  · obtain ⟨rfl, hactive⟩ := requireActive_leads closed_eq S _ _ hrun
    exact h (hactive _ rfl).2

theorem ofExcept_lapses {result : Except Error α}
    (h : ∀ e, result = .error e → e.isSilent = true → S.Slip command) :
    Owns (Lapse S command) (ofExcept result) S₁ :=
  .mk fun e he hsilent => .slip (h e he hsilent)

theorem parseSort_lapses (sorts : SortTable) (hinside : sexpr.Inside command) :
    Owns (Lapse S command) (ofExcept (sorts.parse sexpr)) S₁ :=
  ofExcept_lapses fun _ he hsilent => .numeral ((SortTable.parse_silent he hsilent).mono hinside)

theorem parseSorts_lapses (sorts : SortTable) {sexprs : List SExpr}
    (hinside : ∀ s ∈ sexprs, s.Inside command) :
    Owns (Lapse S command) (ofExcept (sexprs.mapM sorts.parse)) S₁ := by
  refine ofExcept_lapses fun e he hsilent => ?_
  by_contra hslip
  have htold : ∀ s ∈ sexprs, Tells (·.isSilent = true) (sorts.parse s) := fun s hs _ he hsilent =>
    hslip (.numeral ((SortTable.parse_silent he hsilent).mono (hinside s hs)))
  exact Tells.mapM htold e he hsilent

/-! ### Terms -/

/-- Whether terms are read in a session as at the top level of another one. -/
structure Resumes (S S₁ : Session σ μ) : Prop where
  sorts : S₁.sorts = S.sorts
  names : S₁.names = S.names
  scope : S.Scope S.environment S₁.terms

theorem onTerms_lapses {step : Translation α} (h : Owns (fun _ => S.Slip command) step S₁.terms) :
    Owns (Lapse S command) (onTerms step) S₁ := by
  intro e S' hrun hsilent
  rw [run_onTerms] at hrun
  obtain ⟨he, rfl⟩ := Prod.mk.inj hrun
  exact .slip (h e _ (Prod.ext he rfl) hsilent)

theorem parseTerm_lapses (hS : S.Sound) (h : Resumes S S₁) (hinside : sexpr.Inside command) :
    Owns (Lapse S command) (parseTerm sexpr) S₁ := by
  refine Stops.get (onTerms_lapses ?_)
  rw [environment, h.sorts, h.names]
  exact (translate_slips hS).1 _ _ _ h.scope hinside

omit [Solver σ μ] in
theorem Resumes.parsed (h : Resumes S S₁) {t : Term}
    (hrun : (parseTerm sexpr).run S₁ = (.ok t, S')) : Resumes S S' := by
  have hterms : (translate S₁.sorts S₁.environment sexpr).run S₁.terms = (.ok t, S'.terms) := by
    obtain ⟨ht, rfl⟩ := Prod.mk.inj hrun
    exact Prod.ext ht rfl
  rw [environment, h.sorts, h.names] at hterms
  obtain ⟨_, rfl⟩ := Prod.mk.inj hrun
  exact ⟨h.sorts, h.names, h.scope.later hterms⟩

theorem parseTerms_lapses (hS : S.Sound) (h : Resumes S S₁) {sexprs : List SExpr}
    (hinside : ∀ s ∈ sexprs, s.Inside command) :
    Owns (Lapse S command) (parseTerms sexprs) S₁ := by
  induction sexprs generalizing S₁ with
  | nil => exact Stops.pure _
  | cons s rest ih =>
    obtain ⟨hfirst, hrest⟩ := List.forall_mem_cons.mp hinside
    refine Stops.bind (parseTerm_lapses hS h hfirst) fun t S₂ hrun => ?_
    exact Stops.bind (ih (h.parsed hrun) hrest) fun _ _ _ => Stops.pure _

omit [Solver σ μ] in
theorem Resumes.parsedAll (h : Resumes S S₁) {sexprs : List SExpr} {ts : List Term}
    (hrun : (parseTerms sexprs).run S₁ = (.ok ts, S')) : Resumes S S' := by
  induction sexprs generalizing S₁ ts with
  | nil =>
    obtain ⟨_, rfl⟩ := Prod.mk.inj hrun
    exact h
  | cons s rest ih =>
    rw [parseTerms, run_bind] at hrun
    split at hrun
    · rename_i t S₂ hfirst
      rw [run_bind] at hrun
      split at hrun
      · rename_i later S₃ hlater
        obtain ⟨_, rfl⟩ := Prod.mk.inj hrun
        exact ih (h.parsed hfirst) hlater
      · cases hrun
    · cases hrun

/-! ### Calls of the solver -/

theorem onContext_lapses {call : SolverCall σ α} {step : ContextStep σ β}
    (hends : Context.EndsIn call step) (hS : S.Equipped) (hrequest : command.Requests request)
    (hmakes : Makes request call) (hmoves : Moves S S₁) (hactive : S₁.status = .active) :
    Owns (Lapse S command) (onContext step) S₁ :=
  (onContext_owns hends (hmoves.equipped hS hactive)).mono fun _ _ h hsilent =>
    .call hrequest hmakes hmoves (h hsilent)

omit [Solver σ μ] in
/-- A step on the context that succeeds has made its call. -/
theorem called_of_run {call : SolverCall σ Unit} {toError : Fault → Error}
    {f : Context σ → Context σ}
    (hrun : (onContext (do Context.call toError call; Context.change f)).run S = (.ok (), S')) :
    ∃ S₁, Called call S (.ok ()) S₁ ∧ S' = S₁.mapContext f := by
  rcases run_call_cases S toError call fun _ => Context.change f with
    ⟨e, he⟩ | ⟨e, S₁, _, he⟩ | ⟨_, S₁, hcalled, heq⟩
  · cases he.symm.trans hrun
  · cases he.symm.trans hrun
  · rw [heq, hcalled.run_change f] at hrun
    exact ⟨S₁, hcalled, (Prod.mk.inj hrun).2.symm⟩

theorem push_lapses {levels : Nat} (hS : S.Equipped)
    (hrequest : command.Requests (.push levels)) :
    Owns (Lapse S command) (push levels) S := by
  refine requireActive_owns fun hactive => Stops.bind_of_run (run_dropModel S) ?_
  refine Stops.bind ?_ fun _ _ _ => Stops.modify _
  exact onContext_lapses (Context.endsIn_push levels) hS hrequest (.push levels)
    (.single (.drop S)) (by simpa using hactive)

theorem pop_lapses {levels : Nat} (hS : S.Equipped) (hrequest : command.Requests (.pop levels)) :
    Owns (Lapse S command) (pop levels) S := by
  refine requireActive_owns fun hactive => Stops.get ?_
  dsimp only
  by_cases hdepth : S.assertions.depth ≤ levels
  · simp only [hdepth, if_true]
    exact .of_error rfl nofun
  · simp only [hdepth, if_false]
    refine Stops.bind_of_run (run_dropModel S) ?_
    refine Stops.bind ?_ fun _ _ _ => Stops.modify _
    exact onContext_lapses (Context.endsIn_pop levels) hS hrequest (.pop levels)
      (.single (.drop S)) (by simpa using hactive)

theorem resetAssertions_lapses (hS : S.Equipped) (hrequest : command.Requests .resetAssertions) :
    Owns (Lapse S command) resetAssertions S := by
  refine requireActive_owns fun hactive => Stops.bind_of_run (run_dropModel S) ?_
  refine Stops.bind ?_ fun _ _ _ => Stops.modify _
  exact onContext_lapses Context.endsIn_reset hS hrequest .reset (.single (.drop S))
    (by simpa using hactive)

theorem getUnsatCore_lapses (hS : S.Equipped) (hrequest : command.Requests .getUnsatCore) :
    Owns (Lapse S command) getUnsatCore S :=
  requireActive_owns fun hactive =>
    onContext_lapses Context.endsIn_core hS hrequest .core .refl hactive

theorem ensureModel_lapses (hS : S.Equipped) (hrequest : command.Requests request)
    (hasks : request.asksModel = true) (hmoves : Moves S S₁) :
    Owns (Lapse S command) ensureModel S₁ := by
  refine requireActive_owns fun hactive => Stops.get ?_
  split
  · exact Stops.pure _
  · refine Stops.bind ?_ fun _ _ _ => Stops.modify _
    exact onContext_lapses Context.endsIn_model hS hrequest (.model hasks) hmoves hactive

omit [Solver σ μ] in
theorem onContext_leftover (step : ContextStep σ α) (S : Session σ μ) :
    Leads (fun S S' => S'.terms.leftover = S.terms.leftover) (onContext step) S
      fun _ _ => True := by
  cases hcontext : S.context with
  | none => exact .of_run (run_onContext_none step hcontext) rfl fun _ _ => trivial
  | some p => exact .of_run (run_onContext step hcontext) rfl fun _ _ => trivial

theorem ensureModel_leftover (S : Session σ μ) :
    Leads (fun S S' => S'.terms.leftover = S.terms.leftover) ensureModel S fun _ _ => True := by
  have hclosed : Step.Closed fun S S' : Session σ μ => S'.terms.leftover = S.terms.leftover :=
    ⟨fun _ => rfl, fun h h' => h'.trans h⟩
  refine .bind hclosed (requireActive_leads hclosed S) fun _ S₁ _ _ => .get ?_
  split
  · exact .pure hclosed trivial
  · exact .bind hclosed (onContext_leftover _ S₁) fun _ _ _ _ => .modify rfl trivial

/-! ### Declarations and options -/

omit [Solver σ μ] in
theorem newSymbol_owns (name : String) (sort : SmtSort) : Owns cause (newSymbol name sort) S := by
  refine Stops.get ?_
  dsimp only
  split
  · exact .of_ok rfl
  · split
    · exact Owns.throw rfl
    · exact .of_ok rfl

theorem declareFun_lapses {name : String} {domains : List SExpr} {codomain : SExpr}
    (hdomains : ∀ s ∈ domains, s.Inside command) (hcodomain : codomain.Inside command) :
    Owns (Lapse S command) (declareFun name domains codomain) S := by
  refine requireOpen_owns (Stops.get ?_)
  refine Stops.bind (parseSorts_lapses _ hdomains) fun _ _ _ => ?_
  refine Stops.bind (parseSort_lapses _ hcodomain) fun _ _ _ => ?_
  refine Stops.bind (newSymbol_owns _ _) fun _ _ _ => ?_
  exact Stops.bind (Stops.modify _) fun _ _ _ => Stops.pure _

theorem declareParameters_lapses (name : String) {parameters : List SExpr}
    (hinside : ∀ s ∈ parameters, s.Inside command) :
    Owns (Lapse S command) (declareParameters name parameters) S₁ := by
  induction parameters generalizing S₁ with
  | nil => exact Stops.pure _
  | cons parameter rest ih =>
    obtain ⟨hfirst, hrest⟩ := List.forall_mem_cons.mp hinside
    unfold declareParameters
    split
    · exact Stops.pure _
    · rename_i parameter sort rest' heq
      obtain ⟨rfl, rfl⟩ := List.cons.inj heq
      refine Stops.get ?_
      have hsort : sort.Inside command := (SExpr.inside_of_mem (by simp)).trans hfirst
      refine Stops.bind (parseSort_lapses _ hsort) fun _ _ _ => ?_
      refine Stops.bind (.of_ok rfl) fun _ _ _ => ?_
      exact Stops.bind (ih hrest) fun _ _ _ => Stops.pure _
    · exact Owns.throw rfl

theorem fitBody_told (name : String) (sort : SmtSort) (sexpr : SExpr) (body : Term) :
    Tells (·.isSilent = true) (fitBody name sort sexpr body) := by
  unfold fitBody
  split
  · exact (Term.told_mkToReal body).mapError fun _ hsilent => hsilent
  · split
    · exact .error (by simp [Error.isSilent])
    · exact .ok _

theorem defineFun_lapses (hS : S.Sound) {name : String} {parameters : List SExpr}
    {codomain body : SExpr} (hparameters : ∀ s ∈ parameters, s.Inside command)
    (hcodomain : codomain.Inside command) (hbody : body.Inside command) :
    Owns (Lapse S command) (defineFun name parameters codomain body) S := by
  refine requireOpen_owns (Stops.get ?_)
  refine Stops.bind (parseSort_lapses _ hcodomain) fun sort S₁ hsort => ?_
  obtain ⟨_, rfl⟩ := Prod.mk.inj hsort
  refine Stops.bind (declareParameters_lapses name hparameters) fun declared S₂ hrun => ?_
  obtain ⟨hopens, _⟩ := declareParameters_opens (c := []) kept_sound name parameters
    (show S.terms.Sound ∧ Names.Sound S.environment S.terms.Knows from ⟨hS.terms, hS.names⟩)
    trivial _ _ hrun
  have hsorts : S₂.sorts = S.sorts := by rw [hopens.rest]
  have hnames : S₂.environment = S.environment := by rw [environment, environment, hopens.rest]
  refine Stops.get (Stops.bind (onTerms_lapses ?_) fun t S₃ _ => ?_)
  · rw [hsorts, hnames]
    exact (translate_slips hS).1 _ _ _ (.defined hrun) hbody
  · refine Stops.bind (Owns.told (fitBody_told name sort body t)) fun _ _ _ => ?_
    split
    · exact Stops.modify _
    · exact Stops.modify _

omit [Solver σ μ] in
theorem declareSort_owns (name : String) (arity : Nat) :
    Owns cause (declareSort name arity) S := by
  refine requireOpen_owns (Stops.get ?_)
  refine Stops.bind (Owns.told ?_) fun _ _ _ => Stops.modify _
  unfold SortTable.declare
  split
  · exact .ok _
  · exact .error (by simp [Error.isSilent])

theorem setLogic_owns (logic : String) : Owns cause (setLogic (μ := μ) logic) S := by
  refine requireOpen_owns (Stops.get ?_)
  by_cases hactive : S.status = .active
  · simp only [hactive, if_true]
    exact .of_error rfl nofun
  · simp only [hactive, if_false]
    split
    · rename_i f hadmits
      refine Owns.throw ?_
      unfold Configuration.admits at hadmits
      split at hadmits
      · cases hadmits
        rfl
      · split at hadmits
        · cases hadmits
          rfl
        · cases hadmits
    · exact .of_ok rfl

theorem setOption_lapses {keyword value : String}
    (hvalue : Numeral.read value = .unreadable → S.Slip command) :
    Owns (Lapse S command) (setOption keyword value) S := by
  refine requireOpen_owns fun e S' hrun hsilent => .slip (hvalue ?_)
  obtain ⟨he, _⟩ := Prod.mk.inj hrun
  exact (Configuration.setOption_unreported (Prod.ext he rfl)
    (Error.report_eq_none.mpr (.inl hsilent))).2

variable [GrowingSolver σ μ]

/-! ### Assertions and checks -/

theorem defineParts_lapses {parts : IntegerParts} (hparts : S₁.Missing parts) (hS : S.Equipped)
    (hrequest : command.Requests (.assertTerm sexpr)) (hmoves : Moves S S₁)
    (hactive : S₁.status = .active) : Owns (Lapse S command) (defineParts parts) S₁ := by
  induction parts generalizing S₁ with
  | nil => exact Stops.pure _
  | cons part rest ih =>
    obtain ⟨symbol, operand⟩ := part
    refine Stops.bind (onContext_lapses (Context.endsIn_add _) hS hrequest (.assert sexpr _) hmoves
      hactive) fun _ S₂ hrun => ?_
    obtain ⟨S₃, hcalled, rfl⟩ := called_of_run hrun
    obtain ⟨hdefining, hrest⟩ := hparts.define hcalled
    refine Stops.bind_of_run (run_modify _ _) ?_
    exact ih hrest (hmoves.trans hdefining.flat.stacks.moves) (hcalled.status.trans hactive)

theorem assertTerm_lapses (hS : S.Sound) (hequipped : S.Equipped)
    (hrequest : command.Requests (.assertTerm sexpr)) (hinside : sexpr.Inside command) :
    Owns (Lapse S command) (assertTerm sexpr) S := by
  refine requireActive_owns fun hactive => ?_
  refine Stops.bind (parseTerm_lapses hS ⟨rfl, rfl, .top⟩ hinside) fun t S₁ hrun => ?_
  have hreads := (parseTerm_reads hS sexpr _ _ hrun).1
  have hS₁ : S₁.Sound := hreads.sound hS
  have hactive₁ : S₁.status = .active := by rw [hreads.rest]; exact hactive
  have hmoves : Moves S S₁ := .single hreads.move
  refine Stops.get ?_
  refine Stops.bind (defineParts_lapses (hS₁.missing [t]) hequipped hrequest hmoves hactive₁)
    fun _ S₂ hdefine => ?_
  have hdefining := (defineUndefined_defining hS₁ [t] _ _ hdefine).1
  refine Stops.bind (onContext_lapses (Context.endsIn_add t) hequipped hrequest (.assert sexpr t)
    (hmoves.trans hdefining.flat.stacks.moves) (hdefining.status.trans hactive₁)) fun _ _ _ => ?_
  exact Stops.bind (Stops.modify _) fun _ _ _ => Stops.bind (Stops.modify _) fun _ _ _ =>
    Stops.pure _

theorem checkSat_lapses (hS : S.Sound) (hequipped : S.Equipped) {assumptions : List SExpr}
    (hrequest : command.Requests (.checkSat assumptions))
    (hinside : ∀ s ∈ assumptions, s.Inside command) :
    Owns (Lapse S command) (checkSat assumptions) S := by
  refine requireActive_owns fun hactive => Stops.bind_of_run (run_dropModel S) ?_
  have hresumes : Resumes S S.dropped := ⟨by simp, by simp, by simpa using .top⟩
  refine Stops.bind (parseTerms_lapses hS hresumes hinside) fun ts S₁ hrun => ?_
  have hreads := (parseTerms_reads ((Move.drop S).sound hS) assumptions _ _ hrun).1
  have hactive₁ : S₁.status = .active := by rw [hreads.rest]; simpa using hactive
  exact Stops.get (onContext_lapses (Context.endsIn_check _) hequipped hrequest (.check _ _)
    (.tail (.single (.drop S)) hreads.move) hactive₁)

/-! ### Values and models -/

theorem getValue_lapses (hS : S.Sound) (hequipped : S.Equipped) {sexprs : List SExpr}
    (hrequest : command.Requests (.getValue sexprs))
    (hinside : ∀ s ∈ sexprs, s.Inside command) :
    Owns (Lapse S command) (getValue sexprs) S := by
  by_cases hclean : S.terms.leftover = none
  swap
  · exact fun _ _ _ _ => .unfinished hrequest hclean
  refine requireActive_owns fun _ => ?_
  have hresumes : Resumes S S := ⟨rfl, rfl, .top⟩
  refine Stops.bind (parseTerms_lapses hS hresumes hinside) fun ts S₁ hrun => ?_
  obtain ⟨hreads, hts⟩ := parseTerms_reads hS sexprs _ _ hrun
  have hclean₁ : S₁.terms.leftover = none := (hresumes.parsedAll hrun).scope.clean hclean
  have hmoves : Moves S S₁ := .single hreads.move
  refine Stops.bind (ensureModel_lapses hequipped hrequest rfl hmoves) fun _ S₂ hmodel => ?_
  have hstill : Still S₁ S₂ := (ensureModel_still S₁ _ _ hmodel).1
  have hclean₂ := (ensureModel_leftover S₁ _ _ hmodel).1.trans hclean₁
  have hts₂ := fun t ht => (hts ts rfl t ht).mono fun _ => hstill.knows
  refine Stops.bind ?_ fun _ _ _ => Stops.pure _
  refine (evaluateAll_owns (hstill.sound (hreads.sound hS)) hclean₂ hts₂).mono
    fun _ _ h hsilent => .question hrequest rfl ?_
  exact (h hsilent).after (hmoves.trans hstill.moves)

theorem getModel_lapses (hequipped : S.Equipped) (hrequest : command.Requests .getModel) :
    Owns (Lapse S command) getModel S := by
  refine Stops.bind (ensureModel_lapses hequipped hrequest rfl .refl) fun _ S₁ hrun => ?_
  have hmoves := (ensureModel_still S _ _ hrun).1.moves
  exact Stops.get ((modelEntries_owns _ S₁).mono fun _ _ h hsilent =>
    .question hrequest rfl ((h hsilent).after hmoves))

/-! ### Commands -/

omit [Solver σ μ] [GrowingSolver σ μ] in
/-- An operation that is followed by a result. -/
theorem result_owns {x : SessionStep σ μ α} {f : α → Option String} (h : Owns cause x S) :
    Owns cause (do return f (← x)) S :=
  Stops.bind h fun _ _ _ => Stops.pure _

theorem perform_lapses (hS : S.Sound) (hequipped : S.Equipped) {head : String} {args : List SExpr}
    (hrequest : (SExpr.list (.atom head :: args)).Requests request)
    (htaken : request.TakenFrom args) :
    Owns (Lapse S (.list (.atom head :: args))) (perform request) S := by
  have hitem {s : SExpr} (h : s ∈ args) : s.Inside (.list (.atom head :: args)) :=
    SExpr.inside_of_mem (by simp [h])
  have hitems {items : List SExpr} (h : .list items ∈ args) :
      ∀ s ∈ items, s.Inside (.list (.atom head :: args)) := fun s hs =>
    (SExpr.inside_of_mem hs).trans (hitem h)
  cases request with
  | setLogic logic => exact result_owns (setLogic_owns logic)
  | setOption keyword value =>
    obtain ⟨_, s, rfl, rfl⟩ := htaken
    exact result_owns (setOption_lapses fun h =>
      .numeral ((SExpr.hasOrnateNumeral_of_text h).mono (hitem (by simp))))
  | setInfo keyword value => exact result_owns (requireOpen_owns (Stops.modify _))
  | ignoreInfo => exact Stops.pure _
  | getInfo keyword =>
    refine result_owns (requireOpen_owns (Stops.get ?_))
    split
    · exact Stops.pure _
    · exact Owns.throw rfl
  | getOption keyword =>
    refine result_owns (requireOpen_owns (Stops.get ?_))
    split
    · exact Stops.pure _
    · exact Owns.throw rfl
  | echo text => exact Stops.pure _
  | push levels => exact result_owns (push_lapses hequipped hrequest)
  | pop levels => exact result_owns (pop_lapses hequipped hrequest)
  | resetAssertions => exact result_owns (resetAssertions_lapses hequipped hrequest)
  | reset => exact result_owns (requireOpen_owns (.of_ok rfl))
  | exit => exact result_owns (requireOpen_owns (.of_ok rfl))
  | declareSort name arity => exact result_owns (declareSort_owns name arity)
  | declareFun name domains codomain =>
    rcases htaken with ⟨name', rfl⟩ | ⟨rfl, name', rfl⟩
    · exact result_owns (declareFun_lapses (hitems (by simp)) (hitem (by simp)))
    · exact result_owns (declareFun_lapses (by simp) (hitem (by simp)))
  | defineFun name parameters codomain body =>
    obtain ⟨name', rfl⟩ := htaken
    exact result_owns (defineFun_lapses hS (hitems (by simp)) (hitem (by simp)) (hitem (by simp)))
  | assertTerm sexpr =>
    obtain rfl : args = [sexpr] := htaken
    exact result_owns (assertTerm_lapses hS hequipped hrequest (hitem (by simp)))
  | checkSat assumptions =>
    refine result_owns (checkSat_lapses hS hequipped hrequest ?_)
    rcases htaken with rfl | rfl
    · exact hitems (by simp)
    · simp
  | getAssertions => exact requireActive_owns fun _ => Stops.get (Stops.pure _)
  | getValue sexprs =>
    obtain rfl : args = [.list sexprs] := htaken
    exact result_owns (getValue_lapses hS hequipped hrequest (hitems (by simp)))
  | getModel => exact requireActive_owns fun _ => result_owns (getModel_lapses hequipped hrequest)
  | getUnsatCore => exact result_owns (getUnsatCore_lapses hequipped hrequest)
  | unsupported head sexpr isQuery =>
    cases isQuery with
    | false => exact Owns.throw rfl
    | true => exact requireActive_owns fun _ => Owns.throw rfl

/-- A command fails without a word only for one of the causes. -/
theorem execute_lapses (hS : S.Sound) (hequipped : S.Equipped) (command : SExpr) :
    Owns (Lapse S command) (execute command) S := by
  unfold execute
  split
  · rename_i head args
    dsimp only
    split
    · exact Owns.throw rfl
    · rename_i name hname
      refine requireOpen_owns (Stops.bind (ofExcept_lapses fun e he hsilent => ?_) ?_)
      · by_contra hslip
        refine Command.read_told (fun text htext hread => hslip (.numeral ?_)) e he hsilent
        exact ⟨text, SExpr.inside_of_mem (by simp [htext]), hread⟩
      · intro request S' hrun
        obtain ⟨hread, rfl⟩ := Prod.mk.inj hrun
        exact perform_lapses hS hequipped (.intro hname hread) (Command.takenFrom_of_read hread)
  · exact Owns.throw rfl

end Session

end SmtScript
