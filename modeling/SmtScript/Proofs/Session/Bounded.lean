import SmtScript.Proofs.Session.Sorts
import SmtScript.Proofs.Translate.Widths

/-!
Sessions in which all bit-vectors have bits.

`Session.Bounded` says that no bit-vector without bits occurs in what names stand for, in the
operands of integer parts, or in what substitutions leave behind. Every command keeps a session
so, whether it fails or not and whatever the solver does, so that every session that a run leads to
is bounded, `Reachable.bounded`, and every scope in which terms are read.
-/

namespace SmtScript

open Solver Step Translation TermState

namespace Session

variable {σ μ α β : Type} {S S' : Session σ μ} {names : Names} {T : TermState}

structure Bounded (S : Session σ μ) : Prop where
  names : Names.Bounded S.environment Symbol.HasBits
  terms : S.terms.Bounded Symbol.HasBits

theorem bounded_start (configuration : Configuration) :
    (start configuration : Session σ μ).Bounded where
  names := by simp [Names.Bounded, find?_environment, start, Table.empty, Table.get?]
  terms := bounded_empty

theorem Bounded.of_terms (h : S.Bounded) (hnames : S'.names = S.names)
    (hterms : S'.terms.Bounded Symbol.HasBits) : S'.Bounded :=
  ⟨by rw [environment, hnames]; exact h.names, hterms⟩

theorem Bounded.bind (h : S.Bounded) (name : String) {binding : Binding}
    (hbinding : binding.Bounded Symbol.HasBits) :
    ({ S with names := S.names.insert name binding } : Session σ μ).Bounded := by
  refine ⟨fun other binding' hfind => ?_, h.terms⟩
  rw [find?_environment, Table.get?_insert] at hfind
  split at hfind
  · exact Option.some.inj hfind ▸ hbinding
  · exact h.names other binding' hfind

/-! ### Steps that keep a session bounded -/

/-- Whether a session stays bounded. -/
abbrev StaysBounded (S S' : Session σ μ) : Prop := S.Bounded → S'.Bounded

theorem closed_staysBounded : Closed (StaysBounded (σ := σ) (μ := μ)) where
  refl _ := id
  trans h h' := h' ∘ h

/-- Names and the terms of the state stay as they are; there may be other symbols. -/
theorem staysBounded_of_eq (hnames : S'.names = S.names)
    (hparts : S'.terms.integerParts = S.terms.integerParts)
    (hleftover : S'.terms.leftover = S.terms.leftover) : StaysBounded S S' :=
  fun h => h.of_terms hnames (h.terms.of_eq hparts hleftover)

theorem staysBounded_of_terms (hnames : S'.names = S.names) (hterms : S'.terms = S.terms) :
    StaysBounded S S' :=
  staysBounded_of_eq hnames (by rw [hterms]) (by rw [hterms])

/-- Whether a step keeps a session bounded, whether it fails or not. -/
abbrev KeepsBounded (x : SessionStep σ μ α) (S : Session σ μ) : Prop :=
  Leads StaysBounded x S fun _ _ => True

theorem KeepsBounded.bind {x : SessionStep σ μ α} {f : α → SessionStep σ μ β}
    (hx : KeepsBounded x S) (hf : ∀ a S', KeepsBounded (f a) S') : KeepsBounded (x >>= f) S :=
  Leads.bind closed_staysBounded hx fun a S' _ _ => hf a S'

theorem keepsBounded_pure (a : α) : KeepsBounded (pure a : SessionStep σ μ α) S :=
  .pure closed_staysBounded trivial

theorem keepsBounded_throw (e : Error) : KeepsBounded (throw e : SessionStep σ μ α) S :=
  .throw closed_staysBounded e

theorem keepsBounded_get {f : Session σ μ → SessionStep σ μ α} (h : KeepsBounded (f S) S) :
    KeepsBounded (MonadState.get >>= f) S :=
  .get h

theorem keepsBounded_modify {f : Session σ μ → Session σ μ} (hnames : (f S).names = S.names)
    (hterms : (f S).terms = S.terms) :
    KeepsBounded (modify f : SessionStep σ μ PUnit) S :=
  .modify (staysBounded_of_terms hnames hterms) trivial

theorem keepsBounded_ofExcept (result : Except Error α) :
    KeepsBounded (ofExcept result : SessionStep σ μ α) S :=
  .mk closed_staysBounded fun _ _ => trivial

theorem keepsBounded_requireOpen : KeepsBounded (requireOpen : SessionStep σ μ Unit) S :=
  (requireOpen_leads closed_staysBounded S).mono fun _ _ _ _ => trivial

theorem keepsBounded_requireActive : KeepsBounded (requireActive : SessionStep σ μ Unit) S :=
  (requireActive_leads closed_staysBounded S).mono fun _ _ _ _ => trivial

theorem keepsBounded_dropModel : KeepsBounded (dropModel : SessionStep σ μ Unit) S :=
  .of_run (run_dropModel S) (staysBounded_of_terms (by simp) (by simp)) fun _ _ => trivial

/-- The context may make symbols, but no terms of the session. -/
theorem keepsBounded_onContext (step : ContextStep σ α) :
    KeepsBounded (onContext step : SessionStep σ μ α) S := by
  cases hcontext : S.context with
  | none => exact .of_run (run_onContext_none step hcontext) id fun _ _ => trivial
  | some p =>
    exact .of_run (run_onContext step hcontext) (staysBounded_of_eq rfl rfl rfl) fun _ _ => trivial

/-- An operation that is followed by a result. -/
theorem KeepsBounded.result {x : SessionStep σ μ α} {f : α → Option String}
    (hx : KeepsBounded x S) : KeepsBounded (do return f (← x)) S :=
  hx.bind fun _ _ => keepsBounded_pure _

/-! ### Reading terms -/

/-- A step that leaves bounded terms behind. -/
theorem leads_onTerms_bounded {step : Translation α} {Q : α → Prop}
    (h : Leads (fun _ T' => T'.Bounded Symbol.HasBits) step S.terms fun _ a => Q a) :
    Leads StaysBounded (onTerms step) S fun _ a => Q a :=
  (onTerms_leads h).weaken fun _ hS' hS => hS.of_terms (by rw [hS'.rest]) hS'.terms

theorem parseTerm_bounded (hS : S.Bounded) (sexpr : SExpr) :
    Leads StaysBounded (parseTerm sexpr) S fun _ t => t.Bounded Symbol.HasBits :=
  .get (leads_onTerms_bounded (translate_bounded hS.terms hS.names sexpr))

theorem parseTerms_bounded (hS : S.Bounded) (sexprs : List SExpr) :
    Leads StaysBounded (parseTerms sexprs) S fun _ ts => ∀ t ∈ ts, t.Bounded Symbol.HasBits := by
  induction sexprs generalizing S with
  | nil => exact .pure closed_staysBounded nofun
  | cons sexpr rest ih =>
    refine Leads.bind closed_staysBounded (parseTerm_bounded hS sexpr) fun t S₁ h₁ ht => ?_
    refine Leads.bind closed_staysBounded (ih (h₁ hS)) fun ts _ _ hts => ?_
    exact .pure closed_staysBounded (List.forall_mem_cons.mpr ⟨ht, hts⟩)

/-! ### Declarations -/

/-- Parameters have sorts that are read. -/
theorem declareParameters_bounded (name : String) (parameters : List SExpr) (S : Session σ μ) :
    Leads StaysBounded (declareParameters name parameters) S fun _ declared =>
      ∀ p ∈ bindSymbols declared, ∃ t, p.2 = .term t ∧ t.Bounded Symbol.HasBits := by
  induction parameters generalizing S with
  | nil => exact .pure closed_staysBounded nofun
  | cons parameter rest ih =>
    unfold declareParameters
    split
    · contradiction
    · rename_i parameter sort _ heq
      obtain ⟨rfl, rfl⟩ := List.cons.inj heq
      refine .get (.bind_same id (ofExcept_leads _ S) fun sort hsort => ?_)
      have hopened : Leads StaysBounded (onTerms (freshLocal (name ++ "_arg") sort)) S
          fun _ s => s.HasBits :=
        .of_run (run_onTerms _ S) (staysBounded_of_eq rfl rfl rfl) fun s hs => by
          obtain rfl := Except.ok.inj hs
          exact SortTable.hasBits_of_parse hsort
      refine Leads.bind closed_staysBounded hopened fun s S₁ _ hs => ?_
      refine Leads.bind closed_staysBounded (ih S₁) fun later S₂ _ hlater => ?_
      refine .pure closed_staysBounded (List.forall_mem_cons.mpr ⟨?_, hlater⟩)
      exact ⟨_, rfl, Term.bounded_symbol hs⟩
    · exact .throw closed_staysBounded _

/-- The sort of a declared function is made of sorts that are read. -/
theorem declareFun_bounded (hS : S.Bounded) (name : String) (domains : List SExpr)
    (codomain : SExpr) : KeepsBounded (declareFun name domains codomain) S := by
  rcases run_declareFun S name domains codomain with ⟨e, he⟩ | ⟨s, table, _, hrun⟩
  · exact .of_run he id nofun
  have hs : s.HasBits := by
    -- the name stands for the symbol now: it did so before, or this declaration made it
    have hbinds := (declareFun_binds name domains codomain S _ _ hrun).1 name (.term (.symbol s))
      (by simp)
    rcases hbinds with hold | hdeclares
    · exact (hS.names name _ hold).1.1.free s (by simp [Term.freeSymbols])
    · cases hdeclares with
      | symbol hdomains hcodomain hsort =>
        rw [Symbol.HasBits, hsort]
        exact .function (SortTable.hasBits_of_mapM hdomains) (SortTable.hasBits_of_parse hcodomain)
  have hterms : StaysBounded S { S with terms := { S.terms with table } } :=
    staysBounded_of_eq rfl rfl rfl
  exact .of_run hrun (fun h => (hterms h).bind name (Term.bounded_symbol hs)) fun _ _ => trivial

theorem defineFun_bounded (hS : S.Bounded) (name : String) (parameters : List SExpr)
    (codomain body : SExpr) : KeepsBounded (defineFun name parameters codomain body) S := by
  refine Leads.bind closed_staysBounded keepsBounded_requireOpen fun _ S₁ h₁ _ => .get ?_
  refine Leads.bind closed_staysBounded (keepsBounded_ofExcept _) fun _ S₂ h₂ _ => ?_
  refine Leads.bind closed_staysBounded (declareParameters_bounded name parameters S₂)
    fun declared S₃ h₃ hdeclared => .get ?_
  have hS₃ := h₃ (h₂ (h₁ hS))
  refine Leads.bind closed_staysBounded (leads_onTerms_bounded (translate_bounded hS₃.terms
    (hS₃.names.extend hdeclared) body)) fun t S₄ _ ht => ?_
  have hfit (result : Except Error Term) : Leads StaysBounded (ofExcept result) S₄
      fun _ u => result = .ok u := .mk closed_staysBounded fun _ => id
  refine Leads.bind closed_staysBounded (hfit _) fun u S₅ _ hu => ?_
  have hbounded := keeps_fitBody (Term.hereditary_bounded Symbol.HasBits) hu ht
  split
  · exact .modify (fun h => h.bind name hbounded) trivial
  · exact .modify (fun h => h.bind name hbounded) trivial

variable [Solver σ μ]

/-! ### Assertions and checks -/

theorem defineParts_bounded (parts : IntegerParts) : KeepsBounded (defineParts parts) S := by
  induction parts generalizing S with
  | nil => exact keepsBounded_pure _
  | cons part rest ih =>
    exact (keepsBounded_onContext _).bind fun _ _ =>
      (keepsBounded_modify rfl rfl).bind fun _ _ => ih

theorem assertTerm_bounded (hS : S.Bounded) (sexpr : SExpr) :
    KeepsBounded (assertTerm sexpr) S := by
  refine Leads.bind closed_staysBounded keepsBounded_requireActive fun _ S₁ h₁ _ => ?_
  refine Leads.bind closed_staysBounded (parseTerm_bounded (h₁ hS) sexpr) fun t S₂ _ _ => .get ?_
  refine (defineParts_bounded _).bind fun _ _ => (keepsBounded_onContext _).bind fun _ _ => ?_
  exact (keepsBounded_modify rfl rfl).bind fun _ _ =>
    keepsBounded_dropModel.bind fun _ _ => keepsBounded_pure _

theorem checkSat_bounded (hS : S.Bounded) (assumptions : List SExpr) :
    KeepsBounded (checkSat assumptions) S := by
  refine Leads.bind closed_staysBounded keepsBounded_requireActive fun _ S₁ h₁ _ => ?_
  refine Leads.bind closed_staysBounded keepsBounded_dropModel fun _ S₂ h₂ _ => ?_
  refine Leads.bind closed_staysBounded (parseTerms_bounded (h₂ (h₁ hS)) assumptions)
    fun ts _ _ _ => .get ?_
  exact keepsBounded_onContext _

theorem ensureModel_bounded : KeepsBounded ensureModel S := by
  refine keepsBounded_requireActive.bind fun _ _ => keepsBounded_get ?_
  split
  · exact keepsBounded_pure _
  · exact (keepsBounded_onContext _).bind fun _ _ => keepsBounded_modify rfl rfl

/-! ### Questions to a model -/

/-- Whether the terms that a step on the model works on stay bounded. -/
abbrev AnswersBounded (p p' : Option μ × TermState) : Prop :=
  p.2.Bounded Symbol.HasBits → p'.2.Bounded Symbol.HasBits

omit [Solver σ μ] in
theorem closed_answersBounded : Closed (AnswersBounded (μ := μ)) where
  refl _ := id
  trans h h' := h' ∘ h

omit [Solver σ μ] in
theorem onModel_bounded {step : PartStep μ α}
    (h : Leads AnswersBounded step (S.model.map Prod.snd, S.terms) fun _ _ => True) :
    KeepsBounded (onModel step) S := by
  intro r S' hrun
  rw [run_onModel] at hrun
  obtain ⟨rfl, rfl⟩ := Prod.mk.inj hrun
  exact ⟨fun hS => hS.of_terms rfl ((h _ _ rfl).1 hS.terms), fun _ _ => trivial⟩

omit [Solver σ μ] in
/-- A model may make symbols, but no terms of the session. -/
theorem ofModel_bounded (step : ModelStep μ α) (p : Option μ × TermState) :
    Leads AnswersBounded (PartStep.ofModel step) p fun _ _ => True :=
  .of_run (PartStep.run_ofModel step p) (fun h => h.of_eq rfl rfl) fun _ _ => trivial

omit [Solver σ μ] in
theorem substitute_bounded {p : Option μ × TermState} {known : Substitution} {t : Term}
    (hp : p.2.Bounded Symbol.HasBits) (hknown : ∀ q ∈ known, q.2.Bounded Symbol.HasBits)
    (ht : t.Bounded Symbol.HasBits) :
    Leads AnswersBounded (IntegerParts.substitute known t) p
      fun _ u => u.Bounded Symbol.HasBits := by
  have hover := (Term.substituted_bounded hknown).over ht hp.leftover
  refine .get ?_
  dsimp only
  refine .bind closed_answersBounded (Q := fun _ _ => True)
    (.of_run (run_set _ _) (fun h => ⟨h.operands, hover.1⟩) fun _ _ => trivial) fun _ p' _ _ => ?_
  split
  · rename_i u hu
    exact .pure closed_answersBounded (hover.2 u hu)
  · exact .throw closed_answersBounded _

theorem floors_bounded {p : Option μ × TermState} {parts : IntegerParts} {known : Substitution}
    (hp : p.2.Bounded Symbol.HasBits) (hparts : ∀ q ∈ parts, q.2.Bounded Symbol.HasBits)
    (hknown : ∀ q ∈ known, q.2.Bounded Symbol.HasBits) :
    Leads AnswersBounded (IntegerParts.floors (σ := σ) parts known) p
      fun _ known' => ∀ q ∈ known', q.2.Bounded Symbol.HasBits := by
  induction parts generalizing p known with
  | nil => exact .pure closed_answersBounded hknown
  | cons part newer ih =>
    obtain ⟨symbol, operand⟩ := part
    obtain ⟨hoperand, hnewer⟩ := List.forall_mem_cons.mp hparts
    refine .bind closed_answersBounded (substitute_bounded hp hknown hoperand) fun u p₁ h₁ _ => ?_
    refine .bind closed_answersBounded (ofModel_bounded _ p₁) fun value p₂ h₂ _ => ?_
    split
    · exact .throw closed_answersBounded _
    · -- a floor is an Int, so it may join what is put in later operands
      refine ih (h₂ (h₁ hp)) hnewer (List.forall_mem_cons.mpr ⟨?_, hknown⟩)
      exact Term.keeps_int (Term.hereditary_bounded _) _

theorem resolve_bounded {p : Option μ × TermState} {t : Term} (hp : p.2.Bounded Symbol.HasBits)
    (ht : t.Bounded Symbol.HasBits) :
    Leads AnswersBounded (IntegerParts.resolve (σ := σ) t) p fun _ _ => True := by
  refine .get ?_
  dsimp only
  split
  · exact .pure closed_answersBounded trivial
  · rw [IntegerParts.valuesIn_nil]
    refine .bind closed_answersBounded (floors_bounded hp (fun q hq => ?_) nofun)
      fun known p₁ h₁ hknown => ?_
    · exact hp.operands q (IntegerParts.occurs_of_mem_demanded hq).mem
    · exact (substitute_bounded (h₁ hp) hknown ht).mono fun _ _ _ _ => trivial

theorem evaluateAll_bounded {ts : List Term} (hS : S.Bounded)
    (hts : ∀ t ∈ ts, t.Bounded Symbol.HasBits) : KeepsBounded (evaluateAll ts) S := by
  induction ts generalizing S with
  | nil => exact keepsBounded_pure _
  | cons t rest ih =>
    obtain ⟨ht, hrest⟩ := List.forall_mem_cons.mp hts
    have hvalue : Leads AnswersBounded
        (do IntegerParts.evaluate (σ := σ) (← IntegerParts.resolve (σ := σ) t))
        (S.model.map Prod.snd, S.terms) fun _ _ => True :=
      .bind closed_answersBounded (resolve_bounded hS.terms ht) fun _ p' _ _ => ofModel_bounded _ p'
    refine Leads.bind closed_staysBounded (onModel_bounded hvalue) fun value S₁ h₁ _ => ?_
    exact (ih (h₁ hS) hrest).bind fun _ _ => keepsBounded_pure _

theorem getValue_bounded (hS : S.Bounded) (sexprs : List SExpr) :
    KeepsBounded (getValue sexprs) S := by
  refine Leads.bind closed_staysBounded keepsBounded_requireActive fun _ S₁ h₁ _ => ?_
  refine Leads.bind closed_staysBounded (parseTerms_bounded (h₁ hS) sexprs) fun ts S₂ h₂ hts => ?_
  refine Leads.bind closed_staysBounded ensureModel_bounded fun _ S₃ h₃ _ => ?_
  exact (evaluateAll_bounded (h₃ (h₂ (h₁ hS))) hts).bind fun _ _ => keepsBounded_pure _

theorem modelEntries_bounded (entries : List (String × Binding)) :
    KeepsBounded (modelEntries entries) S := by
  have hask {α β : Type} {step : ModelStep μ α} {f : α → SessionStep σ μ β} (S : Session σ μ)
      (hf : ∀ a S', KeepsBounded (f a) S') : KeepsBounded (askModel step >>= f) S :=
    KeepsBounded.bind (onModel_bounded (ofModel_bounded step _)) hf
  have hentry (name : String) (binding : Binding) (S : Session σ μ) :
      KeepsBounded (modelEntry name binding) S := by
    unfold modelEntry
    split
    · split
      · exact hask S fun _ _ => keepsBounded_pure _
      · exact hask S fun _ _ => keepsBounded_pure _
    · exact keepsBounded_pure _
  induction entries generalizing S with
  | nil => exact keepsBounded_pure _
  | cons entry rest ih =>
    exact (hentry entry.1 entry.2 S).bind fun _ _ => ih.bind fun _ _ => keepsBounded_pure _

/-! ### Commands -/

theorem setLogic_bounded (logic : String) : KeepsBounded (setLogic logic) S := by
  refine keepsBounded_requireOpen.bind fun _ S₁ => keepsBounded_get ?_
  by_cases hactive : S₁.status = .active
  · simp only [hactive, if_true]
    exact .bind_same (Q := fun _ _ => False) id (.throw closed_eq _) fun _ h => h.elim
  · simp only [hactive, if_false]
    split
    · exact keepsBounded_throw _
    · exact .of_run (run_set _ _) (staysBounded_of_eq rfl rfl rfl) fun _ _ => trivial

omit [Solver σ μ] in
theorem setOption_bounded (keyword value : String) : KeepsBounded (setOption keyword value) S :=
  keepsBounded_requireOpen.bind fun _ _ => .of_run rfl (staysBounded_of_eq rfl rfl rfl)
    fun _ _ => trivial

omit [Solver σ μ] in
theorem setInfo_bounded (keyword value : String) : KeepsBounded (setInfo keyword value) S :=
  keepsBounded_requireOpen.bind fun _ _ => keepsBounded_modify rfl rfl

omit [Solver σ μ] in
theorem getInfo_bounded (keyword : String) : KeepsBounded (getInfo keyword) S := by
  refine keepsBounded_requireOpen.bind fun _ _ => keepsBounded_get ?_
  split
  · exact keepsBounded_pure _
  · exact keepsBounded_throw _

omit [Solver σ μ] in
theorem getOption_bounded (keyword : String) : KeepsBounded (getOption keyword) S := by
  refine keepsBounded_requireOpen.bind fun _ _ => keepsBounded_get ?_
  split
  · exact keepsBounded_pure _
  · exact keepsBounded_throw _

omit [Solver σ μ] in
theorem declareSort_bounded (name : String) (arity : Nat) :
    KeepsBounded (declareSort name arity) S :=
  keepsBounded_requireOpen.bind fun _ _ => keepsBounded_get <|
    (keepsBounded_ofExcept _).bind fun _ _ => keepsBounded_modify rfl rfl

theorem push_bounded (levels : Nat) : KeepsBounded (push levels) S :=
  keepsBounded_requireActive.bind fun _ _ => keepsBounded_dropModel.bind fun _ _ =>
    (keepsBounded_onContext _).bind fun _ _ => keepsBounded_modify rfl rfl

theorem pop_bounded (levels : Nat) : KeepsBounded (pop levels) S := by
  have hrest (S : Session σ μ) : KeepsBounded (do
      dropModel
      onContext (Context.pop levels)
      modify fun session =>
        { session with
          assertions := session.assertions.popMany levels
          definedParts := session.definedParts.popMany levels }) S :=
    keepsBounded_dropModel.bind fun _ _ => (keepsBounded_onContext _).bind fun _ _ =>
      keepsBounded_modify rfl rfl
  refine keepsBounded_requireActive.bind fun _ S₁ => keepsBounded_get ?_
  dsimp only
  split
  · exact KeepsBounded.bind (keepsBounded_throw _) fun _ S₂ => hrest S₂
  · exact hrest S₁

theorem resetAssertions_bounded : KeepsBounded resetAssertions S :=
  keepsBounded_requireActive.bind fun _ _ => keepsBounded_dropModel.bind fun _ _ =>
    (keepsBounded_onContext _).bind fun _ _ => keepsBounded_modify rfl rfl

theorem getUnsatCore_bounded : KeepsBounded getUnsatCore S :=
  keepsBounded_requireActive.bind fun _ _ => keepsBounded_onContext _

theorem getModel_bounded : KeepsBounded getModel S :=
  ensureModel_bounded.bind fun _ _ => keepsBounded_get (modelEntries_bounded _)

omit [Solver σ μ] in
theorem reset_bounded : KeepsBounded reset S := by
  rcases run_reset S with ⟨e, he⟩ | ⟨contexts, models, hok⟩
  · exact .of_run he id nofun
  · have h := bounded_start (σ := σ) (μ := μ) S.initial
    exact .of_run hok (fun _ => h.of_terms rfl h.terms) fun _ _ => trivial

omit [Solver σ μ] in
theorem exit_bounded : KeepsBounded exit S :=
  keepsBounded_requireOpen.bind fun _ S₁ =>
    KeepsBounded.bind (.of_run (run_release S₁) (staysBounded_of_terms (by simp) (by simp))
      fun _ _ => trivial) fun _ _ => keepsBounded_modify rfl rfl

/-- A command keeps a session bounded, whether it fails or not. -/
theorem perform_bounded (hS : S.Bounded) (request : Command) :
    KeepsBounded (perform request) S := by
  cases request with
  | setLogic logic => exact (setLogic_bounded logic).result
  | setOption keyword value => exact (setOption_bounded keyword value).result
  | setInfo keyword value => exact (setInfo_bounded keyword value).result
  | ignoreInfo => exact keepsBounded_pure _
  | getInfo keyword => exact (getInfo_bounded keyword).result
  | getOption keyword => exact (getOption_bounded keyword).result
  | echo text => exact keepsBounded_pure _
  | push levels => exact (push_bounded levels).result
  | pop levels => exact (pop_bounded levels).result
  | resetAssertions => exact resetAssertions_bounded.result
  | reset => exact reset_bounded.result
  | exit => exact exit_bounded.result
  | declareSort name arity => exact (declareSort_bounded name arity).result
  | declareFun name domains codomain =>
    exact (declareFun_bounded hS name domains codomain).result
  | defineFun name parameters codomain body =>
    exact (defineFun_bounded hS name parameters codomain body).result
  | assertTerm sexpr => exact (assertTerm_bounded hS sexpr).result
  | checkSat assumptions => exact (checkSat_bounded hS assumptions).result
  | getAssertions =>
    exact keepsBounded_requireActive.bind fun _ _ => keepsBounded_get (keepsBounded_pure _)
  | getValue sexprs => exact (getValue_bounded hS sexprs).result
  | getModel => exact keepsBounded_requireActive.bind fun _ _ => getModel_bounded.result
  | getUnsatCore => exact getUnsatCore_bounded.result
  | unsupported head sexpr isQuery =>
    cases isQuery with
    | false => exact keepsBounded_throw _
    | true => exact keepsBounded_requireActive.bind fun _ _ => keepsBounded_throw _

theorem bounded_after (hS : S.Bounded) (commands : List SExpr) : (after commands S).Bounded := by
  induction commands generalizing S with
  | nil => exact hS
  | cons command rest ih =>
    refine ih (S := ((execute command).run S).2) ?_
    rcases run_execute_cases command S with ⟨e, he⟩ | ⟨request, _, h⟩
    · rw [he]
      exact hS
    · rw [h]
      exact (perform_bounded hS request _ _ rfl).1 hS

/-- Every session that a run leads to is bounded. -/
theorem Reachable.bounded (h : S.Reachable) : S.Bounded := by
  obtain ⟨configuration, commands, rfl⟩ := h
  exact bounded_after (bounded_start configuration) commands

omit [Solver σ μ] in
/-- Every scope of a bounded session is bounded. -/
theorem Bounded.inScope (hS : S.Bounded) (h : S.Scope names T) :
    T.Bounded Symbol.HasBits ∧ names.Bounded Symbol.HasBits := by
  induction h with
  | top => exact ⟨hS.terms, hS.names⟩
  | later _ hrun ih => exact ⟨(translate_bounded ih.1 ih.2 _ _ _ hrun).1, ih.2⟩
  | bindings _ hrun ih =>
    obtain ⟨hT, hbound⟩ := translateBindings_bounded ih.1 ih.2 _ _ _ hrun
    exact ⟨hT, ih.2.extend (hbound _ rfl)⟩
  | quantified _ hrun ih =>
    obtain ⟨hT, hdeclared⟩ := declareVariables_bounded ih.1 ih.2 _ _ _ hrun
    exact ⟨hT, ih.2.extend (hdeclared _ rfl)⟩
  | defined hrun =>
    obtain ⟨hS', hdeclared⟩ := declareParameters_bounded _ _ S _ _ hrun
    exact ⟨(hS' hS).terms, hS.names.extend (hdeclared _ rfl)⟩

end Session

end SmtScript
