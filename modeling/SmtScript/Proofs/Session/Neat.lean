import SmtScript.Proofs.Session.Tidy
import SmtScript.Proofs.Translate.Neat

/-!
Bound variables and the table of symbols in a session.

`Session.Widens` is what every command other than a reset does, whether it fails or not and
whatever substitutions it leaves unfinished: symbols are made or asked for one after the other, and
a neat session stays neat. So every session that a run leads to is neat, `Reachable.neat`.
-/

namespace SmtScript

namespace Session

open Solver Step Translation TermState

variable {σ μ α : Type} {S S' : Session σ μ}

/-- Whether only variables that can be bound are bound in what a session holds. -/
structure Neat (S : Session σ μ) : Prop where
  terms : S.terms.Neat
  names : Names.Neat S.environment S.terms
  assertions : ∀ t ∈ S.assertions.items, t.Tame S.terms.Bindable

theorem neat_start (configuration : Configuration) :
    (start configuration : Session σ μ).Neat where
  terms := neat_empty
  names := by simp [Names.Neat, find?_environment, start, Table.empty, Table.get?]
  assertions := by simp [start]

variable [Solver σ μ]

/-- What commands other than a reset do to the terms of a session: new names and assertions are
neat. -/
structure Widens (S S' : Session σ μ) : Prop where
  terms : TermState.Widens σ S.terms S'.terms
  names : ∀ name binding, S'.names.get? name = some binding →
    S.names.get? name = some binding ∨ binding.Neat S'.terms
  assertions : ∀ t ∈ S'.assertions.items, t ∈ S.assertions.items ∨ t.Tame S'.terms.Bindable

theorem widens_of_terms (hterms : TermState.Widens σ S.terms S'.terms)
    (hnames : S'.names = S.names) (hassertions : S'.assertions.items ⊆ S.assertions.items) :
    Widens S S' :=
  ⟨hterms, fun _ _ h => .inl (hnames ▸ h), fun _ ht => .inl (hassertions ht)⟩

theorem widens_of_eq (hterms : S'.terms = S.terms) (hnames : S'.names = S.names)
    (hassertions : S'.assertions.items ⊆ S.assertions.items) : Widens S S' :=
  widens_of_terms (hterms ▸ closed_widens.refl _) hnames hassertions

theorem closed_widens : Step.Closed (Widens (σ := σ) (μ := μ)) where
  refl S := widens_of_eq rfl rfl (List.Subset.refl _)
  trans h h' := by
    refine ⟨TermState.closed_widens.trans h.terms h'.terms, fun name binding hfind => ?_,
      fun t ht => ?_⟩
    · rcases h'.names name binding hfind with hold | hneat
      · exact (h.names name binding hold).imp_right fun hneat => hneat.grow h'.terms.grows
      · exact .inr hneat
    · rcases h'.assertions t ht with hold | htame
      · exact (h.assertions t hold).imp_right fun htame =>
          htame.mono fun _ hs => hs.grow h'.terms.grows
      · exact .inr htame

theorem Widens.neat (h : Widens S S') (hS : S.Neat) : S'.Neat where
  terms := h.terms.neat hS.terms
  names name binding hfind := by
    rcases h.names name binding hfind with hold | hneat
    · exact (hS.names name binding hold).grow h.terms.grows
    · exact hneat
  assertions t ht := by
    rcases h.assertions t ht with hold | htame
    · exact (hS.assertions t hold).mono fun _ hs => hs.grow h.terms.grows
    · exact htame

theorem widens_dropped (S : Session σ μ) : Widens S S.dropped :=
  widens_of_eq (by simp) (by simp) (by simp)

theorem OnTerms.widens (h : OnTerms (TermState.Widens σ) S S') : Widens S S' := by
  have hterms := h.terms
  rw [h.rest] at hterms ⊢
  exact widens_of_terms hterms rfl (List.Subset.refl _)

/-! ### Reading terms -/

theorem parseTerm_neat (hS : S.Neat) (sexpr : SExpr) :
    Leads (OnTerms (TermState.Widens σ)) (parseTerm sexpr) S
      fun S' t => t.Tame S'.terms.Bindable :=
  .get (onTerms_leads (translate_neat σ S.sorts sexpr hS.terms hS.names))

theorem parseTerms_neat (hS : S.Neat) (sexprs : List SExpr) :
    Leads (OnTerms (TermState.Widens σ)) (parseTerms sexprs) S
      fun S' ts => ∀ t ∈ ts, t.Tame S'.terms.Bindable := by
  have hclosed := closed_onTerms (σ := σ) (μ := μ) (TermState.closed_widens (σ := σ))
  induction sexprs generalizing S with
  | nil => exact .pure hclosed nofun
  | cons sexpr rest ih =>
    refine .bind hclosed (parseTerm_neat hS sexpr) fun t S₁ h₁ ht => ?_
    refine .bind hclosed (ih (h₁.widens.neat hS)) fun ts S₂ h₂ hts => ?_
    have hfirst := ht.mono fun _ hs => hs.grow h₂.terms.grows
    exact .pure hclosed (List.forall_mem_cons.mpr ⟨hfirst, hts⟩)

/-! ### Declarations -/

theorem widens_bind (S : Session σ μ) (name : String) {binding : Binding}
    (hneat : binding.Neat S.terms) :
    Widens S { S with names := S.names.insert name binding } := by
  refine ⟨TermState.closed_widens.refl _, fun other binding' hfind => ?_, fun _ => .inl⟩
  rw [Table.get?_insert] at hfind
  split at hfind
  · exact .inr (Option.some.inj hfind ▸ hneat)
  · exact .inl hfind

theorem declareFun_widens (name : String) (domains : List SExpr) (codomain : SExpr)
    (S : Session σ μ) : Leads Widens (declareFun name domains codomain) S fun _ _ => True := by
  rcases run_declareFun S name domains codomain with ⟨e, he⟩ | ⟨s, table, hdeclares, h⟩
  · exact .of_run he (closed_widens.refl S) nofun
  · have hmade : Enlarges σ S.terms.table table := by
      obtain ⟨symbols, counter⟩ := table
      obtain rfl : symbols = s :: S.terms.table.symbols := hdeclares.symbols
      exact .make hdeclares.new counter
    have hterms : TermState.Widens σ S.terms { S.terms with table } :=
      widens_table hmade (hdeclares.symbols ▸ List.suffix_cons _ _)
    have hdeclared : Widens S { S with terms := { S.terms with table } } :=
      widens_of_terms hterms rfl (List.Subset.refl _)
    exact .of_run h (closed_widens.trans hdeclared (widens_bind _ name (Term.tame_symbol s)))
      fun _ _ => trivial

theorem defineFun_widens (hS : S.Neat) (name : String) (parameters : List SExpr)
    (codomain body : SExpr) :
    Leads Widens (defineFun name parameters codomain body) S fun _ _ => True := by
  have hkept := kept_neat σ
  refine .bind_same (closed_widens.refl S) (requireOpen_leads closed_eq S) fun _ _ => .get ?_
  refine .bind_same (closed_widens.refl S) (ofExcept_leads _ S) fun sort _ => ?_
  refine .bind closed_widens ((declareParameters_opens hkept name parameters (c := [])
    ⟨hS.terms, hS.names⟩ trivial).weaken fun _ h => OnTerms.widens h)
    fun declared S₁ h₁ hdeclared => ?_
  obtain ⟨-, hopened, -⟩ := hdeclared
  refine .get ?_
  have hS₁ := h₁.neat hS
  have hinv : S₁.terms.Neat ∧ Names.Neat S₁.environment S₁.terms := ⟨hS₁.terms, hS₁.names⟩
  have hscope := hkept.extend (c := []) hinv hopened.bindings
  refine .bind closed_widens ((onTerms_leads (translate_neat σ S₁.sorts body hscope.1
    hscope.2)).weaken fun _ h => OnTerms.widens h) fun t S₂ h₂ ht => ?_
  refine .bind_same (closed_widens.refl S₂) (ofExcept_leads _ S₂) fun u hfit => ?_
  have hu := keeps_fitBody (Term.hereditary_tame _) hfit ht
  split
  · exact .modify (widens_bind S₂ name hu) trivial
  · refine .modify (widens_bind S₂ name ⟨hu, fun s hs => ?_⟩) trivial
    obtain ⟨p, hp, rfl⟩ := List.mem_map.mp hs
    exact h₂.terms.grows.knows (hopened.new p hp).2

/-! ### Calls of the solver -/

section

variable [GrowingSolver σ μ]

theorem Called.widens {call : SolverCall σ α} {r : Except Fault α} (hoffers : Offers call)
    (h : Called call S r S') : Widens S S' := by
  cases h with
  | intro hcontext hsolver hrun =>
    exact widens_of_terms (widens_table (.called hoffers hrun) (GrowingSolver.call hoffers hrun))
      rfl (List.Subset.refl _)

/-- A call with what is noted of it. -/
theorem Called.widens_noted {call : SolverCall σ α} {r : Except Fault α} {S'' : Session σ μ}
    (h : Called call S r S') (hoffers : Offers call) (hterms : S''.terms = S'.terms)
    (hnames : S''.names = S'.names) (hassertions : S''.assertions.items ⊆ S'.assertions.items) :
    Widens S S'' :=
  closed_widens.trans (h.widens hoffers) (widens_of_eq hterms hnames hassertions)

omit [GrowingSolver σ μ] in
theorem setLogic_widens (logic : String) (S : Session σ μ) :
    Leads Widens (setLogic logic) S fun _ _ => True := by
  refine .bind_same (closed_widens.refl S) (requireOpen_leads closed_eq S) fun _ _ => .get ?_
  by_cases hactive : S.status = .active
  · simp only [hactive, if_true]
    exact .bind_same (Q := fun _ _ => False) (closed_widens.refl S) (.throw closed_eq _)
      fun _ h => h.elim
  · simp only [hactive, if_false]
    split
    · exact .throw closed_widens _
    · exact .of_run (run_set _ _) (widens_of_eq rfl rfl (List.Subset.refl _)) fun _ _ => trivial

theorem push_widens (levels : Nat) (S : Session σ μ) :
    Leads Widens (push levels) S fun _ _ => True := by
  refine .bind_same (closed_widens.refl S) (requireActive_leads closed_eq S) fun _ _ => ?_
  refine .bind_of_run (P := Widens S) (run_dropModel S) ?_
  refine leads_call_change (widens_dropped S) (fun e S₁ hcalled => ?_) fun S₁ hcalled => ?_
  · exact closed_widens.trans (widens_dropped S) (hcalled.widens (.push _))
  · refine .modify (closed_widens.trans (widens_dropped S)
      (hcalled.widens_noted (.push _) rfl rfl ?_)) trivial
    simp

theorem pop_widens (levels : Nat) (S : Session σ μ) :
    Leads Widens (pop levels) S fun _ _ => True := by
  refine .bind_same (closed_widens.refl S) (requireActive_leads closed_eq S) fun _ _ => .get ?_
  dsimp only
  by_cases hdepth : S.assertions.depth ≤ levels
  · simp only [hdepth, if_true]
    exact .of_run rfl (closed_widens.refl S) nofun
  · simp only [hdepth, if_false]
    refine .bind_of_run (P := Widens S) (run_dropModel S) ?_
    refine .guarded (widens_dropped S) (run_pop_cases levels S.dropped) fun _ => ?_
    refine leads_call_change (widens_dropped S) (fun e S₁ hcalled => ?_) fun S₁ hcalled => ?_
    · exact closed_widens.trans (widens_dropped S) (hcalled.widens (.pop _))
    · exact .modify (closed_widens.trans (widens_dropped S)
        (hcalled.widens_noted (.pop _) rfl rfl (Levels.items_popMany_sublist _ _).subset)) trivial

theorem resetAssertions_widens (S : Session σ μ) :
    Leads Widens resetAssertions S fun _ _ => True := by
  refine .bind_same (closed_widens.refl S) (requireActive_leads closed_eq S) fun _ _ => ?_
  refine .bind_of_run (P := Widens S) (run_dropModel S) ?_
  refine leads_call_change (widens_dropped S) (fun e S₁ hcalled => ?_) fun S₁ hcalled => ?_
  · exact closed_widens.trans (widens_dropped S) (hcalled.widens .reset)
  · refine .modify (closed_widens.trans (widens_dropped S)
      (hcalled.widens_noted .reset rfl rfl ?_)) trivial
    simp

omit [GrowingSolver σ μ] in
theorem exit_widens (S : Session σ μ) : Leads Widens exit S fun _ _ => True := by
  refine .bind_same (closed_widens.refl S) (requireOpen_leads closed_eq S) fun _ _ => ?_
  refine .bind_of_run (P := Widens S) (run_release S) ?_
  exact .modify (widens_of_eq (by simp) (by simp) (by simp)) trivial

theorem defineParts_widens (parts : IntegerParts) (S : Session σ μ) :
    Leads Widens (defineParts parts) S fun _ _ => True := by
  induction parts generalizing S with
  | nil => exact .pure closed_widens trivial
  | cons part rest ih =>
    obtain ⟨symbol, operand⟩ := part
    refine leads_call_change (closed_widens.refl S) (fun e S₁ h => h.widens (.add _))
      fun S₁ hcalled => ?_
    have hadded : Widens S (S₁.mapContext ({ · with last := none })) :=
      hcalled.widens_noted (.add _) rfl rfl (List.Subset.refl _)
    refine .bind_of_run (run_modify _ _) ((ih _).weaken fun S₂ h => ?_)
    have hdefined : Widens S (S₁.withDefined symbol) :=
      closed_widens.trans hadded (widens_of_eq rfl rfl (List.Subset.refl _))
    exact closed_widens.trans hdefined h

theorem assertTerm_widens (hS : S.Neat) (sexpr : SExpr) :
    Leads Widens (assertTerm sexpr) S fun _ _ => True := by
  refine .bind_same (closed_widens.refl S) (requireActive_leads closed_eq S) fun _ _ => ?_
  refine .bind closed_widens ((parseTerm_neat hS sexpr).weaken fun _ h => OnTerms.widens h)
    fun t S₁ h₁ ht => .get ?_
  refine .bind closed_widens (defineParts_widens _ S₁) fun _ S₂ h₂ _ => ?_
  refine leads_call_change (closed_widens.refl S₂) (fun e S₃ h => h.widens (.add _))
    fun S₃ hcalled => ?_
  have h₃ := hcalled.widens (.add _)
  have ht₃ : t.Tame S₃.terms.Bindable :=
    (ht.mono fun _ hs => hs.grow h₂.terms.grows).mono fun _ hs => hs.grow h₃.terms.grows
  refine .bind_of_run (run_modify _ _) (.bind_of_run (run_dropModel _) ?_)
  refine .of_run (run_pure _ _) (closed_widens.trans ?_ (widens_dropped _)) fun _ _ => trivial
  refine closed_widens.trans h₃ ⟨TermState.closed_widens.refl _, fun _ _ => .inl, fun u hu => ?_⟩
  rw [Levels.items_add] at hu
  rcases List.mem_append.mp hu with hold | hnew
  · exact .inl hold
  · exact .inr (List.mem_singleton.mp hnew ▸ ht₃)

/-! ### Checks and models -/

theorem check_widens (assumptions : List Term) (S : Session σ μ) :
    Leads Widens (onContext (Context.check assumptions)) S fun _ _ => True := by
  refine leads_call_last (closed_widens.refl S) (fun e S₁ hcalled => ?_) fun r S₁ hcalled => ?_
  · obtain ⟨outcome, houtcome, _⟩ := called_outcome hcalled
    cases houtcome
  · obtain ⟨outcome, houtcome, hcalled'⟩ := called_outcome hcalled
    obtain rfl := Except.ok.inj houtcome
    have h₁ := hcalled'.widens (.satisfiable _)
    split
    · rename_i status hstatus
      exact .of_run (hcalled.run_change_return _ status)
        (closed_widens.trans h₁ (widens_of_eq rfl rfl (List.Subset.refl _))) fun _ _ => trivial
    · rename_i e hstatus
      exact .of_run (hcalled.run_throw e) h₁ nofun

theorem checkSat_widens (hS : S.Neat) (assumptions : List SExpr) :
    Leads Widens (checkSat assumptions) S fun _ _ => True := by
  refine .bind_same (closed_widens.refl S) (requireActive_leads closed_eq S) fun _ _ => ?_
  refine .bind closed_widens (.of_run (Q := fun S' _ => S' = S.dropped) (run_dropModel S)
    (widens_dropped S) fun _ _ => rfl) fun _ S₁ h₁ _ => ?_
  refine .bind closed_widens ((parseTerms_neat (h₁.neat hS) assumptions).weaken fun _ h =>
    h.widens) fun ts S₂ _ _ => .get ?_
  exact check_widens _ S₂

theorem ensureModel_widens (S : Session σ μ) :
    Leads Widens ensureModel S fun _ _ => True := by
  refine .bind_same (closed_widens.refl S) (requireActive_leads closed_eq S) fun _ _ => .get ?_
  split
  · exact .pure closed_widens trivial
  · refine .guarded (closed_widens.refl S) (run_model_cases S) fun _ => ?_
    rw [← bind_pure (Context.call _ _)]
    refine leads_call (closed_widens.refl S) (fun e S₁ h => h.widens .model) fun m S₁ hcalled => ?_
    refine .bind_of_run (hcalled.run_pure m) (.modify ?_ trivial)
    exact hcalled.widens_noted .model rfl rfl (List.Subset.refl _)

theorem getUnsatCore_widens (S : Session σ μ) :
    Leads Widens getUnsatCore S fun _ _ => True := by
  refine .bind_same (closed_widens.refl S) (requireActive_leads closed_eq S) fun _ _ => ?_
  rw [← bind_pure (onContext Context.core)]
  refine .guarded (closed_widens.refl S) (run_core_cases S) fun _ => ?_
  rw [← bind_pure (Context.call _ _)]
  refine leads_call (closed_widens.refl S) (fun e S₁ h => h.widens .core) fun ts S₁ hcalled => ?_
  refine .bind_of_run (hcalled.run_pure ts) ?_
  exact .of_run (run_pure _ _) (hcalled.widens .core) fun _ _ => trivial

/-! ### Questions to a model -/

/-- What a step on the model does to the terms. -/
abbrev Asking (σ : Type) {μ : Type} [Solver σ μ] (p p' : Option μ × TermState) : Prop :=
  TermState.Widens σ p.2 p'.2

omit [GrowingSolver σ μ] in
theorem closed_asking : Step.Closed (Asking σ (μ := μ)) :=
  ⟨fun p => TermState.closed_widens.refl p.2, TermState.closed_widens.trans⟩

omit [GrowingSolver σ μ] in
theorem onModel_widens {step : PartStep μ α}
    (h : Leads (Asking σ) step (S.model.map Prod.snd, S.terms) fun _ _ => True) :
    Leads Widens (onModel step) S fun _ _ => True := by
  intro r S' hrun
  rw [run_onModel] at hrun
  obtain ⟨rfl, rfl⟩ := Prod.mk.inj hrun
  exact ⟨widens_of_terms (h _ _ rfl).1 rfl (List.Subset.refl _), fun _ _ => trivial⟩

theorem ofModel_asking {query : ModelQuery μ α} (hanswers : Answers σ query) (t : Term)
    (p : Option μ × TermState) :
    Leads (Asking σ) (PartStep.ofModel (Model.ask t query)) p fun _ _ => True := by
  obtain ⟨model, T⟩ := p
  cases model with
  | none => exact .of_run (r := .error .modelReleased) rfl (closed_asking.refl _) nofun
  | some m =>
    obtain ⟨⟨r, m', table'⟩, hrun⟩ : ∃ q, query.run (m, T.table) = q := ⟨_, rfl⟩
    have hrun' := PartStep.run_ofModel (Model.ask t query) (some m, T)
    rw [Model.run_ask t hrun] at hrun'
    exact .of_run hrun'
      (widens_table (.answered hanswers hrun) (GrowingSolver.question hanswers hrun))
      fun _ _ => trivial

omit [GrowingSolver σ μ] in
theorem substitute_asking {p : Option μ × TermState} {known : Substitution} {t : Term}
    (hp : p.2.Neat) (hknown : ∀ r ∈ known, r.2.Tame p.2.Bindable) (ht : t.Tame p.2.Bindable) :
    Leads (Asking σ) (IntegerParts.substitute known t) p fun p' u => u.Tame p'.2.Bindable := by
  obtain ⟨model, T⟩ := p
  have hover := ((Term.substitutive_tame T.Bindable).substituted hknown).over ht hp.leftover
  refine .get ?_
  dsimp only
  refine .bind closed_asking (Q := fun p' _ => p'.2.Bindable = T.Bindable)
    (.of_run (run_set _ _) (widens_leftover fun _ => hover.1) fun _ _ => rfl) fun _ p' _ hp' => ?_
  split
  · rename_i u hu
    exact .pure closed_asking (hp' ▸ hover.2 u hu)
  · exact .throw closed_asking _

theorem floors_asking {p : Option μ × TermState} {parts : IntegerParts} {known : Substitution}
    (hp : p.2.Neat) (hparts : ∀ q ∈ parts, q.2.Tame p.2.Bindable)
    (hknown : ∀ r ∈ known, r.2.Tame p.2.Bindable) :
    Leads (Asking σ) (IntegerParts.floors (σ := σ) parts known) p
      fun p' known' => ∀ r ∈ known', r.2.Tame p'.2.Bindable := by
  induction parts generalizing p known with
  | nil => exact .pure closed_asking hknown
  | cons part newer ih =>
    obtain ⟨symbol, operand⟩ := part
    obtain ⟨hoperand, hnewer⟩ := List.forall_mem_cons.mp hparts
    refine .bind closed_asking (substitute_asking hp hknown hoperand) fun u p₁ h₁ _ => ?_
    refine .bind closed_asking (ofModel_asking (.evaluate u) u p₁) fun value p₂ h₂ _ => ?_
    have h := closed_asking.trans h₁ h₂
    split
    · exact .throw closed_asking _
    · refine ih (h.neat hp) (fun q hq => (hnewer q hq).mono fun _ hs => hs.grow h.grows) ?_
      exact List.forall_mem_cons.mpr ⟨.node nofun nofun nofun,
        fun q hq => (hknown q hq).mono fun _ hs => hs.grow h.grows⟩

theorem resolve_asking {p : Option μ × TermState} {t : Term} (hp : p.2.Neat)
    (ht : t.Tame p.2.Bindable) :
    Leads (Asking σ) (IntegerParts.resolve (σ := σ) t) p fun _ _ => True := by
  refine .get ?_
  dsimp only
  split
  · exact .pure closed_asking trivial
  · rw [IntegerParts.valuesIn_nil]
    refine .bind closed_asking (floors_asking hp (fun q hq => ?_) nofun)
      fun known p₁ h₁ hknown => ?_
    · exact hp.operands q (IntegerParts.occurs_of_mem_demanded hq).mem
    · exact (substitute_asking (h₁.neat hp) hknown (ht.mono fun _ hs => hs.grow h₁.grows)).mono
        fun _ _ _ _ => trivial

theorem evaluateAll_widens {ts : List Term} (hS : S.Neat)
    (hts : ∀ t ∈ ts, t.Tame S.terms.Bindable) :
    Leads Widens (evaluateAll ts) S fun _ _ => True := by
  induction ts generalizing S with
  | nil => exact .pure closed_widens trivial
  | cons t rest ih =>
    obtain ⟨ht, hrest⟩ := List.forall_mem_cons.mp hts
    have hvalue : Leads (Asking σ)
        (do IntegerParts.evaluate (σ := σ) (← IntegerParts.resolve (σ := σ) t))
        (S.model.map Prod.snd, S.terms) fun _ _ => True :=
      .bind closed_asking (resolve_asking hS.terms ht) fun u p' _ _ =>
        ofModel_asking (.evaluate u) u p'
    refine .bind closed_widens (onModel_widens hvalue) fun value S₁ h₁ _ => ?_
    have hrest₁ : ∀ t ∈ rest, t.Tame S₁.terms.Bindable := fun t ht =>
      (hrest t ht).mono fun _ hs => hs.grow h₁.terms.grows
    exact .bind closed_widens (ih (h₁.neat hS) hrest₁) fun _ _ _ _ => .pure closed_widens trivial

theorem getValue_widens (hS : S.Neat) (sexprs : List SExpr) :
    Leads Widens (getValue sexprs) S fun _ _ => True := by
  refine .bind_same (closed_widens.refl S) (requireActive_leads closed_eq S) fun _ _ => ?_
  refine .bind closed_widens ((parseTerms_neat hS sexprs).weaken fun _ h => OnTerms.widens h)
    fun ts S₁ h₁ hts => ?_
  refine .bind closed_widens (ensureModel_widens S₁) fun _ S₂ h₂ _ => ?_
  have hts₂ : ∀ t ∈ ts, t.Tame S₂.terms.Bindable := fun t ht =>
    (hts t ht).mono fun _ hs => hs.grow h₂.terms.grows
  exact .bind closed_widens (evaluateAll_widens (h₂.neat (h₁.neat hS)) hts₂) fun _ _ _ _ =>
    .pure closed_widens trivial

theorem modelEntry_widens (name : String) (binding : Binding) (S : Session σ μ) :
    Leads Widens (modelEntry name binding) S fun _ _ => True := by
  unfold modelEntry
  split
  · split
    · exact .bind closed_widens (onModel_widens (ofModel_asking (.interpret _) _ _))
        fun _ _ _ _ => .pure closed_widens trivial
    · exact .bind closed_widens (onModel_widens (ofModel_asking (.evaluate _) _ _))
        fun _ _ _ _ => .pure closed_widens trivial
  · exact .pure closed_widens trivial

theorem modelEntries_widens (entries : List (String × Binding)) (S : Session σ μ) :
    Leads Widens (modelEntries entries) S fun _ _ => True := by
  induction entries generalizing S with
  | nil => exact .pure closed_widens trivial
  | cons entry rest ih =>
    refine .bind closed_widens (modelEntry_widens entry.1 entry.2 S) fun _ S₁ _ _ => ?_
    exact .bind closed_widens (ih S₁) fun _ _ _ _ => .pure closed_widens trivial

/-! ### Commands -/

theorem perform_widens (hS : S.Neat) {request : Command} (hrequest : request ≠ .reset) :
    Leads Widens (perform request) S fun _ _ => True := by
  have hpure {α : Type} (a : α) :
      Leads Widens (pure a : SessionStep σ μ α) S fun _ _ => True := .pure closed_widens trivial
  have hopen := requireOpen_leads closed_eq S
  have hactive := requireActive_leads closed_eq S
  have hrefl := closed_widens.refl S
  have hnoted {f : Session σ μ → Session σ μ} (hf : Widens S (f S)) :
      Leads Widens (modify f : SessionStep σ μ PUnit) S fun _ _ => True := .modify hf trivial
  cases request with
  | setLogic logic => exact leads_result (setLogic_widens logic S)
  | setOption keyword value =>
    refine leads_result (.bind_same hrefl hopen fun _ _ => ?_)
    exact .of_run rfl (widens_of_eq rfl rfl (List.Subset.refl _)) fun _ _ => trivial
  | setInfo keyword value =>
    refine leads_result (.bind_same hrefl hopen fun _ _ => hnoted ?_)
    exact widens_of_eq rfl rfl (List.Subset.refl _)
  | ignoreInfo => exact hpure _
  | getInfo keyword =>
    refine leads_result (.bind_same hrefl hopen fun _ _ => .get ?_)
    split
    · exact hpure _
    · exact .throw closed_widens _
  | getOption keyword =>
    refine leads_result (.bind_same hrefl hopen fun _ _ => .get ?_)
    split
    · exact hpure _
    · exact .throw closed_widens _
  | echo text => exact hpure _
  | push levels => exact leads_result (push_widens levels S)
  | pop levels => exact leads_result (pop_widens levels S)
  | resetAssertions => exact leads_result (resetAssertions_widens S)
  | reset => exact absurd rfl hrequest
  | exit => exact leads_result (exit_widens S)
  | declareSort name arity =>
    refine leads_result (.bind_same hrefl hopen fun _ _ => .get ?_)
    refine .bind_same hrefl (ofExcept_leads _ S) fun _ _ => hnoted ?_
    exact widens_of_eq rfl rfl (List.Subset.refl _)
  | declareFun name domains codomain =>
    exact leads_result (declareFun_widens name domains codomain S)
  | defineFun name parameters codomain body =>
    exact leads_result (defineFun_widens hS name parameters codomain body)
  | assertTerm sexpr => exact leads_result (assertTerm_widens hS sexpr)
  | checkSat assumptions => exact leads_result (checkSat_widens hS assumptions)
  | getAssertions => exact .bind_same hrefl hactive fun _ _ => .get (hpure _)
  | getValue sexprs => exact leads_result (getValue_widens hS sexprs)
  | getModel =>
    refine .bind_same hrefl hactive fun _ _ => leads_result ?_
    exact .bind closed_widens (ensureModel_widens S) fun _ S₁ _ _ =>
      .get (modelEntries_widens _ S₁)
  | getUnsatCore => exact leads_result (getUnsatCore_widens S)
  | unsupported head sexpr isQuery =>
    cases isQuery with
    | false => exact .throw closed_widens _
    | true => exact .bind_same hrefl hactive fun _ _ => .throw closed_widens _

/-- A command does nothing to the terms of a session but what all steps do, or starts again. -/
theorem execute_widens (hS : S.Neat) {command : SExpr} {result : Except Error (Option String)}
    (hrun : (execute command).run S = (result, S')) :
    Widens S S' ∨ command.Requests .reset ∧ result = .ok none ∧
      ∃ contexts models, S' = { start S.initial with contexts, models } := by
  rcases run_execute_cases command S with ⟨e, he⟩ | ⟨request, hrequest, h⟩
  · obtain ⟨_, rfl⟩ := Prod.mk.inj (he.symm.trans hrun)
    exact .inl (closed_widens.refl S)
  rw [h] at hrun
  by_cases hreset : request = .reset
  · subst hreset
    rcases run_perform_reset S with ⟨e, he⟩ | ⟨contexts, models, hok⟩
    · obtain ⟨_, rfl⟩ := Prod.mk.inj (he.symm.trans hrun)
      exact .inl (closed_widens.refl S)
    · obtain ⟨rfl, rfl⟩ := Prod.mk.inj (hok.symm.trans hrun)
      exact .inr ⟨hrequest, rfl, contexts, models, rfl⟩
  · exact .inl (perform_widens hS hreset _ _ hrun).1

/-- What holds when a session starts, and stays with whatever commands other than a reset do. -/
theorem Reachable.induction_widens {P : Session σ μ → Prop} (h : S.Reachable)
    (hstart : ∀ configuration contexts models, P { start configuration with contexts, models })
    (hwidens : ∀ S S', S.Neat → Widens S S' → P S → P S') : S.Neat ∧ P S := by
  have hafter (commands : List SExpr) {S : Session σ μ} (hS : S.Neat ∧ P S) :
      (after commands S).Neat ∧ P (after commands S) := by
    induction commands generalizing S with
    | nil => exact hS
    | cons command rest ih =>
      obtain ⟨⟨result, S'⟩, hrun⟩ : ∃ p, (Session.execute command).run S = p := ⟨_, rfl⟩
      have hstep : S'.Neat ∧ P S' := by
        rcases execute_widens hS.1 hrun with hwiden | ⟨_, _, contexts, models, rfl⟩
        · exact ⟨hwiden.neat hS.1, hwidens S S' hS.1 hwiden hS.2⟩
        · have hneat := neat_start (σ := σ) (μ := μ) S.initial
          exact ⟨⟨hneat.terms, hneat.names, hneat.assertions⟩, hstart S.initial contexts models⟩
      have hrest := ih hstep
      rw [show S' = ((Session.execute command).run S).2 by rw [hrun]] at hrest
      exact hrest
  obtain ⟨configuration, commands, rfl⟩ := h
  exact hafter commands ⟨neat_start configuration, hstart configuration _ _⟩

theorem Reachable.neat (h : S.Reachable) : S.Neat :=
  (h.induction_widens (P := fun _ => True) (fun _ _ _ => trivial) fun _ _ _ _ _ => trivial).1

end

end Session

end SmtScript
