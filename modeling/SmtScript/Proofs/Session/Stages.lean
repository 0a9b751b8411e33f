import SmtScript.Interpreter
import SmtScript.Proofs.IntegerPart.Order
import SmtScript.Proofs.Session.Running
import SmtScript.Proofs.Translate.Unguarded

/-!
Stages of a session.

A session has a logic and an open solver, or none of both and nothing of what needs them. Setting a
logic, a reset and an exit apart, no step takes a session from one stage to another, `Steady`.
`Abides` says that a step is steady and that, if it fails, it does not do so for the status of the
session; every operation stays once its status is right.
-/

namespace SmtScript

open Step

variable {σ μ α β : Type}

/-! ### Steps on the context -/

namespace Context

/-- Whether a step on a context neither closes it nor opens it, and is not refused for the status of
the session. -/
def Holds (step : ContextStep σ α) : Prop :=
  ∀ p, Unguarded step p ∧
    Leads (fun p p' => p'.1.solver.isSome = p.1.solver.isSome) step p fun _ _ => True

theorem closed_holds :
    Step.Closed fun p p' : Context σ × SymbolTable => p'.1.solver.isSome = p.1.solver.isSome :=
  ⟨fun _ => rfl, fun h h' => h'.trans h⟩

theorem Holds.bind {step : ContextStep σ α} {next : α → ContextStep σ β} (h : Holds step)
    (hnext : ∀ a, Holds (next a)) : Holds (step >>= next) := fun p =>
  Stops.bind_and_leads closed_holds (h p) fun a p' _ _ => hnext a p'

theorem holds_pure (a : α) : Holds (pure a : ContextStep σ α) := fun _ =>
  ⟨Stops.pure _, .pure closed_holds trivial⟩

theorem holds_throw {e : Error} (h : e.blamesStatus = false) :
    Holds (throw e : ContextStep σ α) := fun _ =>
  ⟨.throw h, .throw closed_holds e⟩

theorem holds_current : Holds (current : ContextStep σ (Context σ)) := fun _ =>
  ⟨.of_ok rfl, .of_run rfl rfl fun _ _ => trivial⟩

theorem holds_change {f : Context σ → Context σ} (hf : ∀ c, (f c).solver = c.solver) :
    Holds (change f) := fun p =>
  ⟨.of_ok rfl, .of_run rfl (congrArg Option.isSome (hf p.1)) fun _ _ => trivial⟩

theorem holds_requireOpen : Holds (requireOpen : ContextStep σ Unit) := by
  refine holds_current.bind fun context => ?_
  split
  · exact holds_throw rfl
  · exact holds_pure _

theorem holds_call {toError : Fault → Error} (h : ∀ f, (toError f).blamesStatus = false)
    (call : SolverCall σ α) : Holds (Context.call toError call) := by
  rintro ⟨context, table⟩
  cases hsolver : context.solver with
  | none =>
    have hrun := run_call_none toError call hsolver table
    exact ⟨.of_error hrun rfl, .of_run hrun rfl nofun⟩
  | some solver =>
    obtain ⟨⟨r, solver', table'⟩, hcall⟩ : ∃ p, call.run (solver, table) = p := ⟨_, rfl⟩
    have hrun := run_call toError hsolver hcall
    refine ⟨fun e p' he => ?_, .of_run hrun (by simp [hsolver]) fun _ _ => trivial⟩
    have hr := (Prod.mk.inj (hrun.symm.trans he)).1
    exact Bool.eq_false_iff.mpr (spares_fault r h e hr)

variable [Solver σ μ]

theorem holds_add (t : Term) : Holds (Context.add (σ := σ) t) :=
  (holds_call (fun _ => rfl) _).bind fun _ => holds_change fun _ => rfl

theorem holds_push (levels : Nat) : Holds (Context.push (σ := σ) levels) :=
  (holds_call (fun _ => rfl) _).bind fun _ => holds_change fun _ => rfl

theorem holds_pop (levels : Nat) : Holds (Context.pop (σ := σ) levels) := by
  refine holds_requireOpen.bind fun _ => holds_current.bind fun context => ?_
  dsimp only
  split
  · exact (holds_throw rfl).bind fun _ => (holds_call (fun _ => rfl) _).bind fun _ =>
      holds_change fun _ => rfl
  · exact (holds_call (fun _ => rfl) _).bind fun _ => holds_change fun _ => rfl

theorem holds_reset : Holds (Context.reset : ContextStep σ Unit) :=
  (holds_call (fun _ => rfl) _).bind fun _ => holds_change fun _ => rfl

theorem statusOf_spares (assumptions : List Term) (outcome : Except Fault Bool) :
    Spares (statusOf assumptions outcome) := by
  unfold statusOf
  split
  · exact .ok _
  · exact .ok _
  · split
    · exact .ok _
    · exact .error Bool.false_ne_true

theorem holds_check (assumptions : List Term) : Holds (Context.check (σ := σ) assumptions) := by
  refine (holds_call (fun _ => rfl) _).bind fun outcome => ?_
  split
  · rename_i status _
    have hchange : Context.Holds (change fun c : Context σ => { c with last := some status }) :=
      holds_change fun _ => rfl
    exact hchange.bind fun _ => holds_pure _
  · rename_i e he
    exact holds_throw (Bool.eq_false_iff.mpr (statusOf_spares assumptions outcome e he))

theorem holds_model : Holds (Context.model : ContextStep σ μ) := by
  refine holds_requireOpen.bind fun _ => holds_current.bind fun context => ?_
  split
  · exact holds_call (fun _ => rfl) _
  · exact holds_call (fun _ => rfl) _
  · exact holds_throw rfl

theorem holds_core : Holds (Context.core : ContextStep σ (List Term)) := by
  refine holds_requireOpen.bind fun _ => holds_current.bind fun context => ?_
  split
  · exact holds_call (fun _ => rfl) _
  · exact holds_throw rfl

end Context

/-! ### Questions to the model -/

theorem errorAbout_spares (t : Term) (f : Fault) : (Model.errorAbout t f).blamesStatus = false := by
  unfold Model.errorAbout
  split <;> rfl

theorem ask_unguarded (t : Term) (query : ModelQuery μ α) (p : Option μ × TermState) :
    Unguarded (PartStep.ofModel (Model.ask t query)) p := by
  obtain ⟨model, terms⟩ := p
  cases model with
  | none => exact .of_error (e := .modelReleased) rfl rfl
  | some model =>
    obtain ⟨⟨r, model', table'⟩, hrun⟩ : ∃ q, query.run (model, terms.table) = q := ⟨_, rfl⟩
    have hrun' := PartStep.run_ofModel (Model.ask t query) (some model, terms)
    rw [Model.run_ask t hrun] at hrun'
    intro e p' he
    have hr := (Prod.mk.inj (hrun'.symm.trans he)).1
    exact Bool.eq_false_iff.mpr (spares_fault r (errorAbout_spares t) e hr)

section

variable [Solver σ μ] {p : Option μ × TermState}

theorem substitute_unguarded (known : Substitution) (t : Term) :
    Unguarded (IntegerParts.substitute known t) p := by
  refine Stops.bind (.of_ok (run_get p)) fun _ _ _ => ?_
  refine Stops.bind (.of_ok rfl) fun _ _ _ => ?_
  split
  · exact Stops.pure _
  · exact Unguarded.throw rfl

theorem floors_unguarded (parts : IntegerParts) (known : Substitution) :
    Unguarded (IntegerParts.floors (σ := σ) parts known) p := by
  induction parts generalizing p known with
  | nil => exact Stops.pure _
  | cons part newer ih =>
    refine Stops.bind (substitute_unguarded known part.2) fun operand _ _ => ?_
    refine Stops.bind (ask_unguarded _ _ _) fun value _ _ => ?_
    split
    · exact Unguarded.throw rfl
    · exact ih _

theorem resolve_unguarded (t : Term) : Unguarded (IntegerParts.resolve (σ := σ) t) p := by
  refine Stops.bind (.of_ok (run_get p)) fun _ _ _ => ?_
  dsimp only
  split
  · exact Stops.pure _
  · rw [IntegerParts.valuesIn_nil]
    exact Stops.bind (floors_unguarded _ _) fun _ _ _ => substitute_unguarded _ _

end

namespace Session

variable {S S' S'' : Session σ μ}

/-! ### Steps that stay at a stage -/

/-- Whether there is nothing of what needs a solver. -/
structure Blank (S : Session σ μ) : Prop where
  assertions : S.assertions = .empty
  definedParts : S.definedParts = .empty
  model : S.model = none

/-- Whether a session is at the same stage as before: with the same logic, with or without a solver,
and still blank if it is not active. -/
structure Steady (S S' : Session σ μ) : Prop where
  initial : S'.initial = S.initial
  status : S'.status = S.status
  logic : S'.logic = S.logic
  solver : S'.solver?.isSome = S.solver?.isSome
  blank : S.status ≠ .active → S.Blank → S'.Blank

theorem Steady.refl (S : Session σ μ) : Steady S S := ⟨rfl, rfl, rfl, rfl, fun _ => id⟩

theorem closed_steady : Step.Closed (Steady (σ := σ) (μ := μ)) where
  refl := .refl
  trans h h' := by
    refine ⟨h'.initial.trans h.initial, h'.status.trans h.status, h'.logic.trans h.logic,
      h'.solver.trans h.solver, fun hactive hblank => h'.blank ?_ (h.blank hactive hblank)⟩
    rw [h.status]
    exact hactive

/-- Changes of what is not looked at. -/
theorem Steady.of_eq (hinitial : S'.initial = S.initial) (hstatus : S'.status = S.status)
    (hlogic : S'.logic = S.logic) (hcontext : S'.context = S.context) (hassertions : S'.assertions = S.assertions)
    (hparts : S'.definedParts = S.definedParts) (hmodel : S'.model = S.model) : Steady S S' := by
  refine ⟨hinitial, hstatus, hlogic, by rw [solver?, solver?, hcontext], fun _ h => ?_⟩
  exact ⟨hassertions.trans h.assertions, hparts.trans h.definedParts, hmodel.trans h.model⟩

/-- Changes in an active session. -/
theorem Steady.of_active (hactive : S.status = .active) (hinitial : S'.initial = S.initial)
    (hstatus : S'.status = S.status) (hlogic : S'.logic = S.logic)
    (hcontext : S'.context = S.context) : Steady S S' :=
  ⟨hinitial, hstatus, hlogic, by rw [solver?, solver?, hcontext], fun h => absurd hactive h⟩

/-- Whether a step leaves a session at its stage, and is not refused for its status. -/
def Abides (x : SessionStep σ μ α) (S : Session σ μ) : Prop :=
  Unguarded x S ∧ Leads Steady x S fun _ _ => True

theorem Abides.bind {x : SessionStep σ μ α} {f : α → SessionStep σ μ β} (h : Abides x S)
    (hf : ∀ a S', Steady S S' → x.run S = (.ok a, S') → Abides (f a) S') : Abides (x >>= f) S :=
  Stops.bind_and_leads closed_steady ⟨h.1, h.2.ran⟩ fun a _ hsteady hrun =>
    hf a _ hsteady hrun.1

/-- A step that only looks comes first. -/
theorem Abides.pass {x : SessionStep σ μ α} {f : α → SessionStep σ μ β} {a : α}
    (hrun : x.run S = (.ok a, S)) (h : Abides (f a) S) : Abides (x >>= f) S := by
  have heq : (x >>= f).run S = (f a).run S := run_bind_ok hrun
  exact ⟨fun e _ he => h.1 e _ (heq.symm.trans he), fun r _ hr => h.2 r _ (heq.symm.trans hr)⟩

theorem Abides.get {f : Session σ μ → SessionStep σ μ α} (h : Abides (f S) S) :
    Abides (MonadState.get >>= f) S :=
  .pass (run_get S) h

theorem abides_pure (a : α) : Abides (pure a : SessionStep σ μ α) S :=
  ⟨Stops.pure _, .pure closed_steady trivial⟩

theorem abides_throw {e : Error} (h : e.blamesStatus = false) :
    Abides (throw e : SessionStep σ μ α) S :=
  ⟨.throw h, .throw closed_steady e⟩

theorem abides_modify {f : Session σ μ → Session σ μ} (h : Steady S (f S)) :
    Abides (modify f : SessionStep σ μ PUnit) S :=
  ⟨Stops.modify f, .modify h trivial⟩

theorem abides_ofExcept {result : Except Error α} (h : Spares result) :
    Abides (ofExcept result : SessionStep σ μ α) S :=
  ⟨.mk h, .mk closed_steady fun _ _ => trivial⟩

theorem abides_onTerms {step : Translation α} (h : Unguarded step S.terms) :
    Abides (onTerms step) S :=
  ⟨fun e _ hrun => h e _ (Prod.ext (Prod.mk.inj hrun).1 rfl),
    .of_run (run_onTerms step S) (.of_eq rfl rfl rfl rfl rfl rfl rfl) fun _ _ => trivial⟩

theorem abides_onContext {step : ContextStep σ α} (h : Context.Holds step) (S : Session σ μ) :
    Abides (onContext step) S := by
  cases hcontext : S.context with
  | none =>
    have hrun := run_onContext_none step hcontext
    exact ⟨.of_error hrun rfl, .of_run hrun (.refl S) nofun⟩
  | some p =>
    obtain ⟨lease, context⟩ := p
    have hrun := run_onContext step hcontext
    obtain ⟨hspares, hleads⟩ := h (context, S.terms.table)
    refine ⟨fun e S' he => ?_, .of_run hrun ?_ fun _ _ => trivial⟩
    · exact hspares e _ (Prod.ext (Prod.mk.inj (hrun.symm.trans he)).1 rfl)
    · refine ⟨rfl, rfl, rfl, ?_, fun _ hblank => ⟨hblank.1, hblank.2, hblank.3⟩⟩
      have hsolver := (hleads _ _ rfl).1
      simp only [solver?, hcontext, Option.bind_some]
      exact hsolver

theorem abides_onModel {step : PartStep μ α}
    (h : Unguarded step (S.model.map Prod.snd, S.terms)) : Abides (onModel step) S := by
  refine ⟨fun e S' hrun => h e _ (Prod.ext (Prod.mk.inj hrun).1 rfl), ?_⟩
  refine .of_run (run_onModel step S) ⟨rfl, rfl, rfl, rfl, fun _ hblank => ?_⟩ fun _ _ => trivial
  exact ⟨hblank.assertions, hblank.definedParts, by simp [withAsked, hblank.model]⟩

theorem steady_dropped (S : Session σ μ) : Steady S S.dropped :=
  ⟨by simp, by simp, by unfold dropped; split <;> rfl, by simp [solver?],
    fun _ h => ⟨by simpa using h.assertions, by simpa using h.definedParts, by simp⟩⟩

theorem abides_dropModel (S : Session σ μ) : Abides dropModel S :=
  ⟨.of_ok (run_dropModel S), .of_run (run_dropModel S) (steady_dropped S) fun _ _ => trivial⟩

/-! ### Guards -/

/-- A command that needs an active session is refused in any other one. -/
theorem requireActive_refuses (h : S.status ≠ .active) : ∃ e, e.blamesStatus = true ∧
    (requireActive : SessionStep σ μ Unit).run S = (.error e, S) := by
  by_cases hclosed : S.status = .closed
  · refine ⟨.closed, rfl, run_bind_error ?_⟩
    rw [requireOpen, run_bind_ok (run_get S), if_pos hclosed, run_throw]
  · refine ⟨.noLogic, rfl, ?_⟩
    rw [requireActive, run_bind_ok (run_requireOpen hclosed), run_bind_ok (run_get S), if_pos h,
      run_throw]

theorem Abides.open {f : Unit → SessionStep σ μ α} (hopen : S.status ≠ .closed)
    (h : Abides (f ()) S) : Abides (requireOpen >>= f) S :=
  .pass (run_requireOpen hopen) h

theorem Abides.active {f : Unit → SessionStep σ μ α} (hactive : S.status = .active)
    (h : Abides (f ()) S) : Abides (requireActive >>= f) S :=
  .pass (run_requireActive hactive) h

/-! ### Operations -/

theorem steer_spares (options : SolverOptions) (keyword value : String) :
    Spares (Configuration.steer options keyword value) := by
  have hbool : Spares (Configuration.parseBool value) := by
    unfold Configuration.parseBool
    split_ifs
    · exact .ok _
    · exact .ok _
    · exact .error Bool.false_ne_true
  have hseed : Spares (Configuration.parseSeed value) := by
    unfold Configuration.parseSeed
    split
    · exact .ok _
    · exact .error Bool.false_ne_true
    · exact .error Bool.false_ne_true
  unfold Configuration.steer
  split_ifs
  · exact .bind hbool fun _ _ => .ok _
  · exact .bind hbool fun _ _ => .ok _
  · exact .bind hseed fun _ _ => .ok _
  · exact .ok _

theorem setOption_abides (hopen : S.status ≠ .closed) (keyword value : String) :
    Abides (setOption keyword value) S := by
  have hset (c : Configuration) : Unguarded (Configuration.setOption keyword value) c := by
    refine Stops.bind (Stops.modify _) fun _ c' _ => Stops.get ?_
    split
    · exact .of_ok rfl
    · rename_i e he
      exact Unguarded.throw (Bool.eq_false_iff.mpr (steer_spares _ keyword value e he))
  refine .open hopen ⟨fun e S' hrun => ?_, .of_run rfl (.of_eq rfl rfl rfl rfl rfl rfl rfl) ?_⟩
  · exact hset S.configuration e _ (Prod.ext (Prod.mk.inj hrun).1 rfl)
  · exact fun _ _ => trivial

theorem getOption_abides (hopen : S.status ≠ .closed) (keyword : String) :
    Abides (getOption keyword) S := by
  refine .open hopen (.get ?_)
  split
  · exact abides_pure _
  · exact abides_throw rfl

theorem setInfo_abides (hopen : S.status ≠ .closed) (keyword value : String) :
    Abides (setInfo keyword value) S :=
  .open hopen (abides_modify (.of_eq rfl rfl rfl rfl rfl rfl rfl))

theorem getInfo_abides (hopen : S.status ≠ .closed) (keyword : String) :
    Abides (getInfo keyword) S := by
  refine .open hopen (.get ?_)
  split
  · exact abides_pure _
  · exact abides_throw rfl

theorem declareSort_abides (hopen : S.status ≠ .closed) (name : String) (arity : Nat) :
    Abides (declareSort name arity) S := by
  have hdeclare : Spares (S.sorts.declare name arity) := by
    unfold SortTable.declare
    split
    · exact .ok _
    · exact .error Bool.false_ne_true
  refine .open hopen (.get (.bind (abides_ofExcept hdeclare) fun p S' _ _ => ?_))
  exact abides_modify (.of_eq rfl rfl rfl rfl rfl rfl rfl)

theorem newSymbol_abides (name : String) (sort : SmtSort) (S : Session σ μ) :
    Abides (newSymbol name sort) S := by
  refine .get ?_
  dsimp only
  split
  · exact abides_onTerms (.of_ok rfl)
  · split
    · exact abides_throw rfl
    · exact .bind (abides_modify (.of_eq rfl rfl rfl rfl rfl rfl rfl)) fun _ _ _ _ => abides_pure _

theorem bindName_abides (name : String) (binding : Binding) (S : Session σ μ) :
    Abides (bindName name binding) S :=
  abides_modify (.of_eq rfl rfl rfl rfl rfl rfl rfl)

theorem declareFun_abides (hopen : S.status ≠ .closed) (name : String) (domains : List SExpr)
    (codomain : SExpr) : Abides (declareFun name domains codomain) S := by
  refine .open hopen (.get ?_)
  refine .bind (abides_ofExcept (.mapM fun s _ => S.sorts.parse_spares s)) fun _ S₁ _ _ => ?_
  refine .bind (abides_ofExcept (S.sorts.parse_spares codomain)) fun _ S₂ _ _ => ?_
  refine .bind (newSymbol_abides name _ S₂) fun symbol S₃ _ _ => ?_
  exact .bind (bindName_abides name _ S₃) fun _ _ _ _ => abides_pure _

theorem declareParameters_abides (name : String) (parameters : List SExpr) (S : Session σ μ) :
    Abides (declareParameters name parameters) S := by
  induction parameters generalizing S with
  | nil => exact abides_pure _
  | cons parameter rest ih =>
    unfold declareParameters
    split
    · exact abides_pure _
    · rename_i heq
      obtain ⟨rfl, rfl⟩ := List.cons.inj heq
      refine .get (.bind (abides_ofExcept (S.sorts.parse_spares _)) fun sort S₁ _ _ => ?_)
      refine .bind (abides_onTerms (freshLocal_unguarded _ _)) fun symbol S₂ _ _ => ?_
      exact .bind (ih S₂) fun _ _ _ _ => abides_pure _
    · exact abides_throw rfl

theorem fitBody_spares (name : String) (sort : SmtSort) (sexpr : SExpr) (body : Term) :
    Spares (fitBody name sort sexpr body) := by
  unfold fitBody
  split
  · exact spares_fault _ fun _ => rfl
  · split
    · exact .error Bool.false_ne_true
    · exact .ok _

theorem defineFun_abides (hopen : S.status ≠ .closed) (name : String) (parameters : List SExpr)
    (codomain body : SExpr) : Abides (defineFun name parameters codomain body) S := by
  refine .open hopen (.get ?_)
  refine .bind (abides_ofExcept (S.sorts.parse_spares codomain)) fun sort S₁ _ _ => ?_
  refine .bind (declareParameters_abides name parameters S₁) fun declared S₂ _ _ => .get ?_
  refine .bind (abides_onTerms ((translate_unguarded S₂.sorts).1 _ body _)) fun t S₃ _ _ => ?_
  refine .bind (abides_ofExcept (fitBody_spares name sort body t)) fun term S₄ _ _ => ?_
  split
  · exact bindName_abides name _ S₄
  · exact bindName_abides name _ S₄

theorem parseTerm_abides (sexpr : SExpr) (S : Session σ μ) : Abides (parseTerm sexpr) S :=
  .get (abides_onTerms ((translate_unguarded S.sorts).1 _ sexpr _))

theorem parseTerms_abides (sexprs : List SExpr) (S : Session σ μ) : Abides (parseTerms sexprs) S := by
  induction sexprs generalizing S with
  | nil => exact abides_pure _
  | cons sexpr rest ih =>
    exact .bind (parseTerm_abides sexpr S) fun _ S₁ _ _ =>
      .bind (ih S₁) fun _ _ _ _ => abides_pure _

/-! ### Operations of an active session -/

variable [Solver σ μ]

theorem defineParts_abides (hactive : S.status = .active) (parts : IntegerParts) :
    Abides (defineParts parts) S := by
  induction parts generalizing S with
  | nil => exact abides_pure _
  | cons part rest ih =>
    refine .bind (abides_onContext (Context.holds_add _) S) fun _ S₁ h₁ _ => ?_
    have hactive₁ := h₁.status.trans hactive
    refine .bind (abides_modify (.of_active hactive₁ rfl rfl rfl rfl)) fun _ S₂ h₂ _ => ?_
    exact ih (h₂.status.trans hactive₁)

theorem assertTerm_abides (hactive : S.status = .active) (sexpr : SExpr) :
    Abides (assertTerm sexpr) S := by
  refine .active hactive (.bind (parseTerm_abides sexpr S) fun t S₁ h₁ _ => .get ?_)
  have hactive₁ := h₁.status.trans hactive
  refine .bind (defineParts_abides hactive₁ _) fun _ S₂ h₂ _ => ?_
  refine .bind (abides_onContext (Context.holds_add t) S₂) fun _ S₃ h₃ _ => ?_
  have hactive₃ := h₃.status.trans (h₂.status.trans hactive₁)
  refine .bind (abides_modify (.of_active hactive₃ rfl rfl rfl rfl)) fun _ S₄ _ _ => ?_
  exact .bind (abides_dropModel S₄) fun _ _ _ _ => abides_pure _

theorem push_abides (hactive : S.status = .active) (levels : Nat) : Abides (push levels) S := by
  refine .active hactive (.bind (abides_dropModel S) fun _ S₁ h₁ _ => ?_)
  refine .bind (abides_onContext (Context.holds_push levels) S₁) fun _ S₂ h₂ _ => ?_
  exact abides_modify (.of_active (h₂.status.trans (h₁.status.trans hactive)) rfl rfl rfl rfl)

theorem pop_abides (hactive : S.status = .active) (levels : Nat) : Abides (pop levels) S := by
  have hpop : Abides (do
      dropModel
      onContext (Context.pop levels)
      modify fun session => { session with
        assertions := session.assertions.popMany levels
        definedParts := session.definedParts.popMany levels }) S := by
    refine .bind (abides_dropModel S) fun _ S₁ h₁ _ => ?_
    refine .bind (abides_onContext (Context.holds_pop levels) S₁) fun _ S₂ h₂ _ => ?_
    exact abides_modify (.of_active (h₂.status.trans (h₁.status.trans hactive)) rfl rfl rfl rfl)
  refine .active hactive (.get ?_)
  dsimp only
  split
  · exact .bind (abides_throw rfl) fun _ _ _ h => nomatch h
  · exact hpop

theorem resetAssertions_abides (hactive : S.status = .active) :
    Abides (resetAssertions : SessionStep σ μ Unit) S := by
  refine .active hactive (.bind (abides_dropModel S) fun _ S₁ h₁ _ => ?_)
  refine .bind (abides_onContext Context.holds_reset S₁) fun _ S₂ h₂ _ => ?_
  exact abides_modify (.of_active (h₂.status.trans (h₁.status.trans hactive)) rfl rfl rfl rfl)

theorem checkSat_abides (hactive : S.status = .active) (assumptions : List SExpr) :
    Abides (checkSat assumptions) S := by
  refine .active hactive (.bind (abides_dropModel S) fun _ S₁ _ _ => ?_)
  refine .bind (parseTerms_abides assumptions S₁) fun _ S₂ _ _ => .get ?_
  exact abides_onContext (Context.holds_check _) S₂

theorem ensureModel_abides (hactive : S.status = .active) :
    Abides (ensureModel : SessionStep σ μ Unit) S := by
  refine .active hactive (.get ?_)
  split
  · exact abides_pure _
  · refine .bind (abides_onContext Context.holds_model S) fun _ S₁ h₁ _ => ?_
    exact abides_modify (.of_active (h₁.status.trans hactive) rfl rfl rfl rfl)

theorem evaluateAll_abides (ts : List Term) (S : Session σ μ) : Abides (evaluateAll ts) S := by
  induction ts generalizing S with
  | nil => exact abides_pure _
  | cons t rest ih =>
    have hvalue : Abides (onModel do
        IntegerParts.evaluate (σ := σ) (← IntegerParts.resolve (σ := σ) t)) S :=
      abides_onModel (Stops.bind (resolve_unguarded t) fun _ _ _ => ask_unguarded _ _ _)
    exact .bind hvalue fun _ S₁ _ _ => .bind (ih S₁) fun _ _ _ _ => abides_pure _

theorem getValue_abides (hactive : S.status = .active) (sexprs : List SExpr) :
    Abides (getValue sexprs) S := by
  refine .active hactive (.bind (parseTerms_abides sexprs S) fun ts S₁ h₁ _ => ?_)
  refine .bind (ensureModel_abides (h₁.status.trans hactive)) fun _ S₂ _ _ => ?_
  exact .bind (evaluateAll_abides ts S₂) fun _ _ _ _ => abides_pure _

theorem modelEntry_abides (name : String) (binding : Binding) (S : Session σ μ) :
    Abides (modelEntry name binding) S := by
  unfold modelEntry
  split
  · split
    · exact .bind (abides_onModel (ask_unguarded _ _ _)) fun _ _ _ _ => abides_pure _
    · exact .bind (abides_onModel (ask_unguarded _ _ _)) fun _ _ _ _ => abides_pure _
  · exact abides_pure _

theorem modelEntries_abides (entries : List (String × Binding)) (S : Session σ μ) :
    Abides (modelEntries entries) S := by
  induction entries generalizing S with
  | nil => exact abides_pure _
  | cons entry rest ih =>
    exact .bind (modelEntry_abides entry.1 entry.2 S) fun _ S₁ _ _ =>
      .bind (ih S₁) fun _ _ _ _ => abides_pure _

theorem getModel_abides (hactive : S.status = .active) :
    Abides (getModel : SessionStep σ μ (List ModelEntry)) S :=
  .bind (ensureModel_abides hactive) fun _ S₁ _ _ => .get (modelEntries_abides _ S₁)

theorem getUnsatCore_abides (hactive : S.status = .active) :
    Abides (getUnsatCore : SessionStep σ μ (List Term)) S :=
  .active hactive (abides_onContext Context.holds_core S)

end Session

end SmtScript
