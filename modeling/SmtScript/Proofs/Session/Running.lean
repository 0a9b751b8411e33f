import SmtScript.Proofs.Session.Move
import SmtScript.Proofs.Steps

/-!
Running the steps of a session.

A step on a part of the session runs as it does on that part. A step that begins with a call of the
solver either ends there, if the call is refused or fails, or goes on from where the call has led,
`Session.run_call_cases`.
-/

namespace SmtScript

open Solver Step

variable {σ μ α β γ : Type}

namespace Context

theorem run_call_none (toError : Fault → Error) (call : SolverCall σ α) {context : Context σ}
    (h : context.solver = none) (table : SymbolTable) :
    (Context.call toError call).run (context, table) =
      (.error .contextReleased, context, table) := by
  obtain ⟨solver, depth, last⟩ := context
  obtain rfl : solver = none := h
  rfl

theorem run_call (toError : Fault → Error) {call : SolverCall σ α} {context : Context σ}
    {solver solver' : σ} {table table' : SymbolTable} {r : Except Fault α}
    (h : context.solver = some solver) (hrun : call.run (solver, table) = (r, solver', table')) :
    (Context.call toError call).run (context, table) =
      (r.mapError toError, { context with solver := some solver' }, table') := by
  obtain ⟨solver, depth, last⟩ := context
  obtain rfl : solver = some _ := h
  unfold Context.call
  rw [Step.run_bind, Step.run_get]
  dsimp only
  rw [hrun]
  dsimp only
  rw [Step.run_bind, Step.run_set]
  cases r <;> rfl

end Context

namespace Model

theorem run_ask (t : Term) {query : ModelQuery μ α} {model model' : μ}
    {table table' : SymbolTable} {r : Except Fault α}
    (hrun : query.run (model, table) = (r, model', table')) :
    (Model.ask t query).run (some model, table) =
      (r.mapError (errorAbout t), some model', table') := by
  unfold Model.ask
  rw [Step.run_bind, Step.run_get]
  dsimp only
  rw [hrun]
  dsimp only
  rw [Step.run_bind, Step.run_set]
  cases r <;> rfl

end Model

theorem PartStep.run_ofModel (step : ModelStep μ α) (p : Option μ × TermState) :
    (PartStep.ofModel step).run p = ((step.run (p.1, p.2.table)).1,
      (step.run (p.1, p.2.table)).2.1,
      { p.2 with table := (step.run (p.1, p.2.table)).2.2 }) := rfl

namespace Session

variable {S S' : Session σ μ}

theorem run_onTerms (step : Translation α) (S : Session σ μ) :
    (onTerms step).run S =
      ((step.run S.terms).1, { S with terms := (step.run S.terms).2 }) := rfl

theorem run_requireOpen (h : S.status ≠ .closed) : requireOpen.run S = (.ok ⟨⟩, S) := by
  rw [requireOpen, Step.run_bind, Step.run_get]
  simp only [h, if_false, Step.run_pure]

theorem run_requireActive (h : S.status = .active) : requireActive.run S = (.ok ⟨⟩, S) := by
  have hopen : S.status ≠ .closed := by simp [h]
  rw [requireActive, Step.run_bind_ok (run_requireOpen hopen), Step.run_bind, Step.run_get]
  simp only [h, ne_eq, not_true_eq_false, if_false, Step.run_pure]

theorem requireOpen_leads {R : Session σ μ → Session σ μ → Prop} (hR : Step.Closed R)
    (S : Session σ μ) : Leads R requireOpen S fun S' _ => S' = S ∧ S.status ≠ .closed := by
  refine .get ?_
  split
  · exact .throw hR _
  · exact .pure hR ⟨rfl, ‹_›⟩

theorem requireActive_leads {R : Session σ μ → Session σ μ → Prop} (hR : Step.Closed R)
    (S : Session σ μ) : Leads R requireActive S fun S' _ => S' = S ∧ S.status = .active := by
  refine .bind hR (requireOpen_leads hR S) fun _ S' _ h => ?_
  obtain ⟨rfl, _⟩ := h
  refine .get ?_
  split
  · exact .throw hR _
  · exact .pure hR ⟨rfl, not_not.mp ‹_›⟩

theorem ofExcept_leads (result : Except Error α) (S : Session σ μ) :
    Leads Eq (ofExcept result) S fun _ a => result = .ok a :=
  .mk closed_eq fun _ => id

theorem run_dropModel (S : Session σ μ) : dropModel.run S = (.ok ⟨⟩, S.dropped) := rfl

theorem run_release (S : Session σ μ) : release.run S = (.ok ⟨⟩, S.released) := rfl

theorem run_onContext (step : ContextStep σ α) {lease : Nat} {context : Context σ}
    (h : S.context = some (lease, context)) :
    (onContext step).run S =
      ((step.run (context, S.terms.table)).1, { S with
        context := some (lease, (step.run (context, S.terms.table)).2.1)
        terms := { S.terms with table := (step.run (context, S.terms.table)).2.2 } }) := by
  cases S
  obtain rfl : _ = some _ := h
  rfl

theorem run_onContext_none (step : ContextStep σ α) (h : S.context = none) :
    (onContext step).run S = (.error .defect, S) := by
  cases S
  obtain rfl : _ = none := h
  rfl

/-- A step on the context that neither changes it nor makes symbols. -/
theorem run_onContext_same (step : ContextStep σ α) {lease : Nat} {context : Context σ}
    {r : Except Error α} (h : S.context = some (lease, context))
    (hrun : step.run (context, S.terms.table) = (r, context, S.terms.table)) :
    (onContext step).run S = (r, S) := by
  rw [run_onContext step h, hrun, ← h]

/-- A step goes on after a call that has a result. -/
theorem Called.run_bind {call : SolverCall σ α} {a : α} (h : Called call S (.ok a) S')
    (toError : Fault → Error) (k : α → ContextStep σ β) :
    (onContext (Context.call toError call >>= k)).run S = (onContext (k a)).run S' := by
  cases h with
  | intro hcontext hsolver hrun =>
    have hcall := Context.run_call toError hsolver hrun
    rw [run_onContext _ hcontext, Step.run_bind_ok hcall, run_onContext _ rfl]

/-- A call of the solver is refused by the context, or fails, or the step goes on after it. -/
theorem run_call_cases (S : Session σ μ) (toError : Fault → Error) (call : SolverCall σ α)
    (k : α → ContextStep σ β) :
    (∃ e, (onContext (Context.call toError call >>= k)).run S = (.error e, S)) ∨
    (∃ e S₁, Called call S (.error e) S₁ ∧
      (onContext (Context.call toError call >>= k)).run S = (.error (toError e), S₁)) ∨
    ∃ a S₁, Called call S (.ok a) S₁ ∧
      (onContext (Context.call toError call >>= k)).run S = (onContext (k a)).run S₁ := by
  cases hcontext : S.context with
  | none => exact .inl ⟨_, run_onContext_none _ hcontext⟩
  | some p =>
    obtain ⟨lease, context⟩ := p
    cases hsolver : context.solver with
    | none =>
      refine .inl ⟨.contextReleased, run_onContext_same _ hcontext ?_⟩
      exact Step.run_bind_error (Context.run_call_none toError call hsolver _)
    | some solver =>
      obtain ⟨⟨r, solver', table'⟩, hrun⟩ : ∃ p, call.run (solver, S.terms.table) = p := ⟨_, rfl⟩
      have hcalled := Called.intro hcontext hsolver hrun
      have hcall := Context.run_call toError hsolver hrun
      cases r with
      | error e =>
        refine .inr (.inl ⟨e, _, hcalled, ?_⟩)
        rw [run_onContext _ hcontext, Step.run_bind_error hcall]
      | ok a => exact .inr (.inr ⟨a, _, hcalled, hcalled.run_bind toError k⟩)

theorem Called.run_throw {call : SolverCall σ α} {r : Except Fault α} (h : Called call S r S')
    (e : Error) : (onContext (throw e : ContextStep σ β)).run S' = (.error e, S') := by
  cases h
  rfl

theorem Called.run_pure {call : SolverCall σ α} {r : Except Fault α} (h : Called call S r S')
    (b : β) : (onContext (pure b : ContextStep σ β)).run S' = (.ok b, S') := by
  cases h
  rfl

theorem Called.run_change_return {call : SolverCall σ α} {r : Except Fault α}
    (h : Called call S r S') (f : Context σ → Context σ) (b : β) :
    (onContext (do Context.change f; return b)).run S' = (.ok b, S'.mapContext f) := by
  cases h
  rfl

theorem Called.run_change {call : SolverCall σ α} {r : Except Fault α} (h : Called call S r S')
    (f : Context σ → Context σ) :
    (onContext (Context.change f)).run S' = (.ok ⟨⟩, S'.mapContext f) := by
  cases h
  rfl

/-- Scopes are dropped if there are as many above the lowest one. -/
theorem run_pop_of_lt [Solver σ μ] {levels lease : Nat} {context : Context σ} {solver : σ}
    (hcontext : S.context = some (lease, context)) (hsolver : context.solver = some solver)
    (hdepth : levels < context.depth) : (onContext (Context.pop levels)).run S = (onContext (do
      Context.call Context.plainError (Solver.pop levels)
      Context.change fun c => { c with depth := c.depth - levels, last := none })).run S := by
  obtain ⟨_, depth, last⟩ := context
  obtain rfl : _ = some solver := hsolver
  have hpop : (Context.pop levels).run (⟨some solver, depth, last⟩, S.terms.table) =
      (if depth ≤ levels then throw (Error.popBeyondContext levels depth) >>= fun _ => _
        else _ : ContextStep σ Unit).run (⟨some solver, depth, last⟩, S.terms.table) := rfl
  rw [if_neg (Nat.not_le_of_lt hdepth)] at hpop
  rw [run_onContext _ hcontext, run_onContext _ hcontext, hpop]

/-- What has to hold before scopes are dropped. -/
theorem run_pop_cases [Solver σ μ] (levels : Nat) (S : Session σ μ) :
    (∃ e, (onContext (Context.pop levels)).run S = (.error e, S)) ∨ True ∧
      (onContext (Context.pop levels)).run S = (onContext (do
        Context.call Context.plainError (Solver.pop levels)
        Context.change fun c => { c with depth := c.depth - levels, last := none })).run S := by
  cases hcontext : S.context with
  | none => exact .inl ⟨_, run_onContext_none _ hcontext⟩
  | some p =>
    obtain ⟨lease, solver, depth, last⟩ := p
    cases solver with
    | none => exact .inl ⟨.contextReleased, run_onContext_same _ hcontext rfl⟩
    | some solver =>
      by_cases hdepth : depth ≤ levels
      · have hpop : (Context.pop levels).run (⟨some solver, depth, last⟩, S.terms.table) =
            (if depth ≤ levels then throw (Error.popBeyondContext levels depth) >>= fun _ => _
              else _ : ContextStep σ Unit).run (⟨some solver, depth, last⟩, S.terms.table) := rfl
        rw [if_pos hdepth] at hpop
        exact .inl ⟨.popBeyondContext levels depth, run_onContext_same _ hcontext hpop⟩
      · exact .inr ⟨trivial, run_pop_of_lt hcontext rfl (Nat.lt_of_not_le hdepth)⟩

/-- What has to hold before a model is asked for. -/
theorem run_model_cases [Solver σ μ] (S : Session σ μ) :
    (∃ e, (onContext Context.model).run S = (.error e, S)) ∨
      (S.lastStatus = some .sat ∨ S.lastStatus = some .unknown) ∧
        (onContext Context.model).run S =
          (onContext (Context.call Context.plainError Solver.model)).run S := by
  cases hcontext : S.context with
  | none => exact .inl ⟨_, run_onContext_none _ hcontext⟩
  | some p =>
    obtain ⟨lease, solver, depth, last⟩ := p
    have hlast : S.lastStatus = last := by simp [lastStatus, hcontext]
    cases solver with
    | none => exact .inl ⟨.contextReleased, run_onContext_same _ hcontext rfl⟩
    | some solver =>
      rw [hlast]
      cases last with
      | none => exact .inl ⟨.noModel, run_onContext_same _ hcontext rfl⟩
      | some status =>
        cases status with
        | unsat => exact .inl ⟨.noModel, run_onContext_same _ hcontext rfl⟩
        | sat =>
          rw [run_onContext _ hcontext, run_onContext _ hcontext]
          exact .inr ⟨.inl rfl, rfl⟩
        | unknown =>
          rw [run_onContext _ hcontext, run_onContext _ hcontext]
          exact .inr ⟨.inr rfl, rfl⟩

/-- What has to hold before a core is asked for. -/
theorem run_core_cases [Solver σ μ] (S : Session σ μ) :
    (∃ e, (onContext Context.core).run S = (.error e, S)) ∨
      S.lastStatus = some .unsat ∧
        (onContext Context.core).run S =
          (onContext (Context.call Context.plainError Solver.core)).run S := by
  cases hcontext : S.context with
  | none => exact .inl ⟨_, run_onContext_none _ hcontext⟩
  | some p =>
    obtain ⟨lease, solver, depth, last⟩ := p
    have hlast : S.lastStatus = last := by simp [lastStatus, hcontext]
    cases solver with
    | none => exact .inl ⟨.contextReleased, run_onContext_same _ hcontext rfl⟩
    | some solver =>
      rw [hlast]
      cases last with
      | none => exact .inl ⟨.noCore, run_onContext_same _ hcontext rfl⟩
      | some status =>
        cases status with
        | unsat =>
          rw [run_onContext _ hcontext, run_onContext _ hcontext]
          exact .inr ⟨rfl, rfl⟩
        | sat => exact .inl ⟨.noCore, run_onContext_same _ hcontext rfl⟩
        | unknown => exact .inl ⟨.noCore, run_onContext_same _ hcontext rfl⟩

theorem Called.lastStatus_noted {call : SolverCall σ α} {r : Except Fault α} {S'' : Session σ μ}
    (h : Called call S r S') (f : Context σ → Context σ) {last : Option CheckStatus}
    (hf : ∀ c, (f c).last = last) (hcontext : S''.context = (S'.mapContext f).context) :
    S''.lastStatus = last := by
  rw [Session.lastStatus, hcontext]
  cases h
  exact hf _

/-- A step that begins with a call of the solver. -/
theorem leads_call {R : Session σ μ → Session σ μ → Prop} {toError : Fault → Error}
    {call : SolverCall σ α} {k : α → ContextStep σ β} {next : β → SessionStep σ μ γ}
    {Q : Session σ μ → γ → Prop} (hrefl : R S S)
    (herror : ∀ e S₁, Called call S (.error e) S₁ → R S S₁)
    (hok : ∀ a S₁, Called call S (.ok a) S₁ →
      Leads (fun _ => R S) (onContext (k a) >>= next) S₁ Q) :
    Leads R (onContext (Context.call toError call >>= k) >>= next) S Q := by
  intro r S' hrun
  rcases run_call_cases S toError call k with ⟨e, he⟩ | ⟨e, S₁, hcalled, he⟩ | ⟨a, S₁, hcalled, h⟩
  · obtain ⟨rfl, rfl⟩ := Prod.mk.inj ((run_bind_error he).symm.trans hrun)
    exact ⟨hrefl, nofun⟩
  · obtain ⟨rfl, rfl⟩ := Prod.mk.inj ((run_bind_error he).symm.trans hrun)
    exact ⟨herror e _ hcalled, nofun⟩
  · rw [Step.run_bind, h, ← Step.run_bind] at hrun
    exact hok a S₁ hcalled r S' hrun

theorem leads_call_last {R : Session σ μ → Session σ μ → Prop} {toError : Fault → Error}
    {call : SolverCall σ α} {k : α → ContextStep σ β} {Q : Session σ μ → β → Prop}
    (hrefl : R S S) (herror : ∀ e S₁, Called call S (.error e) S₁ → R S S₁)
    (hok : ∀ a S₁, Called call S (.ok a) S₁ → Leads (fun _ => R S) (onContext (k a)) S₁ Q) :
    Leads R (onContext (Context.call toError call >>= k)) S Q := by
  rw [← bind_pure (onContext (Context.call toError call >>= k))]
  refine leads_call hrefl herror fun a S₁ hcalled => ?_
  rw [bind_pure]
  exact hok a S₁ hcalled

/-- A call of the solver after which the context is changed. -/
theorem leads_call_change {R : Session σ μ → Session σ μ → Prop} {toError : Fault → Error}
    {call : SolverCall σ Unit} {f : Context σ → Context σ} {next : Unit → SessionStep σ μ γ}
    {Q : Session σ μ → γ → Prop} (hrefl : R S S)
    (herror : ∀ e S₁, Called call S (.error e) S₁ → R S S₁)
    (hok : ∀ S₁, Called call S (.ok ()) S₁ →
      Leads (fun _ => R S) (next ()) (S₁.mapContext f) Q) :
    Leads R (onContext (do Context.call toError call; Context.change f) >>= next) S Q :=
  leads_call hrefl herror fun _ S₁ hcalled => .bind_of_run (hcalled.run_change f) (hok S₁ hcalled)

/-- A call whose faults are results. -/
theorem run_outcome {call : SolverCall σ α} {p p' : σ × SymbolTable} {r : Except Fault α}
    (h : call.run p = (r, p')) :
    (do try return .ok (← call) catch f => return .error f :
      SolverCall σ (Except Fault α)).run p = (.ok r, p') := by
  have hcall : call p = (r, p') := h
  rw [Step.run_bind]
  simp only [ExceptT.run, tryCatch, tryCatchThe, MonadExceptOf.tryCatch, ExceptT.tryCatch,
    ExceptT.mk, bind, ExceptT.bind, StateT.bind, ExceptT.bindCont, hcall]
  cases r <;> rfl

/-- The outcome of a check is that of the call, whether it fails or not. -/
theorem called_outcome {call : SolverCall σ α} {r : Except Fault (Except Fault α)}
    (h : Called (do try return .ok (← call) catch f => return .error f) S r S') :
    ∃ outcome, r = .ok outcome ∧ Called call S outcome S' := by
  cases h with
  | @intro _ _ solver _ _ _ hcontext hsolver hrun =>
    obtain ⟨⟨outcome, p⟩, hcall⟩ : ∃ q, call.run (solver, S.terms.table) = q := ⟨_, rfl⟩
    obtain ⟨rfl, rfl⟩ := Prod.mk.inj ((run_outcome hcall).symm.trans hrun)
    exact ⟨outcome, rfl, .intro hcontext hsolver hcall⟩

/-! ### Steps on the terms -/

/-- Whether nothing has changed but what translation has made, and how this has changed. -/
structure OnTerms (R : TermState → TermState → Prop) (S S' : Session σ μ) : Prop where
  terms : R S.terms S'.terms
  rest : S' = { S with terms := S'.terms }

theorem closed_onTerms {R : TermState → TermState → Prop} (hR : Step.Closed R) :
    Step.Closed (OnTerms (σ := σ) (μ := μ) R) where
  refl S := ⟨hR.refl S.terms, rfl⟩
  trans h h' := by
    refine ⟨hR.trans h.terms h'.terms, ?_⟩
    rw [h'.rest, h.rest]

theorem onTerms_leads {R : TermState → TermState → Prop} {step : Translation α}
    {Q : TermState → α → Prop} (h : Leads R step S.terms Q) :
    Leads (OnTerms R) (onTerms step) S fun S' a => Q S'.terms a := by
  intro r S' hrun
  rw [run_onTerms] at hrun
  obtain ⟨rfl, rfl⟩ := Prod.mk.inj hrun
  obtain ⟨hR, hQ⟩ := h _ _ rfl
  exact ⟨⟨hR, rfl⟩, hQ⟩

abbrev Reads (S S' : Session σ μ) : Prop := OnTerms TermState.Evolves S S'

theorem closed_reads : Step.Closed (Reads (σ := σ) (μ := μ)) :=
  closed_onTerms TermState.closed_evolves

/-! ### Steps on the model -/

/-- The session once its model has been asked, with the model and the terms that are left. -/
def withAsked (S : Session σ μ) (p : Option μ × TermState) : Session σ μ :=
  { S with
    model := match S.model, p.1 with
      | some (lease, _), some model => some (lease, model)
      | _, _ => none
    terms := p.2 }

theorem run_onModel (step : PartStep μ α) (S : Session σ μ) :
    (onModel step).run S = ((step.run (S.model.map Prod.snd, S.terms)).1,
      S.withAsked (step.run (S.model.map Prod.snd, S.terms)).2) := rfl

theorem withAsked_terms {model : Option μ} (h : S.model.map Prod.snd = model)
    (terms : TermState) : S.withAsked (model, terms) = { S with terms } := by
  subst h
  cases S with
  | mk initial configuration status logic sorts names terms info assertions definedParts context
    model contexts models => cases model <;> rfl

theorem withAsked_some {lease : Nat} {model : μ} (h : S.model = some (lease, model)) (model' : μ)
    (terms : TermState) :
    S.withAsked (some model', terms) = { S with model := some (lease, model'), terms } := by
  simp [withAsked, h]

theorem withAsked_self {p : Option μ × TermState} (hmodel : S.model.map Prod.snd = p.1)
    (hterms : S.terms = p.2) : S.withAsked p = S := by
  rw [withAsked_terms hmodel, ← hterms]

theorem model_withAsked {p : Option μ × TermState} (h : p.1.isSome = S.model.isSome) :
    (S.withAsked p).model.map Prod.snd = p.1 := by
  unfold withAsked
  cases hmodel : S.model <;> cases hp : p.1 <;> simp_all

theorem withAsked_withAsked {p p' : Option μ × TermState} (h : p.1.isSome = S.model.isSome) :
    (S.withAsked p).withAsked p' = S.withAsked p' := by
  unfold withAsked
  cases hmodel : S.model <;> cases hp : p.1 <;> simp_all
  split <;> simp_all

end Session

end SmtScript
