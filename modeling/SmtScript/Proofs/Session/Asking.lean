import SmtScript.Proofs.Session.KeptModel

/-!
Queries with and without the kept model.

If the kept model is the one that the solver has, then a query gives the same result whether it uses
the kept model or makes it again. Without a model and without an answer every query fails.
-/

namespace SmtScript

namespace Session

open Solver Step

variable {σ μ α : Type} {S S' : Session σ μ}

/-- The session with another model. -/
def withModel (model : Option (Nat × μ)) (models : Leases) (S : Session σ μ) : Session σ μ :=
  { S with model, models }

theorem exists_withModel_dropped (S : Session σ μ) :
    ∃ models, S.dropped = S.withModel none models := by
  cases S with
  | mk initial configuration status logic sorts names terms info assertions definedParts context
    model contexts models =>
    cases model with
    | none => exact ⟨models, rfl⟩
    | some p => exact ⟨models.giveBack p.1, rfl⟩

/-- Whether two sessions differ in the lease of their model only. -/
def SameModel (S S' : Session σ μ) : Prop :=
  ∃ model models, S' = S.withModel model models ∧ model.map Prod.snd = S.model.map Prod.snd

/-! ### What queries notice of the kept model -/

/-- Whether a step has a result. -/
def Succeeds (x : SessionStep σ μ α) (S : Session σ μ) : Prop := ∃ a, (x.run S).1 = .ok a

/-- Whether a step gives the same result, or the same error, with the kept model as without it. -/
def SameWithout (x : SessionStep σ μ α) (S : Session σ μ) : Prop :=
  (x.run S).1 = (x.run S.dropped).1

theorem not_succeeds {x : SessionStep σ μ α}
    (h : Leads (fun _ _ => True) x S fun _ _ => False) : ¬ Succeeds x S :=
  fun ⟨a, ha⟩ => (h _ _ rfl).2 a ha

theorem sameWithout_of_alike {x : SessionStep σ μ α}
    (h : ∀ models, Alike x x S (S.withModel none models) SameModel) : SameWithout x S := by
  obtain ⟨models, hdropped⟩ := exists_withModel_dropped S
  rw [SameWithout, hdropped]
  exact (h models).1

theorem SameWithout.succeeds_iff {x : SessionStep σ μ α} (h : SameWithout x S) :
    Succeeds x S ↔ Succeeds x S.dropped := by
  rw [Succeeds, Succeeds, h]

/-! ### Before a model is asked for -/

theorem requireActive_alike (S : Session σ μ) (model : Option (Nat × μ)) (models : Leases) :
    Alike requireActive requireActive S (S.withModel model models)
      fun T T' => T = S ∧ T' = S.withModel model models := by
  refine .bind (P := fun T T' => T = S ∧ T' = S.withModel model models) ?_ ?_
  · refine .get ?_
    change Alike (if S.status = .closed then _ else _) (if S.status = .closed then _ else _) _ _ _
    split
    · exact .throw _
    · exact .pure ⟨rfl, rfl⟩
  · rintro _ T T' ⟨rfl, rfl⟩
    refine .get ?_
    change Alike (if T.status ≠ .active then _ else _) (if T.status ≠ .active then _ else _) _ _ _
    split
    · exact .throw _
    · exact .pure ⟨rfl, rfl⟩

/-- Terms are read without a look at the model. -/
theorem parseTerms_alike (sexprs : List SExpr) (S : Session σ μ) (model : Option (Nat × μ))
    (models : Leases) :
    Alike (parseTerms sexprs) (parseTerms sexprs) S (S.withModel model models) fun T T' =>
      T.model = S.model ∧ T.context = S.context ∧ T' = T.withModel model models := by
  induction sexprs generalizing S with
  | nil => exact .pure ⟨rfl, rfl, rfl⟩
  | cons sexpr rest ih =>
    have hfirst : Alike (parseTerm sexpr) (parseTerm sexpr) S (S.withModel model models)
        fun T T' => T.model = S.model ∧ T.context = S.context ∧ T' = T.withModel model models :=
      ⟨rfl, fun _ _ => ⟨rfl, rfl, rfl⟩⟩
    refine .bind hfirst ?_
    rintro t T _ ⟨hmodel, hcontext, rfl⟩
    refine .bind (ih T) ?_
    rintro ts U _ ⟨hmodel', hcontext', rfl⟩
    exact .pure ⟨hmodel'.trans hmodel, hcontext'.trans hcontext, rfl⟩

/-! ### Asking the model -/

theorem onModel_alike (step : PartStep μ α) (h : SameModel S S') :
    Alike (onModel step) (onModel step) S S' SameModel := by
  obtain ⟨model, models, rfl, hmodel⟩ := h
  have hrun : (onModel step).run (S.withModel model models) =
      ((step.run (S.model.map Prod.snd, S.terms)).1,
        (S.withModel model models).withAsked (step.run (S.model.map Prod.snd, S.terms)).2) := by
    rw [run_onModel, ← hmodel]
    rfl
  rw [Alike, hrun, run_onModel]
  generalize step.run (S.model.map Prod.snd, S.terms) = p
  refine ⟨rfl, fun _ _ => ⟨((S.withModel model models).withAsked p.2).model, models, rfl, ?_⟩⟩
  unfold withAsked withModel
  cases hS : S.model <;> cases hmodel' : model <;> cases p.2.1 <;> simp_all

variable [Solver σ μ]

theorem evaluateAll_alike (ts : List Term) (h : SameModel S S') :
    Alike (evaluateAll ts) (evaluateAll ts) S S' SameModel := by
  induction ts generalizing S S' with
  | nil => exact .pure h
  | cons t rest ih =>
    refine .bind (onModel_alike _ h) fun value T T' hT => ?_
    exact .bind (ih hT) fun later U U' hU => .pure hU

theorem modelEntry_alike (name : String) (binding : Binding) (h : SameModel S S') :
    Alike (modelEntry name binding) (modelEntry name binding) S S' SameModel := by
  unfold modelEntry
  split
  · split
    · exact .bind (onModel_alike _ h) fun _ _ _ hT => .pure hT
    · exact .bind (onModel_alike _ h) fun _ _ _ hT => .pure hT
  · exact .pure h

theorem modelEntries_alike (entries : List (String × Binding)) (h : SameModel S S') :
    Alike (modelEntries entries) (modelEntries entries) S S' SameModel := by
  induction entries generalizing S S' with
  | nil => exact .pure h
  | cons entry rest ih =>
    refine .bind (modelEntry_alike entry.1 entry.2 h) fun first T T' hT => ?_
    exact .bind (ih hT) fun later U U' hU => .pure hU

/-! ### Making the model again -/

/-- Whether the solver gives a model whenever it is asked. -/
def HasModel (S : Session σ μ) (m : μ) : Prop :=
  ∃ lease context, S.context = some (lease, context) ∧
    ∀ table, Context.model.run (context, table) = (.ok m, context, table)

theorem Cached.hasModel (hS : S.Cached) (hanswered : S.Answered) {lease : Nat} {m : μ}
    (hmodel : S.model = some (lease, m)) : S.HasModel m := by
  obtain ⟨solver, hsolver, _, hgives⟩ := hS.model lease m hmodel
  cases hcontext : S.context with
  | none => simp [solver?, hcontext] at hsolver
  | some p =>
    obtain ⟨lease, solver', depth, last⟩ := p
    obtain rfl : solver' = some solver := by simpa [solver?, hcontext] using hsolver
    have hlast : S.lastStatus = last := by simp [lastStatus, hcontext]
    refine ⟨lease, _, hcontext, fun table => ?_⟩
    have hcall : (Context.call Context.plainError Solver.model).run
        (⟨some solver, depth, last⟩, table) = (.ok m, ⟨some solver, depth, last⟩, table) :=
      Context.run_call _ rfl (hgives hanswered table)
    rcases hanswered with hsat | hunknown
    · obtain rfl : some .sat = last := hsat.symm.trans hlast
      exact hcall
    · obtain rfl : some .unknown = last := hunknown.symm.trans hlast
      exact hcall

theorem ensureModel_alike {lease : Nat} {m : μ} (hmodel : S.model = some (lease, m))
    (hhas : S.HasModel m) (models : Leases) :
    Alike ensureModel ensureModel S (S.withModel none models) SameModel := by
  refine .bind (requireActive_alike S none models) ?_
  rintro _ T T' ⟨rfl, rfl⟩
  refine .get ?_
  obtain ⟨lease', context, hcontext, hgives⟩ := hhas
  have hagain : (onContext Context.model).run (T.withModel none models) =
      (.ok m, T.withModel none models) :=
    run_onContext_same _ (S := T.withModel none models) hcontext (hgives _)
  rw [hmodel]
  change Alike (pure ⟨⟩) (onContext Context.model >>= fun model => modify fun session =>
    { session with
      model := some (session.models.take.1, model), models := session.models.take.2 }) _ _ _
  rw [Alike, run_bind_ok hagain]
  refine ⟨rfl, fun _ _ => ⟨some (models.take.1, m), models.take.2, rfl, ?_⟩⟩
  rw [run_pure, hmodel]
  rfl

theorem getValue_alike {lease : Nat} {m : μ} (hmodel : S.model = some (lease, m))
    (hhas : S.HasModel m) (sexprs : List SExpr) (models : Leases) :
    Alike (getValue sexprs) (getValue sexprs) S (S.withModel none models) SameModel := by
  refine .bind (requireActive_alike S none models) ?_
  rintro _ T T' ⟨rfl, rfl⟩
  refine .bind (parseTerms_alike sexprs T none models) ?_
  rintro ts U _ ⟨hmodelU, hcontextU, rfl⟩
  have hhasU : U.HasModel m := by
    rw [HasModel, hcontextU]
    exact hhas
  refine .bind (ensureModel_alike (hmodelU.trans hmodel) hhasU models) fun _ V V' hV => ?_
  exact .bind (evaluateAll_alike ts hV) fun values W W' hW => .pure hW

theorem getModel_alike {lease : Nat} {m : μ} (hmodel : S.model = some (lease, m))
    (hhas : S.HasModel m) (models : Leases) :
    Alike getModel getModel S (S.withModel none models) SameModel := by
  refine .bind (ensureModel_alike hmodel hhas models) fun _ T T' hT => ?_
  have hnames : T'.names = T.names := by
    obtain ⟨model, models, rfl, _⟩ := hT
    rfl
  refine .get ?_
  rw [hnames]
  exact modelEntries_alike _ hT

/-! ### Without an answer -/

/-- Without a kept model and without an answer there is no model. -/
theorem ensureModel_fails (hmodel : S.model = none) (hanswered : ¬ S.Answered) :
    Leads (fun _ _ => True) ensureModel S fun _ _ => False := by
  refine .bind closed_true (requireActive_leads closed_true S) fun _ T _ hT => ?_
  obtain ⟨rfl, _⟩ := hT
  refine .get ?_
  rw [hmodel]
  change Leads _ (onContext Context.model >>= fun model => _) _ _
  refine .guarded (y := throw .noModel) trivial ?_ fun h => absurd h hanswered
  rcases run_model_cases T with hfails | ⟨hlast, _⟩
  · exact .inl hfails
  · exact absurd hlast hanswered

theorem getValue_fails (hS : S.Sound) (hmodel : S.model = none) (hanswered : ¬ S.Answered)
    (sexprs : List SExpr) : Leads (fun _ _ => True) (getValue sexprs) S fun _ _ => False := by
  refine .bind closed_true (requireActive_leads closed_true S) fun _ T _ hT => ?_
  obtain ⟨rfl, _⟩ := hT
  refine .bind closed_true ((parseTerms_reads hS sexprs).keep.weaken fun _ _ => trivial)
    fun ts U _ hU => ?_
  have hmodelU : U.model = none := by rw [hU.1.rest]; exact hmodel
  have hansweredU : ¬ U.Answered := by rw [hU.1.rest]; exact hanswered
  exact .bind closed_true (ensureModel_fails hmodelU hansweredU) fun _ _ _ h => h.elim

theorem getModel_fails (hmodel : S.model = none) (hanswered : ¬ S.Answered) :
    Leads (fun _ _ => True) getModel S fun _ _ => False :=
  .bind closed_true (ensureModel_fails hmodel hanswered) fun _ _ _ h => h.elim

end Session

end SmtScript
