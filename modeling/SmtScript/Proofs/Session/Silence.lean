import SmtScript.Proofs.Error
import SmtScript.Proofs.Session.Queries
import SmtScript.Proofs.Term.Instantiation

/-!
Solvers that fail without a word.

A step on the context of a session fails without a word only if the call of the solver in it does,
`Session.onContext_owns`. A question to the model does only if the model fails in this way, and
asking for the value of a term whose integer parts are known by their operands also if the model
gives a value that is no number, `Session.evaluateAll_owns`.
-/

namespace SmtScript

open Solver Step

variable {σ μ α β : Type}

namespace Context

/-- Whether a step on the context fails without a word only if a call of the solver does, which
ends the step. -/
def EndsIn (call : SolverCall σ α) (step : ContextStep σ β) : Prop :=
  ∀ (context : Context σ) (table : SymbolTable),
    Owns (fun p => ∃ solver solver', context.solver = some solver ∧
      call.run (solver, table) = (.error .broken, solver', p.2) ∧
      p.1 = { context with solver := some solver' }) step (context, table)

variable {call : SolverCall σ α} {toError : Fault → Error}

theorem endsIn_call (htold : ∀ f, (toError f).isSilent = true → f = .broken) :
    EndsIn call (Context.call toError call) := by
  intro context table
  cases hsolver : context.solver with
  | none => exact .of_error (run_call_none toError call hsolver table) nofun
  | some solver =>
    obtain ⟨⟨r, solver', table'⟩, hrun⟩ : ∃ p, call.run (solver, table) = p := ⟨_, rfl⟩
    have hcall := run_call toError hsolver hrun
    cases r with
    | ok a => exact .of_ok hcall
    | error f =>
      refine .of_error hcall fun hsilent => ⟨solver, solver', rfl, ?_, rfl⟩
      rw [hrun, htold f hsilent]

/-- A step that cannot fail comes after the call. -/
theorem EndsIn.change {step : ContextStep σ Unit} (h : EndsIn call step)
    (f : Context σ → Context σ) : EndsIn call (do step; Context.change f) := fun context table =>
  Stops.bind (h context table) fun _ _ _ => .of_ok rfl

/-- An open context is asked for first. -/
theorem EndsIn.requireOpen {step : ContextStep σ β} (h : EndsIn call step) :
    EndsIn call (do Context.requireOpen; step) := by
  intro context table
  obtain ⟨solver | solver, depth, last⟩ := context
  · exact Stops.bind (Owns.throw rfl) fun _ _ h => nomatch h
  · exact Stops.bind_of_run rfl (h _ table)

theorem isSilent_plainError {f : Fault} (h : (plainError f).isSilent = true) : f = .broken :=
  Fault.isSilent_iff.mp h

variable [Solver σ μ]

theorem endsIn_add (t : Term) : EndsIn (Solver.add t) (Context.add (σ := σ) t) := by
  have hcall : EndsIn (Solver.add t)
      (Context.call (fun f => .fault f none [t] []) (Solver.add t : SolverCall σ Unit)) :=
    endsIn_call fun _ => Fault.isSilent_iff.mp
  exact hcall.change _

theorem endsIn_push (levels : Nat) :
    EndsIn (Solver.push levels) (Context.push (σ := σ) levels) :=
  (endsIn_call fun _ => isSilent_plainError).change _

theorem endsIn_reset : EndsIn Solver.reset (Context.reset (σ := σ)) :=
  (endsIn_call fun _ => isSilent_plainError).change _

theorem endsIn_pop (levels : Nat) : EndsIn (Solver.pop levels) (Context.pop (σ := σ) levels) := by
  refine EndsIn.requireOpen fun context table => ?_
  refine Stops.bind_of_run rfl ?_
  dsimp only
  by_cases hdepth : context.depth ≤ levels
  · simp only [hdepth, if_true]
    exact Stops.bind (Owns.throw rfl) fun _ _ h => nomatch h
  · simp only [hdepth, if_false]
    exact (endsIn_call fun _ => isSilent_plainError).change _ context table

theorem endsIn_check (assumptions : List Term) :
    EndsIn (Solver.satisfiable assumptions) (Context.check (σ := σ) assumptions) := by
  intro context table
  cases hsolver : context.solver with
  | none => exact .of_error (run_bind_error (run_call_none _ _ hsolver table)) nofun
  | some solver =>
    obtain ⟨⟨outcome, solver', table'⟩, hrun⟩ : ∃ p,
      (Solver.satisfiable assumptions : SolverCall σ Bool).run (solver, table) = p := ⟨_, rfl⟩
    have hcall := run_call plainError hsolver (Session.run_outcome hrun)
    refine Stops.bind_of_run hcall ?_
    split
    · exact .of_ok rfl
    · rename_i e hstatus
      refine Stops.throw fun hsilent => ⟨solver, solver', rfl, ?_, rfl⟩
      cases outcome with
      | ok answer => cases answer <;> cases hstatus
      | error f =>
        rw [hrun]
        unfold statusOf at hstatus
        dsimp only at hstatus
        split at hstatus
        · cases hstatus
        · cases hstatus
          rw [Fault.isSilent_iff.mp hsilent]

theorem endsIn_model : EndsIn Solver.model (Context.model (σ := σ)) := by
  refine EndsIn.requireOpen fun context table => ?_
  refine Stops.bind_of_run rfl ?_
  dsimp only
  split
  · exact endsIn_call (fun _ => isSilent_plainError) context table
  · exact endsIn_call (fun _ => isSilent_plainError) context table
  · exact Owns.throw rfl

theorem endsIn_core : EndsIn Solver.core (Context.core (σ := σ)) := by
  refine EndsIn.requireOpen fun context table => ?_
  refine Stops.bind_of_run rfl ?_
  dsimp only
  split
  · exact endsIn_call (fun _ => isSilent_plainError) context table
  · exact Owns.throw rfl

end Context

/-! ### Questions to the model -/

/-- Whether a question makes a model fail without a word, or gets no number for a Real term. -/
inductive Unanswered (σ : Type) {μ : Type} [Solver σ μ] (model : μ) (table table' : SymbolTable) :
    Prop where
  | failed {α : Type} {query : ModelQuery μ α} {model' : μ} (hanswers : Answers σ query)
      (hrun : query.run (model, table) = (.error .broken, model', table'))
  | noNumber {t v : Term} {model' : μ} (hsort : t.sort = .real)
      (hrun : (Solver.evaluate σ t).run (model, table) = (.ok v, model', table'))
      (hnone : IntegerParts.floorOf v = none)

namespace Session

variable [Solver σ μ] {S S' : Session σ μ} {p p' p'' : Option μ × TermState}

/-- Whether a question is left unanswered, perhaps after others that have been answered. -/
def Stumps (σ : Type) {μ : Type} [Solver σ μ] (p p' : Option μ × TermState) : Prop :=
  ∃ p₁ model, Asks σ p p₁ ∧ p₁.1 = some model ∧ Unanswered σ model p₁.2.table p'.2.table

theorem Stumps.after (h : Asks σ p p') (h' : Stumps σ p' p'') : Stumps σ p p'' := by
  obtain ⟨p₁, model, hasks, hmodel, hunanswered⟩ := h'
  exact ⟨p₁, model, closed_asks.trans h hasks, hmodel, hunanswered⟩

theorem errorAbout_silent {t : Term} {f : Fault} (h : (Model.errorAbout t f).isSilent = true) :
    f = .broken := by
  unfold Model.errorAbout at h
  split at h
  · cases h
  · exact Fault.isSilent_iff.mp h

/-- A model that is asked. -/
theorem ask_owns {query : ModelQuery μ α} (hanswers : Answers σ query) (t : Term) :
    Owns (Stumps σ p) (PartStep.ofModel (Model.ask t query)) p := by
  obtain ⟨model, terms⟩ := p
  cases model with
  | none => exact .of_error (e := .modelReleased) rfl nofun
  | some model =>
    obtain ⟨⟨r, model', table'⟩, hrun⟩ : ∃ q, query.run (model, terms.table) = q := ⟨_, rfl⟩
    have hrun' := PartStep.run_ofModel (Model.ask t query) (some model, terms)
    rw [Model.run_ask t hrun] at hrun'
    cases r with
    | ok a => exact .of_ok hrun'
    | error f =>
      refine .of_error hrun' fun hsilent => ⟨_, model, closed_asks.refl _, rfl, ?_⟩
      rw [errorAbout_silent hsilent] at hrun
      exact .failed hanswers hrun

/-- Asking leaves alone what substitutions have left behind. -/
theorem ask_leftover (step : ModelStep μ α) :
    Leads (fun p p' => p'.2.leftover = p.2.leftover) (PartStep.ofModel step) p fun _ _ => True :=
  .of_run (PartStep.run_ofModel step p) rfl fun _ _ => trivial

/-! ### Values of integer parts -/

section

variable {t u : Term} {known : Substitution} {parts : IntegerParts}

theorem run_substitute_typed (hclean : p.2.leftover = none) (ht : t.WellSorted)
    (hknown : ∀ q ∈ known, q.2.Typed q.1.sort) :
    ∃ u, u.Typed t.sort ∧ (IntegerParts.substitute known t).run p = (.ok u, p) := by
  obtain ⟨u, hu, htyped⟩ := Term.substitute_typed ht hknown
  obtain ⟨model, terms⟩ := p
  refine ⟨u, htyped, ?_⟩
  unfold IntegerParts.substitute
  rw [run_bind_ok (run_get _)]
  dsimp only
  rw [hclean, Term.substituteOver_none hu]
  dsimp only
  rw [run_bind_ok (run_set _ _), ← hclean]
  rfl

/-- Whether integer parts are of the right sorts, and so are their operands. -/
def Fits (parts : IntegerParts) : Prop :=
  ∀ q ∈ parts, q.1.sort = .int ∧ q.2.WellSorted ∧ q.2.sort = .real

/-- A value that is no number leaves a question unanswered. -/
theorem evaluate_stumps {v : Term} (hsort : u.sort = .real)
    (hrun : (IntegerParts.evaluate (σ := σ) u).run p = (.ok v, p'))
    (hnone : IntegerParts.floorOf v = none) : Stumps σ p p' := by
  obtain ⟨model, terms⟩ := p
  cases model with
  | none => cases hrun
  | some model =>
    obtain ⟨⟨r, model', table'⟩, hquery⟩ : ∃ q,
      (Solver.evaluate σ u : ModelQuery μ Term).run (model, terms.table) = q := ⟨_, rfl⟩
    have hrun' := PartStep.run_ofModel (Model.evaluate (σ := σ) u) (some model, terms)
    rw [Model.evaluate, Model.run_ask u hquery] at hrun'
    obtain ⟨hr, rfl⟩ := Prod.mk.inj (hrun'.symm.trans hrun)
    rw [Term.mapError_ok hr] at hquery
    exact ⟨_, model, closed_asks.refl _, rfl, .noNumber hsort hquery hnone⟩

variable [GrowingSolver σ μ]

theorem evaluate_cases (hclean : p.2.leftover = none) (u : Term) :
    Owns (Stumps σ p) (IntegerParts.evaluate (σ := σ) u) p ∧
      Leads (Asks σ) (IntegerParts.evaluate (σ := σ) u) p fun p' _ => p'.2.leftover = none := by
  refine ⟨ask_owns (.evaluate u) u, fun r p' hrun => ?_⟩
  obtain ⟨hasks, _⟩ := evaluate_asks u p r p' hrun
  obtain ⟨hleftover, _⟩ := ask_leftover (Model.evaluate (σ := σ) u) r p' hrun
  exact ⟨hasks, fun _ _ => hleftover.trans hclean⟩

/-- The floors of integer parts are found unless a question is left unanswered. -/
theorem floors_cases (hclean : p.2.leftover = none) (hparts : Fits parts)
    (hknown : ∀ q ∈ known, q.2.Typed q.1.sort) :
    Owns (Stumps σ p) (IntegerParts.floors (σ := σ) parts known) p ∧
      Leads (Asks σ) (IntegerParts.floors (σ := σ) parts known) p fun p' known' =>
        p'.2.leftover = none ∧ ∀ q ∈ known', q.2.Typed q.1.sort := by
  induction parts generalizing p known with
  | nil => exact ⟨Stops.pure _, .pure closed_asks ⟨hclean, hknown⟩⟩
  | cons part newer ih =>
    obtain ⟨symbol, operand⟩ := part
    obtain ⟨⟨hsymbol, hwell, hreal⟩, hnewer⟩ := List.forall_mem_cons.mp hparts
    obtain ⟨u, hu, hrun⟩ := run_substitute_typed hclean hwell hknown
    have hsubstitute : Leads (Asks σ) (IntegerParts.substitute known operand) p
        fun p' u' => p' = p ∧ u' = u :=
      .of_run hrun (closed_asks.refl p) fun _ h => ⟨rfl, (Except.ok.inj h).symm⟩
    refine Stops.bind_and_leads closed_asks ⟨.of_ok hrun, hsubstitute⟩ fun u' p' _ h => ?_
    obtain ⟨rfl, rfl⟩ := h
    obtain ⟨howns, hleads⟩ := evaluate_cases (σ := σ) hclean u'
    refine Stops.bind_and_leads closed_asks ⟨howns, hleads.ran⟩ fun v p₁ hasks h => ?_
    obtain ⟨hvalue, hclean₁⟩ := h
    split
    · rename_i hnone
      have hsort : u'.sort = .real := hu.sort_eq.trans hreal
      exact ⟨Stops.throw fun _ => evaluate_stumps hsort hvalue hnone, .throw closed_asks _⟩
    · rename_i value _
      have hfirst : (Term.int value).Typed symbol.sort := by
        rw [hsymbol]
        exact Term.typed_int value
      have hknown' : ∀ q ∈ (symbol, Term.int value) :: known, q.2.Typed q.1.sort :=
        List.forall_mem_cons.mpr ⟨hfirst, hknown⟩
      obtain ⟨howns', hleads'⟩ := ih hclean₁ hnewer hknown'
      exact ⟨howns'.mono fun _ _ h hsilent => (h hsilent).after hasks, hleads'⟩

theorem fits_demanded {terms : TermState} (h : terms.Sound) (t : Term) :
    Fits (IntegerParts.demanded terms.integerParts t []) := fun q hq => by
  have hmem := (IntegerParts.occurs_of_mem_demanded hq).mem
  exact ⟨h.sort_symbol q hmem, (h.operand q hmem).wellSorted, h.sort_operand q hmem⟩

/-- The integer parts of a term are resolved unless a question is left unanswered. -/
theorem resolve_cases (hT : p.2.Sound) (hclean : p.2.leftover = none) (ht : t.WellSorted) :
    Owns (Stumps σ p) (IntegerParts.resolve (σ := σ) t) p ∧
      Leads (Asks σ) (IntegerParts.resolve (σ := σ) t) p fun p' _ => p'.2.leftover = none := by
  have hget : Leads (Asks σ) (get : PartStep μ (Option μ × TermState)) p
      fun p' q => p' = p ∧ q = p :=
    .of_run (run_get p) (closed_asks.refl p) fun _ h => ⟨rfl, (Except.ok.inj h).symm⟩
  refine Stops.bind_and_leads closed_asks ⟨.of_ok (run_get p), hget⟩ fun q p' _ h => ?_
  obtain ⟨rfl, rfl⟩ := h
  dsimp only
  split
  · exact ⟨Stops.pure _, .pure closed_asks hclean⟩
  · rw [IntegerParts.valuesIn_nil]
    have hnone : ∀ q ∈ ([] : Substitution), q.2.Typed q.1.sort := nofun
    obtain ⟨howns, hleads⟩ := floors_cases (σ := σ) hclean (fits_demanded hT t) hnone
    refine Stops.bind_and_leads closed_asks ⟨howns, hleads⟩ fun known p₁ _ h => ?_
    obtain ⟨hclean₁, hknown⟩ := h
    obtain ⟨u, _, hrun⟩ := run_substitute_typed hclean₁ ht hknown
    exact ⟨.of_ok hrun, .of_run hrun (closed_asks.refl _) fun _ _ => hclean₁⟩

/-- The value of a term is found unless a question is left unanswered. -/
theorem value_cases (hT : p.2.Sound) (hclean : p.2.leftover = none) (ht : t.WellSorted) :
    Owns (Stumps σ p)
        (do IntegerParts.evaluate (σ := σ) (← IntegerParts.resolve (σ := σ) t)) p ∧
      Leads (Asks σ) (do IntegerParts.evaluate (σ := σ) (← IntegerParts.resolve (σ := σ) t)) p
        fun p' _ => p'.2.leftover = none := by
  refine Stops.bind_and_leads closed_asks (resolve_cases hT hclean ht)
    fun u p' hasks hclean' => ?_
  obtain ⟨howns, hleads⟩ := evaluate_cases (σ := σ) hclean' u
  exact ⟨howns.mono fun _ _ h hsilent => (h hsilent).after hasks, hleads⟩

end

end Session

/-! ### Steps of a session -/

namespace Session

variable {S : Session σ μ}

/-- As long as there is a context, a step on it fails without a word only if a call does. -/
theorem onContext_owns {call : SolverCall σ α} {step : ContextStep σ β}
    (h : Context.EndsIn call step) (hcontext : S.context.isSome = true) :
    Owns (fun S' => Called call S (.error .broken) S') (onContext step) S := by
  obtain ⟨⟨lease, context⟩, hcontext⟩ := Option.isSome_iff_exists.mp hcontext
  intro e S' hrun hsilent
  rw [run_onContext step hcontext] at hrun
  obtain ⟨he, rfl⟩ := Prod.mk.inj hrun
  obtain ⟨solver, solver', hsolver, hcall, hleft⟩ :=
    h context S.terms.table e _ (Prod.ext he rfl) hsilent
  rw [hleft]
  exact .intro hcontext hsolver hcall

variable [Solver σ μ]

/-- Whether a model that a session comes to have leaves a question unanswered. -/
def Baffled (S S' : Session σ μ) : Prop :=
  ∃ S₁ lease model, Moves S S₁ ∧ S₁.model = some (lease, model) ∧
    Unanswered σ model S₁.terms.table S'.terms.table

theorem Baffled.after {S₁ S' : Session σ μ} (h : Moves S S₁) (h' : Baffled S₁ S') :
    Baffled S S' := by
  obtain ⟨S₂, lease, model, hmoves, hmodel, hunanswered⟩ := h'
  exact ⟨S₂, lease, model, h.trans hmoves, hmodel, hunanswered⟩

/-- A step on the model fails without a word only if a question is left unanswered. -/
theorem onModel_owns {step : PartStep μ α}
    (h : Owns (Stumps σ (S.model.map Prod.snd, S.terms)) step
      (S.model.map Prod.snd, S.terms)) :
    Owns (Baffled S) (onModel step) S := by
  intro e S' hrun hsilent
  rw [run_onModel] at hrun
  obtain ⟨he, rfl⟩ := Prod.mk.inj hrun
  obtain ⟨p, model, hasks, hmodel, hunanswered⟩ := h e _ (Prod.ext he rfl) hsilent
  have hpresent : p.1.isSome = S.model.isSome := by
    rw [hasks.present, Option.isSome_map]
  obtain ⟨⟨lease, _⟩, hS, rfl⟩ :=
    Option.map_eq_some_iff.mp ((model_withAsked hpresent).trans hmodel)
  exact ⟨S.withAsked p, lease, _, (hasks.still S rfl rfl).moves, hS, hunanswered⟩

theorem modelEntry_owns (name : String) (binding : Binding) (S : Session σ μ) :
    Owns (Baffled S) (modelEntry name binding) S := by
  unfold modelEntry
  split
  · split
    · exact Stops.bind (onModel_owns (ask_owns (.interpret _) _)) fun _ _ _ => Stops.pure _
    · exact Stops.bind (onModel_owns (ask_owns (.evaluate _) _)) fun _ _ _ => Stops.pure _
  · exact Stops.pure _

variable [GrowingSolver σ μ]

/-- Unless a substitution was left unfinished, the values of terms are found if no question is left
unanswered. -/
theorem evaluateAll_owns {ts : List Term} (hS : S.Sound) (hclean : S.terms.leftover = none)
    (hts : ∀ t ∈ ts, t.Sound S.terms.Knows) : Owns (Baffled S) (evaluateAll ts) S := by
  induction ts generalizing S with
  | nil => exact Stops.pure _
  | cons t rest ih =>
    obtain ⟨ht, hrest⟩ := List.forall_mem_cons.mp hts
    obtain ⟨howns, hleads⟩ := value_cases (σ := σ) (p := (S.model.map Prod.snd, S.terms)) hS.terms
      hclean ht.wellSorted
    refine Stops.bind (onModel_owns howns) fun value S₁ hrun => ?_
    have hstill : Still S S₁ :=
      (onModel_still (hleads.mono fun _ _ _ _ => trivial) _ _ hrun).1
    rw [run_onModel] at hrun
    obtain ⟨hvalue, rfl⟩ := Prod.mk.inj hrun
    have hclean₁ := (hleads _ _ (Prod.ext hvalue rfl)).2 value rfl
    have hrest₁ := fun t ht => (hrest t ht).mono fun _ => hstill.knows
    refine Stops.bind ((ih (hstill.sound hS) hclean₁ hrest₁).mono fun _ _ h hsilent => ?_)
      fun later _ _ => Stops.pure _
    exact (h hsilent).after hstill.moves

/-- The entries of a model are found if no question is left unanswered. -/
theorem modelEntries_owns (entries : List (String × Binding)) (S : Session σ μ) :
    Owns (Baffled S) (modelEntries entries) S := by
  induction entries generalizing S with
  | nil => exact Stops.pure _
  | cons entry rest ih =>
    refine Stops.bind (modelEntry_owns entry.1 entry.2 S) fun _ S₁ hrun => ?_
    have hmoves := (modelEntry_still entry.1 entry.2 S _ _ hrun).1.moves
    refine Stops.bind ((ih S₁).mono fun _ _ h hsilent => ?_) fun _ _ _ => Stops.pure _
    exact (h hsilent).after hmoves

end Session

end SmtScript
