import SmtScript.Proofs.IntegerPart.Order
import SmtScript.Proofs.Session.Execution

/-!
Queries of a session are quiet.

Checks, models, values and cores leave the assertions and the defined integer parts alone, and
once their terms are read they are still. A question to the model is one move; computing the
floors of integer parts is a chain of questions and substitutions, `Asks`.
-/

namespace SmtScript

namespace Session

open Solver Step IntegerParts

variable {σ μ α : Type} [Solver σ μ] {S S' : Session σ μ} {p p' p'' : Option μ × TermState}
  {bound : Option String}

/-! ### Questions to the model -/

/-- What asking a model and substituting does, as a step of any session with that model. -/
structure Asks (σ : Type) {μ : Type} [Solver σ μ] (p p' : Option μ × TermState) : Prop where
  terms : p.2.Evolves p'.2
  present : p'.1.isSome = p.1.isSome
  still : ∀ S : Session σ μ, S.model.map Prod.snd = p.1 → S.terms = p.2 → Still S (S.withAsked p')

theorem closed_asks : Step.Closed (Asks σ (μ := μ)) where
  refl p := by
    refine ⟨.refl _, rfl, fun S hmodel hterms => ?_⟩
    rw [withAsked_self hmodel hterms]
  trans := by
    rintro p p' p'' h h'
    refine ⟨TermState.closed_evolves.trans h.terms h'.terms, h'.present.trans h.present,
      fun S hmodel hterms => ?_⟩
    have hpresent : p'.1.isSome = S.model.isSome := by
      rw [h.present, ← hmodel, Option.isSome_map]
    have hlater := h'.still (S.withAsked p') (model_withAsked hpresent) rfl
    rw [withAsked_withAsked hpresent] at hlater
    exact (h.still S hmodel hterms).trans hlater

/-- Substituting changes nothing but what substitutions leave behind. -/
theorem asks_leftover {model : Option μ} {terms : TermState} {leftover : Term.Leftover}
    (h : terms.Sound → Term.SoundLeftover terms.Knows leftover) :
    Asks σ (model, terms) (model, { terms with leftover }) := by
  have hevolves := TermState.evolves_leftover h
  refine ⟨hevolves, rfl, fun S hmodel hterms => ?_⟩
  rw [withAsked_terms hmodel]
  obtain rfl : S.terms = terms := hterms
  exact .single
    { move := .translate hevolves
      terms := hevolves
      integerParts := rfl
      locals := rfl
      names := rfl
      sorts := List.suffix_refl _
      assertions := rfl
      definedParts := rfl
      status := rfl }

/-- What is substituted in a sound term, by sound terms. -/
theorem substitute_asks {known : Substitution} {t : Term} (hT : p.2.Sound)
    (hknown : Term.SoundSubstitution p.2.Knows known) (ht : t.Sound p.2.Knows) :
    Leads (Asks σ) (substitute known t) p fun p' u => u.Sound p'.2.Knows := by
  obtain ⟨model, terms⟩ := p
  have hsub := hknown.substituted.over ht hT.leftover
  refine .get ?_
  dsimp only
  refine .bind closed_asks (Q := fun p' _ => p'.2.Knows = terms.Knows)
    (.of_run (run_set _ _) (asks_leftover fun _ => hsub.1)
      fun _ _ => rfl) fun _ p' _ hp' => ?_
  split
  · rename_i u hu
    exact .pure closed_asks (hp' ▸ hsub.2 u hu)
  · exact .throw closed_asks _

theorem onModel_still {step : PartStep μ α}
    (h : Leads (Asks σ) step (S.model.map Prod.snd, S.terms) fun _ _ => True) :
    Leads Still (onModel step) S fun _ _ => True := by
  intro r S' hrun
  rw [run_onModel] at hrun
  obtain ⟨rfl, rfl⟩ := Prod.mk.inj hrun
  obtain ⟨hasks, _⟩ := h _ _ rfl
  exact ⟨hasks.still S rfl rfl, fun _ _ => trivial⟩

variable [GrowingSolver σ μ]

theorem ofModel_asks {query : ModelQuery μ α} (hanswers : Answers σ query) (t : Term)
    (p : Option μ × TermState) :
    Leads (Asks σ) (PartStep.ofModel (Model.ask t query)) p fun _ _ => True := by
  obtain ⟨model, terms⟩ := p
  cases model with
  | none => exact .of_run (r := .error .modelReleased) rfl (closed_asks.refl _) nofun
  | some model =>
    obtain ⟨⟨r, model', table'⟩, hrun⟩ : ∃ q, query.run (model, terms.table) = q := ⟨_, rfl⟩
    have hrun' := PartStep.run_ofModel (Model.ask t query) (some model, terms)
    rw [Model.run_ask t hrun] at hrun'
    refine .of_run hrun' ?_ fun _ _ => trivial
    have hevolves : terms.Evolves { terms with table := table' } :=
      TermState.evolves_table (GrowingSolver.question hanswers hrun)
    refine ⟨hevolves, rfl, fun S hmodel hterms => ?_⟩
    obtain ⟨⟨lease, model₁⟩, hS, rfl⟩ := Option.map_eq_some_iff.mp hmodel
    obtain rfl : S.terms = terms := hterms
    rw [withAsked_some hS]
    exact .single
      { move := .ask hanswers hS hrun
        terms := hevolves
        integerParts := rfl
        locals := rfl
        names := rfl
        sorts := List.suffix_refl _
        assertions := rfl
        definedParts := rfl
        status := rfl }

theorem evaluate_asks (t : Term) (p : Option μ × TermState) :
    Leads (Asks σ) (IntegerParts.evaluate (σ := σ) t) p fun _ _ => True :=
  ofModel_asks (.evaluate t) t p

/-- The floors of sound operands, one after the other. -/
theorem floors_asks {parts : IntegerParts} {known : Substitution} (hT : p.2.Sound)
    (hparts : ∀ part ∈ parts, part.2.Sound p.2.Knows)
    (hknown : Term.SoundSubstitution p.2.Knows known) :
    Leads (Asks σ) (floors (σ := σ) parts known) p
      fun p' known' => Term.SoundSubstitution p'.2.Knows known' := by
  induction parts generalizing p known with
  | nil => exact .pure closed_asks hknown
  | cons part newer ih =>
    obtain ⟨symbol, operand⟩ := part
    obtain ⟨hoperand, hnewer⟩ := List.forall_mem_cons.mp hparts
    refine .bind closed_asks (substitute_asks hT hknown hoperand) fun u p₁ h₁ _ => ?_
    refine .bind closed_asks (evaluate_asks u p₁) fun value p₂ h₂ _ => ?_
    have h := closed_asks.trans h₁ h₂
    split
    · exact .throw closed_asks _
    · refine ih (h.terms.sound hT) (fun part hpart => ?_) ?_
      · exact (hnewer part hpart).mono fun _ => h.terms.knows
      · refine List.forall_mem_cons.mpr ⟨Term.sound_int _, fun q hq => ?_⟩
        exact (hknown q hq).mono fun _ => h.terms.knows

theorem resolve_asks {t : Term} (hT : p.2.Sound) (ht : t.Sound p.2.Knows) :
    Leads (Asks σ) (resolve (σ := σ) t) p fun _ _ => True := by
  refine .get ?_
  dsimp only
  split
  · exact .pure closed_asks trivial
  · rw [valuesIn_nil]
    have hparts : ∀ part ∈ demanded p.2.integerParts t [], part.2.Sound p.2.Knows :=
      fun part hpart => hT.operand part (occurs_of_mem_demanded hpart).mem
    refine .bind closed_asks (floors_asks hT hparts (by simp [Term.SoundSubstitution]))
      fun known p₁ h₁ hknown => ?_
    have ht₁ : t.Sound p₁.2.Knows := ht.mono fun _ => h₁.terms.knows
    exact (substitute_asks (h₁.terms.sound hT) hknown ht₁).mono fun _ _ _ _ => trivial

/-! ### Values and models -/

theorem ensureModel_still (S : Session σ μ) : Leads Still ensureModel S fun _ _ => True := by
  refine .bind closed_still (requireActive_leads closed_still S) fun _ S₁ _ _ => ?_
  refine .get ?_
  split
  · exact .pure closed_still trivial
  · rename_i hmodel
    refine .guarded (closed_still.refl _) (run_model_cases S₁) fun hlast => ?_
    rw [← bind_pure (Context.call _ _)]
    refine leads_call (closed_still.refl _) (fun e S₂ hcalled => ?_) fun model S₂ hcalled => ?_
    · exact hcalled.still .model (.refuse .model hcalled) rfl rfl rfl rfl rfl rfl
    · refine .bind_of_run (hcalled.run_pure model) ?_
      have hmove := Move.keep hmodel hlast hcalled
      exact .modify (hcalled.still .model hmove rfl rfl rfl rfl rfl rfl) trivial

theorem evaluateAll_still {ts : List Term} (hS : S.Sound)
    (hts : ∀ t ∈ ts, t.Sound S.terms.Knows) :
    Leads Still (evaluateAll ts) S fun _ _ => True := by
  induction ts generalizing S with
  | nil => exact .pure closed_still trivial
  | cons t rest ih =>
    obtain ⟨ht, hrest⟩ := List.forall_mem_cons.mp hts
    have hvalue : Leads (Asks σ)
        (do IntegerParts.evaluate (σ := σ) (← IntegerParts.resolve (σ := σ) t))
        (S.model.map Prod.snd, S.terms) fun _ _ => True :=
      .bind closed_asks (resolve_asks hS.terms ht) fun u p' _ _ => evaluate_asks u p'
    refine .bind closed_still (onModel_still hvalue) fun value S₁ h₁ _ => ?_
    have hrest₁ : ∀ t ∈ rest, t.Sound S₁.terms.Knows := fun t ht =>
      (hrest t ht).mono fun _ => h₁.knows
    refine .bind closed_still (ih (h₁.sound hS) hrest₁) fun later S₂ _ _ => ?_
    exact .pure closed_still trivial

theorem getValue_quiet (hS : S.Sound) (sexprs : List SExpr) :
    Leads (Quiet bound) (getValue sexprs) S fun _ _ => True := by
  refine .bind closed_quiet (requireActive_leads closed_quiet S) fun _ S₁ h₁ _ => ?_
  refine .bind closed_quiet
    ((parseTerms_reads (h₁.sound hS) sexprs).weaken fun _ h => h.quiet) fun ts S₂ h₂ hts => ?_
  refine .bind closed_quiet ((ensureModel_still S₂).weaken fun _ h => h.quiet) fun _ S₃ h₃ _ => ?_
  have hts₃ : ∀ t ∈ ts, t.Sound S₃.terms.Knows := fun t ht => (hts t ht).mono fun _ => h₃.knows
  have hS₃ : S₃.Sound := h₃.sound (h₂.sound (h₁.sound hS))
  refine .bind closed_quiet ((evaluateAll_still hS₃ hts₃).weaken fun _ h => h.quiet)
    fun values S₄ _ _ => ?_
  exact .pure closed_quiet trivial

theorem modelEntry_still (name : String) (binding : Binding) (S : Session σ μ) :
    Leads Still (modelEntry name binding) S fun _ _ => True := by
  unfold modelEntry
  split
  · split
    · refine .bind closed_still (onModel_still (ofModel_asks (.interpret _) _ _))
        fun _ _ _ _ => ?_
      exact .pure closed_still trivial
    · refine .bind closed_still (onModel_still (ofModel_asks (.evaluate _) _ _))
        fun _ _ _ _ => ?_
      exact .pure closed_still trivial
  · exact .pure closed_still trivial

theorem modelEntries_still (entries : List (String × Binding)) (S : Session σ μ) :
    Leads Still (modelEntries entries) S fun _ _ => True := by
  induction entries generalizing S with
  | nil => exact .pure closed_still trivial
  | cons entry rest ih =>
    refine .bind closed_still (modelEntry_still entry.1 entry.2 S) fun _ S₁ _ _ => ?_
    refine .bind closed_still (ih S₁) fun _ _ _ _ => ?_
    exact .pure closed_still trivial

theorem getModel_still (S : Session σ μ) : Leads Still getModel S fun _ _ => True := by
  refine .bind closed_still (ensureModel_still S) fun _ S₁ _ _ => ?_
  exact .get (modelEntries_still _ S₁)

theorem getUnsatCore_still (S : Session σ μ) :
    Leads Still getUnsatCore S fun _ _ => True := by
  refine .bind closed_still (requireActive_leads closed_still S) fun _ S₁ _ _ => ?_
  rw [← bind_pure (onContext Context.core)]
  refine .guarded (closed_still.refl _) (run_core_cases S₁) fun hlast => ?_
  rw [← bind_pure (Context.call _ _)]
  refine leads_call (closed_still.refl _) (fun e S₂ hcalled => ?_) fun ts S₂ hcalled => ?_
  · exact hcalled.still .core (.refuse .core hcalled) rfl rfl rfl rfl rfl rfl
  · refine .bind_of_run (hcalled.run_pure ts) ?_
    have hmove := Move.core hlast hcalled
    exact .of_run (run_pure _ _) (hcalled.still .core hmove rfl rfl rfl rfl rfl rfl)
      fun _ _ => trivial

/-! ### Checks -/

theorem statusOf_error {assumptions : List Term} {outcome : Except Fault Bool} {e : Error}
    (h : Context.statusOf assumptions outcome = .error e) : ∃ f, outcome = .error f := by
  cases outcome with
  | error f => exact ⟨f, rfl⟩
  | ok answer => cases answer <;> cases h

theorem check_still (assumptions : List Term) (hmodel : S.model = none) :
    Leads Still (onContext (Context.check assumptions)) S
      fun S' status => S'.lastStatus = some status := by
  refine leads_call_last (closed_still.refl _) (fun e S₁ hcalled => ?_) fun r S₁ hcalled => ?_
  · obtain ⟨outcome, houtcome, _⟩ := called_outcome hcalled
    cases houtcome
  · obtain ⟨outcome, houtcome, hcalled'⟩ := called_outcome hcalled
    obtain rfl := Except.ok.inj houtcome
    split
    · rename_i status hstatus
      have hmove := Move.check hmodel hstatus hcalled'
      refine .of_run (hcalled.run_change_return _ status)
        (hcalled'.still (.satisfiable _) hmove rfl rfl rfl rfl rfl rfl) ?_
      rintro _ ⟨⟩
      exact hcalled.lastStatus_noted ({ · with last := some status }) (fun _ => rfl) rfl
    · rename_i e hstatus
      obtain ⟨f, rfl⟩ := statusOf_error hstatus
      have hmove := Move.refuse (.satisfiable _) hcalled'
      exact .of_run (hcalled.run_throw e)
        (hcalled'.still (.satisfiable _) hmove rfl rfl rfl rfl rfl rfl) nofun

theorem checkSat_quiet (hS : S.Sound) (assumptions : List SExpr) :
    Leads (Quiet bound) (checkSat assumptions) S
      fun S' status => S'.lastStatus = some status := by
  refine .bind closed_quiet (requireActive_leads closed_quiet S) fun _ S₁ h₁ _ => ?_
  refine .bind closed_quiet ((dropModel_still S₁).weaken fun _ h => h.quiet)
    fun _ S₂ h₂ hdropped => ?_
  refine .bind closed_quiet (((parseTerms_reads (h₂.sound (h₁.sound hS)) assumptions).keep).weaken
    fun _ h => h.quiet) fun ts S₃ _ h₃ => ?_
  have hmodel : S₃.model = none := by rw [h₃.1.rest, hdropped, dropped_model]
  exact .get ((check_still _ hmodel).weaken fun _ h => h.quiet)

end Session

end SmtScript
