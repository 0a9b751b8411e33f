import SmtScript.Interpreter
import SmtScript.Proofs.IntegerPart
import SmtScript.Proofs.Session.Running
import SmtScript.Proofs.Session.Sound

/-!
Every operation of a session is made of moves.

Quiet operations leave the stack of assertions, the defined integer parts and the status alone,
whether they fail or not, and bind one name at most; the still ones among them translate nothing.
The other operations work on the stack, or set or end a session: they make no model, and if they
succeed with a change of the defined integer parts, then they drop the model. An assertion leaves
the number of levels alone, and opening and closing levels changes it in one move.
-/

namespace SmtScript

namespace Session

open Solver Step

variable {σ μ α : Type} {S S' S'' : Session σ μ} {bound : Option String}

/-! ### Reading terms -/

theorem Reads.sound (h : Reads S S') (hS : S.Sound) : S'.Sound := by
  have hnames : S'.names = S.names := by rw [h.rest]
  have hassertions : S'.assertions = S.assertions := by rw [h.rest]
  exact hS.evolve h.terms hnames fun t ht => .inl (hassertions ▸ ht)

theorem parseTerm_reads (hS : S.Sound) (sexpr : SExpr) :
    Leads Reads (parseTerm sexpr) S fun S' t => t.Sound S'.terms.Knows :=
  .get (onTerms_leads (translate_evolves S.sorts sexpr hS.terms hS.names))

theorem parseTerms_reads (hS : S.Sound) (sexprs : List SExpr) :
    Leads Reads (parseTerms sexprs) S fun S' ts => ∀ t ∈ ts, t.Sound S'.terms.Knows := by
  induction sexprs generalizing S with
  | nil => exact .pure closed_reads (by simp)
  | cons sexpr rest ih =>
    refine .bind closed_reads (parseTerm_reads hS sexpr) fun t S₁ h₁ ht => ?_
    refine .bind closed_reads (ih (h₁.sound hS)) fun ts S₂ h₂ hts => ?_
    have ht' : t.Sound S₂.terms.Knows := ht.mono fun _ => h₂.terms.knows
    exact .pure closed_reads (List.forall_mem_cons.mpr ⟨ht', hts⟩)

variable [Solver σ μ]

/-! ### Moves without assertions -/

/-- A move that leaves the stack and the status alone, keeps all that translation has made, and
binds one name at most. -/
structure QuietMove (bound : Option String) (S S' : Session σ μ) : Prop where
  move : Move S S'
  terms : S.terms.Evolves S'.terms
  names : ∀ name, bound ≠ some name → S'.names.get? name = S.names.get? name
  bound : ∀ name, S.names.contains name = true → S'.names.contains name = true
  sorts : S.sorts.declared <:+ S'.sorts.declared
  assertions : S'.assertions = S.assertions
  definedParts : S'.definedParts = S.definedParts
  status : S'.status = S.status

/-- Any number of quiet moves. -/
abbrev Quiet (bound : Option String) : Session σ μ → Session σ μ → Prop :=
  Relation.ReflTransGen (QuietMove bound)

/-- A quiet move that neither binds a name nor makes an integer part. -/
structure StillMove (S S' : Session σ μ) : Prop where
  move : Move S S'
  terms : S.terms.Evolves S'.terms
  integerParts : S'.terms.integerParts = S.terms.integerParts
  locals : S'.terms.locals = S.terms.locals
  names : S'.names = S.names
  sorts : S.sorts.declared <:+ S'.sorts.declared
  assertions : S'.assertions = S.assertions
  definedParts : S'.definedParts = S.definedParts
  status : S'.status = S.status

/-- Any number of still moves. -/
abbrev Still : Session σ μ → Session σ μ → Prop :=
  Relation.ReflTransGen StillMove

theorem closed_quiet : Step.Closed (Quiet (σ := σ) (μ := μ) bound) where
  refl _ := .refl
  trans h h' := h.trans h'

theorem closed_still : Step.Closed (Still (σ := σ) (μ := μ)) where
  refl _ := .refl
  trans h h' := h.trans h'

theorem StillMove.quiet (h : StillMove S S') : QuietMove bound S S' :=
  { h with
    names := fun _ _ => by rw [h.names]
    bound := fun _ hbound => by rw [h.names]; exact hbound }

theorem Still.quiet (h : Still S S') : Quiet bound S S' :=
  Relation.ReflTransGen.mono (fun _ _ hmove => hmove.quiet) _ _ h

theorem Quiet.moves (h : Quiet bound S S') : Moves S S' :=
  Relation.ReflTransGen.mono (fun _ _ hmove => hmove.move) _ _ h

theorem Still.moves (h : Still S S') : Moves S S' :=
  Relation.ReflTransGen.mono (fun _ _ hmove => hmove.move) _ _ h

theorem Quiet.terms (h : Quiet bound S S') : S.terms.Evolves S'.terms := by
  induction h with
  | refl => exact .refl _
  | tail _ hmove ih => exact TermState.closed_evolves.trans ih hmove.terms

theorem Quiet.definedParts (h : Quiet bound S S') : S'.definedParts = S.definedParts := by
  induction h with
  | refl => rfl
  | tail _ hmove ih => exact hmove.definedParts.trans ih

theorem Quiet.status (h : Quiet bound S S') : S'.status = S.status := by
  induction h with
  | refl => rfl
  | tail _ hmove ih => exact hmove.status.trans ih

theorem Still.names (h : Still S S') : S'.names = S.names := by
  induction h with
  | refl => rfl
  | tail _ hmove ih => exact hmove.names.trans ih

theorem Still.integerParts (h : Still S S') : S'.terms.integerParts = S.terms.integerParts := by
  induction h with
  | refl => rfl
  | tail _ hmove ih => exact hmove.integerParts.trans ih

theorem Still.of_move (h : Move S S') (hterms : S'.terms = S.terms) (hnames : S'.names = S.names)
    (hsorts : S'.sorts = S.sorts) (hassertions : S'.assertions = S.assertions)
    (hparts : S'.definedParts = S.definedParts) (hstatus : S'.status = S.status) : Still S S' :=
  .single
    { move := h
      terms := hterms ▸ .refl _
      integerParts := hterms ▸ rfl
      locals := hterms ▸ rfl
      names := hnames
      sorts := hsorts ▸ List.suffix_refl _
      assertions := hassertions
      definedParts := hparts
      status := hstatus }

theorem Quiet.knows (h : Quiet bound S S') {s : Symbol} (hs : S.terms.Knows s) :
    S'.terms.Knows s :=
  h.terms.knows hs

theorem Still.knows (h : Still S S') {s : Symbol} (hs : S.terms.Knows s) : S'.terms.Knows s :=
  Quiet.knows (h.quiet : Quiet none S S') hs

theorem Reads.move (h : Reads S S') : Move S S' := by
  rw [h.rest]
  exact .translate h.terms

theorem Reads.quiet (h : Reads S S') : Quiet bound S S' := by
  have hmove := h.move
  have hterms := h.terms
  rw [h.rest] at hmove ⊢
  exact .single
    { move := hmove
      terms := hterms
      names := fun _ _ => rfl
      bound := fun _ => id
      sorts := List.suffix_refl _
      assertions := rfl
      definedParts := rfl
      status := rfl }

/-- Moves that make no model. -/
structure Stacks (S S' : Session σ μ) : Prop where
  moves : Moves S S'
  model : S'.model = none ∨ S'.model = S.model

theorem closed_stacks : Step.Closed (Stacks (σ := σ) (μ := μ)) where
  refl _ := ⟨.refl, .inr rfl⟩
  trans h h' := by
    refine ⟨h.moves.trans h'.moves, ?_⟩
    rcases h'.model with hnone | hsame
    · exact .inl hnone
    · rw [hsame]
      exact h.model

/-- A move within an active session that leaves the names alone. -/
structure ScopeMove (S S' : Session σ μ) : Prop where
  move : Move S S'
  names : S'.names = S.names
  sorts : S'.sorts = S.sorts
  status : S'.status = S.status

/-- A move that leaves the number of levels alone. -/
structure FlatMove (S S' : Session σ μ) : Prop extends ScopeMove S S' where
  depth : S'.assertions.depth = S.assertions.depth

/-- Moves that make no model, open no level and close none. -/
structure Flat (S S' : Session σ μ) : Prop where
  moves : Relation.ReflTransGen FlatMove S S'
  model : S'.model = none ∨ S'.model = S.model

theorem Flat.stacks (h : Flat S S') : Stacks S S' :=
  ⟨Relation.ReflTransGen.mono (fun _ _ hmove => hmove.move) _ _ h.moves, h.model⟩

theorem closed_flat : Step.Closed (Flat (σ := σ) (μ := μ)) where
  refl _ := ⟨.refl, .inr rfl⟩
  trans h h' := ⟨h.moves.trans h'.moves, (closed_stacks.trans h.stacks h'.stacks).model⟩

/-- Moves of which the last one at most opens or closes levels. -/
inductive Shifts (S S' : Session σ μ) : Prop where
  | flat (h : Flat S S')
  | move {S₁ : Session σ μ} (h : Flat S S₁) (hmove : ScopeMove S₁ S') (hmodel : S'.model = none)

theorem Shifts.stacks (h : Shifts S S') : Stacks S S' := by
  cases h with
  | flat h => exact h.stacks
  | move h hmove hmodel => exact ⟨h.stacks.moves.tail hmove.move, .inl hmodel⟩

theorem Reads.flat (h : Reads S S') : Flat S S' := by
  have hmove := h.move
  rw [h.rest] at hmove ⊢
  exact ⟨.single ⟨⟨hmove, rfl, rfl, rfl⟩, rfl⟩, .inr rfl⟩

theorem flat_dropped (S : Session σ μ) : Flat S S.dropped :=
  ⟨.single ⟨⟨.drop S, by simp, by simp, by simp⟩, by simp⟩, .inl (by simp)⟩

theorem dropModel_flat (S : Session σ μ) :
    Leads Flat dropModel S fun S' _ => S' = S.dropped :=
  .of_run (run_dropModel S) (flat_dropped S) fun _ _ => rfl

/-- A call that is refused. -/
theorem Called.flat {call : SolverCall σ α} {e : Fault} (hoffers : Offers call)
    (h : Called call S (.error e) S') : Flat S S' :=
  ⟨.single ⟨⟨.refuse hoffers h, h.names, h.sorts, h.status⟩, by rw [h.assertions]⟩, .inr h.model⟩

/-! ### Steps and moves -/

theorem dropModel_still (S : Session σ μ) :
    Leads Still dropModel S fun S' _ => S' = S.dropped :=
  .of_run (run_dropModel S)
    (.of_move (.drop S) (by simp) (by simp) (by simp) (by simp) (by simp) (by simp))
    fun _ _ => rfl

theorem onTerms_quiet {step : Translation α} {Q : TermState → α → Prop}
    (h : Leads TermState.Evolves step S.terms Q) :
    Leads (Quiet bound) (onTerms step) S fun S' a => Q S'.terms a :=
  (onTerms_leads h).weaken fun _ h => Reads.quiet h

/-! ### Options, names and sorts -/

/-- Setting a logic makes no model, and in an active session it changes nothing. -/
theorem setLogic_stacks (logic : String) (S : Session σ μ) :
    Leads (fun S S' => Stacks S S' ∧ (S.status = .active → S' = S)) (setLogic logic) S
      fun S' _ => S'.definedParts = S.definedParts := by
  have hclosed : Step.Closed fun S S' : Session σ μ =>
      Stacks S S' ∧ (S.status = .active → S' = S) := by
    refine ⟨fun S => ⟨closed_stacks.refl S, fun _ => rfl⟩, fun h h' =>
      ⟨closed_stacks.trans h.1 h'.1, fun hactive => ?_⟩⟩
    obtain rfl := h.2 hactive
    exact h'.2 hactive
  refine .bind hclosed (requireOpen_leads hclosed S) fun _ S' _ h => ?_
  obtain ⟨rfl, hopen⟩ := h
  refine .get ?_
  by_cases hactive : S'.status = .active
  · simp only [hactive, if_true]
    exact .bind (Q := fun _ _ => False) hclosed (.throw hclosed _) fun _ _ _ h => h.elim
  · simp only [hactive, if_false]
    have hstatus : S'.status = .uninitialized := by
      cases h : S'.status
      · rfl
      · exact absurd h hactive
      · exact absurd h hopen
    split
    · exact .throw hclosed _
    · rename_i hadmits
      have hstacks := Move.activate logic hstatus hadmits
      exact .of_run (Step.run_set _ _)
        ⟨⟨.single hstacks, .inr rfl⟩, fun h => absurd h hactive⟩ fun _ _ => rfl

theorem still_note (S : Session σ μ) (configuration : Configuration) {sorts : SortTable}
    (info : Table String) (hsorts : S.sorts.declared <:+ sorts.declared) :
    Still S { S with configuration, sorts, info } :=
  .single
    { move := .note S configuration sorts info
      terms := .refl _
      integerParts := rfl
      locals := rfl
      names := rfl
      sorts := hsorts
      assertions := rfl
      definedParts := rfl
      status := rfl }

theorem setOption_still (keyword value : String) (S : Session σ μ) :
    Leads Still (setOption keyword value) S fun _ _ => True := by
  refine .bind closed_still (requireOpen_leads closed_still S) fun _ S' _ h => ?_
  exact .of_run rfl (still_note S' _ S'.info (List.suffix_refl _)) fun _ _ => trivial

theorem getOption_still (keyword : String) (S : Session σ μ) :
    Leads Still (getOption keyword) S fun _ _ => True := by
  refine .bind closed_still (requireOpen_leads closed_still S) fun _ S' _ h => ?_
  refine .get ?_
  split
  · exact .pure closed_still trivial
  · exact .throw closed_still _

theorem setInfo_still (keyword value : String) (S : Session σ μ) :
    Leads Still (setInfo keyword value) S fun _ _ => True := by
  refine .bind closed_still (requireOpen_leads closed_still S) fun _ S' _ h => ?_
  exact .modify (still_note S' S'.configuration _ (List.suffix_refl _)) trivial

theorem getInfo_still (keyword : String) (S : Session σ μ) :
    Leads Still (getInfo keyword) S fun _ _ => True := by
  refine .bind closed_still (requireOpen_leads closed_still S) fun _ S' _ h => ?_
  refine .get ?_
  split
  · exact .pure closed_still trivial
  · exact .throw closed_still _

theorem ofExcept_still (result : Except Error α) (S : Session σ μ) :
    Leads Still (ofExcept result) S fun S' a => S' = S ∧ result = .ok a :=
  .mk closed_still fun _ ha => ⟨rfl, ha⟩

theorem suffix_declare {table table' : SortTable} {name : String} {arity : Int} {sort : SmtSort}
    (h : table.declare name arity = .ok (sort, table')) : table.declared <:+ table'.declared := by
  unfold SortTable.declare at h
  split at h
  · obtain ⟨_, rfl⟩ := Prod.mk.inj (Except.ok.inj h)
    exact List.suffix_cons _ _
  · cases h

theorem declareSort_still (name : String) (arity : Nat) (S : Session σ μ) :
    Leads Still (declareSort name arity) S fun _ _ => True := by
  refine .bind closed_still (requireOpen_leads closed_still S) fun _ S' _ h => ?_
  refine .get ?_
  refine .bind closed_still (ofExcept_still _ S') fun declared S'' _ h => ?_
  obtain ⟨rfl, hdeclare⟩ := h
  exact .modify (still_note S'' S''.configuration S''.info (suffix_declare hdeclare)) trivial

theorem newSymbol_quiet (name : String) (sort : SmtSort) (S : Session σ μ) :
    Leads (Quiet bound) (newSymbol name sort) S fun S' s => S'.terms.Knows s := by
  refine .get ?_
  dsimp only
  split
  · exact onTerms_quiet (Translation.freshSymbol_evolves _ _)
  · split
    · exact .throw closed_quiet _
    · have hevolves : S.terms.Evolves { S.terms with table := S.terms.table.add ⟨name, sort⟩ } :=
        TermState.evolves_table (List.suffix_cons _ _)
      refine .bind closed_quiet (Q := fun S' _ => S'.terms.Knows ⟨name, sort⟩)
        (.modify (Reads.quiet ⟨hevolves, rfl⟩) ?_) fun _ S' _ hs => ?_
      · simp [TermState.Knows, SymbolTable.add]
      · exact .pure closed_quiet hs

theorem bindName_quiet (name : String) {binding : Binding} (h : binding.Sound S.terms.Knows) :
    Leads (Quiet (some name)) (bindName name binding) S fun _ _ => True := by
  refine .modify (.single ?_) trivial
  refine
    { move := .bind name h
      terms := .refl _
      names := fun other hother => ?_
      bound := fun other hbound => ?_
      sorts := List.suffix_refl _
      assertions := rfl
      definedParts := rfl
      status := rfl }
  · have hne : other ≠ name := fun heq => hother (by rw [heq])
    rw [Table.get?_insert, if_neg hne]
  · rw [Table.contains, Table.get?_insert]
    split
    · rfl
    · exact hbound

theorem ofExcept_quiet (result : Except Error α) (S : Session σ μ) :
    Leads (Quiet bound) (ofExcept result) S fun S' a => S' = S ∧ result = .ok a :=
  .mk closed_quiet fun _ ha => ⟨rfl, ha⟩

theorem declareFun_quiet (name : String) (domains : List SExpr) (codomain : SExpr)
    (S : Session σ μ) :
    Leads (Quiet (some name)) (declareFun name domains codomain) S fun _ _ => True := by
  refine .bind closed_quiet (requireOpen_leads closed_quiet S) fun _ S₁ _ _ => ?_
  refine .get ?_
  refine .bind closed_quiet (ofExcept_quiet _ S₁) fun domains S₂ _ _ => ?_
  refine .bind closed_quiet (ofExcept_quiet _ S₂) fun codomain S₃ _ _ => ?_
  refine .bind closed_quiet (newSymbol_quiet name _ S₃) fun symbol S₄ _ hs => ?_
  refine .bind closed_quiet (bindName_quiet name (Term.sound_symbol.mpr hs)) fun _ _ _ _ => ?_
  exact .pure closed_quiet trivial

theorem declareParameters_quiet (name : String) (parameters : List SExpr) (S : Session σ μ) :
    Leads (Quiet bound) (declareParameters name parameters) S
      fun S' declared => ∀ p ∈ declared, S'.terms.Knows p.2 := by
  induction parameters generalizing S with
  | nil => exact .pure closed_quiet (by simp)
  | cons parameter rest ih =>
    unfold declareParameters
    split
    · cases ‹_ = _›
    · rename_i parameter sort rest' heq
      obtain ⟨rfl, rfl⟩ := List.cons.inj heq
      refine .get ?_
      refine .bind closed_quiet (ofExcept_quiet _ S) fun sort S₁ _ _ => ?_
      refine .bind closed_quiet (onTerms_quiet (Translation.freshLocal_evolves _ _))
        fun symbol S₂ _ hs => ?_
      refine .bind closed_quiet (ih S₂) fun later S₃ h₃ hlater => ?_
      exact .pure closed_quiet (List.forall_mem_cons.mpr ⟨h₃.knows hs, hlater⟩)
    · exact .throw closed_quiet _

theorem keeps_fitBody {W : SmtSort → Prop} {P : Term → Prop} (hP : Term.Hereditary W P)
    {name : String} {sort : SmtSort} {sexpr : SExpr} {body t : Term}
    (h : fitBody name sort sexpr body = .ok t)
    (hbody : P body) : P t := by
  unfold fitBody at h
  split at h
  · exact Term.keeps_mkToReal hP (Term.mapError_ok h) hbody
  · split at h
    · cases h
    · exact Except.ok.inj h ▸ hbody

/-- Moves that keep the model, the names, the assertions and all integer parts, and those that are
defined stay so. -/
structure Defining (S S' : Session σ μ) : Prop where
  moves : Relation.ReflTransGen FlatMove S S'
  model : S'.model = S.model
  names : S'.names = S.names
  assertions : S'.assertions = S.assertions
  terms : S.terms.Evolves S'.terms
  integerParts : S'.terms.integerParts = S.terms.integerParts
  locals : S'.terms.locals = S.terms.locals
  definedParts : ∀ k, S.definedParts.contains k = true → S'.definedParts.contains k = true

theorem closed_defining : Step.Closed (Defining (σ := σ) (μ := μ)) where
  refl _ := ⟨.refl, rfl, rfl, rfl, .refl _, rfl, rfl, fun _ => id⟩
  trans h h' := ⟨h.moves.trans h'.moves, h'.model.trans h.model, h'.names.trans h.names,
    h'.assertions.trans h.assertions, TermState.closed_evolves.trans h.terms h'.terms,
    h'.integerParts.trans h.integerParts, h'.locals.trans h.locals,
    fun k hk => h'.definedParts k (h.definedParts k hk)⟩

theorem Defining.flat (h : Defining S S') : Flat S S' := ⟨h.moves, .inr h.model⟩

theorem contains_add {levels : Levels Symbol} {k l : Symbol} :
    (levels.add k).contains l = true ↔ levels.contains l = true ∨ l = k := by
  rw [Levels.contains_iff, Levels.mem_items_add, Levels.contains_iff]

theorem push_shifts (levels : Nat) (S : Session σ μ) :
    Leads Shifts (push levels) S fun S' _ => S'.model = none := by
  have hstart := requireActive_leads closed_flat S
  refine hstart.bind_into (fun _ => .flat) fun _ S₁ h₁ _ => ?_
  refine (dropModel_flat S₁).bind_into
    (fun _ h => Shifts.flat (closed_flat.trans h₁ h)) fun _ S₂ h₂ h => ?_
  have hflat : Flat S S₂ := closed_flat.trans h₁ h₂
  have hmodel : S₂.model = none := by rw [h, dropped_model]
  refine leads_call_change (.flat hflat) (fun e S₃ hcalled => ?_) fun S₃ hcalled => ?_
  · exact .flat (closed_flat.trans hflat (hcalled.flat (.push _)))
  · have hmodel₃ : S₃.model = none := hcalled.model.trans hmodel
    have hmove := Move.push hmodel hcalled
    exact .modify (.move hflat ⟨hmove, hcalled.names, hcalled.sorts, hcalled.status⟩ hmodel₃)
      hmodel₃

theorem pop_shifts (levels : Nat) (S : Session σ μ) :
    Leads Shifts (pop levels) S fun S' _ => S'.model = none := by
  have hstart := requireActive_leads closed_flat S
  refine hstart.bind_into (fun _ => .flat) fun _ S₁ h₁ _ => ?_
  refine .get ?_
  dsimp only
  by_cases hdepth : S₁.assertions.depth ≤ levels
  · simp only [hdepth, if_true]
    exact .of_run rfl (.flat h₁) nofun
  · simp only [hdepth, if_false]
    refine (dropModel_flat S₁).bind_into
      (fun _ h => Shifts.flat (closed_flat.trans h₁ h)) fun _ S₂ h₂ h => ?_
    have hflat : Flat S S₂ := closed_flat.trans h₁ h₂
    have hmodel : S₂.model = none := by rw [h, dropped_model]
    have hlevels : levels < S₂.assertions.depth := by
      rw [h, dropped_assertions]
      omega
    refine .guarded (.flat hflat) (run_pop_cases levels S₂) fun _ => ?_
    refine leads_call_change (.flat hflat) (fun e S₃ hcalled => ?_) fun S₃ hcalled => ?_
    · exact .flat (closed_flat.trans hflat (hcalled.flat (.pop _)))
    · have hmodel₃ : S₃.model = none := hcalled.model.trans hmodel
      have hmove := Move.pop hmodel hlevels hcalled
      exact .modify (.move hflat ⟨hmove, hcalled.names, hcalled.sorts, hcalled.status⟩ hmodel₃)
        hmodel₃

theorem resetAssertions_stacks (S : Session σ μ) :
    Leads Stacks resetAssertions S fun S' _ => S'.model = none := by
  refine .bind closed_stacks (requireActive_leads closed_stacks S) fun _ S₁ _ _ => ?_
  refine .bind closed_stacks ((dropModel_flat S₁).weaken fun _ h => h.stacks) fun _ S₂ _ h => ?_
  have hmodel : S₂.model = none := by rw [h, dropped_model]
  refine leads_call_change (closed_stacks.refl S₂) (fun e S₃ hcalled => ?_) fun S₃ hcalled => ?_
  · exact (hcalled.flat .reset).stacks
  · have hmodel₃ : S₃.model = none := hcalled.model.trans hmodel
    exact .modify ⟨.single (.clear hmodel hcalled), .inl hmodel₃⟩ hmodel₃

/-! ### The end of a session -/

theorem reset_stacks (S : Session σ μ) :
    Leads Stacks reset S fun S' _ => S'.model = none := by
  refine .bind closed_stacks (requireOpen_leads closed_stacks S) fun _ S₁ _ h => ?_
  obtain ⟨rfl, hopen⟩ := h
  intro r S' hrun
  rw [run_bind_ok (run_release _), Step.run_modify, released_initial] at hrun
  obtain ⟨rfl, rfl⟩ := Prod.mk.inj hrun
  exact ⟨⟨.single (.restart hopen), .inl rfl⟩, fun _ _ => rfl⟩

theorem exit_stacks (S : Session σ μ) :
    Leads Stacks exit S fun S' _ => S'.model = none := by
  refine .bind closed_stacks (requireOpen_leads closed_stacks S) fun _ S₁ _ h => ?_
  obtain ⟨rfl, hopen⟩ := h
  intro r S' hrun
  rw [run_bind_ok (run_release _), Step.run_modify] at hrun
  obtain ⟨rfl, rfl⟩ := Prod.mk.inj hrun
  exact ⟨⟨.single (.exit hopen), .inl (by simp)⟩, fun _ _ => by simp⟩

variable [GrowingSolver σ μ]

/-- A call that is one move with what is noted of it. -/
theorem Called.still {call : SolverCall σ α} {r : Except Fault α} (hoffers : Offers call)
    (h : Called call S r S') (hmove : Move S S'') (hterms : S''.terms = S'.terms)
    (hnames : S''.names = S'.names) (hsorts : S''.sorts = S'.sorts)
    (hassertions : S''.assertions = S'.assertions) (hparts : S''.definedParts = S'.definedParts)
    (hstatus : S''.status = S'.status) : Still S S'' :=
  .single
    { move := hmove
      terms := hterms ▸ h.evolves hoffers
      integerParts := hterms ▸ h.integerParts
      locals := hterms ▸ h.locals
      names := hnames.trans h.names
      sorts := (hsorts.trans h.sorts) ▸ List.suffix_refl _
      assertions := hassertions.trans h.assertions
      definedParts := hparts.trans h.definedParts
      status := hstatus.trans h.status }

theorem Quiet.sound (h : Quiet bound S S') (hS : S.Sound) : S'.Sound := h.moves.sound hS

theorem Still.sound (h : Still S S') (hS : S.Sound) : S'.Sound := h.moves.sound hS

theorem defineFun_quiet (hS : S.Sound) (name : String) (parameters : List SExpr)
    (codomain body : SExpr) :
    Leads (Quiet (some name)) (defineFun name parameters codomain body) S fun _ _ => True := by
  refine .bind closed_quiet (requireOpen_leads closed_quiet S) fun _ S₁ h₁ _ => ?_
  refine .get ?_
  refine .bind closed_quiet (ofExcept_quiet _ S₁) fun sort S₂ h₂ _ => ?_
  refine .bind closed_quiet (declareParameters_quiet name parameters S₂)
    fun declared S₃ h₃ hdeclared => ?_
  refine .get ?_
  have hS₃ : S₃.Sound := h₃.sound (h₂.sound (h₁.sound hS))
  have hnames : Names.Sound (S₃.environment.extend (bindSymbols declared)) S₃.terms.Knows :=
    hS₃.names.extend (sound_bindSymbols hdeclared)
  refine .bind closed_quiet (onTerms_quiet (translate_evolves S₃.sorts body hS₃.terms hnames))
    fun t S₄ h₄ ht => ?_
  refine .bind closed_quiet (ofExcept_quiet _ S₄) fun u S₅ h₅ hu => ?_
  obtain ⟨rfl, hfit⟩ := hu
  have husound : u.Sound S₅.terms.Knows := keeps_fitBody (Term.hereditary_sound _) hfit ht
  split
  · exact bindName_quiet name husound
  · exact bindName_quiet name husound

/-! ### Assertions -/

/-- Whether integer parts have been made, and none of them is defined or occurs twice. -/
structure Missing (S : Session σ μ) (parts : IntegerParts) : Prop where
  made : ∀ p ∈ parts, p ∈ S.terms.integerParts
  new : ∀ p ∈ parts, S.definedParts.contains p.1 = false
  distinct : (parts.map Prod.fst).Nodup

omit [Solver σ μ] [GrowingSolver σ μ] in
theorem Sound.missing (hS : S.Sound) (ts : List Term) : S.Missing (S.undefinedParts ts) where
  made _ hp := (IntegerParts.mem_reachable.mp (List.mem_filter.mp hp).1).mem
  new _ hp := by simpa using (List.mem_filter.mp hp).2
  distinct := (IntegerParts.nodup_reachable hS.terms.acyclic).sublist (List.filter_sublist.map _)

/-- Once the constraint of the first of them is sent, the others are still missing. -/
theorem Missing.define {symbol : Symbol} {operand : Term} {rest : IntegerParts}
    (h : S.Missing ((symbol, operand) :: rest))
    (hcalled : Called (Solver.add (integerPartConstraint symbol operand)) S (.ok ()) S') :
    Defining S (S'.withDefined symbol) ∧ (S'.withDefined symbol).Missing rest := by
  obtain ⟨hfirst, hrest⟩ := List.forall_mem_cons.mp h.made
  obtain ⟨hfirstNew, hrestNew⟩ := List.forall_mem_cons.mp h.new
  obtain ⟨hdistinct, hnodup⟩ := List.nodup_cons.mp h.distinct
  have hstep : Defining S (S'.withDefined symbol) := by
    have hevolves : S.terms.Evolves S'.terms := hcalled.evolves (.add _)
    have hmove : FlatMove S (S'.withDefined symbol) :=
      ⟨⟨.define hfirst hfirstNew hcalled, hcalled.names, hcalled.sorts, hcalled.status⟩,
        congrArg Levels.depth hcalled.assertions⟩
    refine ⟨.single hmove, hcalled.model, hcalled.names, hcalled.assertions, hevolves,
      hcalled.integerParts, hcalled.locals, fun k hk => contains_add.mpr (.inl ?_)⟩
    rw [hcalled.definedParts]
    exact hk
  refine ⟨hstep, fun p hp => hstep.integerParts ▸ hrest p hp, fun p hp => ?_, hnodup⟩
  refine Bool.eq_false_iff.mpr fun hcontains => ?_
  rcases contains_add.mp hcontains with hold | rfl
  · rw [hcalled.definedParts, hrestNew p hp] at hold
    cases hold
  · exact hdistinct (List.mem_map.mpr ⟨p, hp, rfl⟩)

/-- The constraints of integer parts that are missing are sent one after the other. -/
theorem defineParts_defining {parts : IntegerParts} (hparts : S.Missing parts) :
    Leads Defining (defineParts parts) S
      fun S' _ => ∀ p ∈ parts, S'.definedParts.contains p.1 = true := by
  induction parts generalizing S with
  | nil => exact .pure closed_defining (by simp)
  | cons part rest ih =>
    obtain ⟨symbol, operand⟩ := part
    rw [defineParts]
    unfold Context.add
    refine leads_call_change (closed_defining.refl S) (fun e S₁ hcalled => ?_) fun S₁ hcalled => ?_
    · exact ⟨(hcalled.flat (.add _)).moves, hcalled.model, hcalled.names, hcalled.assertions,
        hcalled.evolves (.add _), hcalled.integerParts, hcalled.locals,
        fun k hk => hcalled.definedParts ▸ hk⟩
    · obtain ⟨hstep, hrest⟩ := hparts.define hcalled
      refine .bind_of_run (Step.run_modify _ _) ?_
      intro r S' hrun
      obtain ⟨hlater, hdefined⟩ := ih hrest r S' hrun
      have hfirst := hlater.definedParts symbol (contains_add.mpr (.inr rfl))
      exact ⟨closed_defining.trans hstep hlater, fun a ha =>
        List.forall_mem_cons.mpr ⟨hfirst, hdefined a ha⟩⟩

/-- Once what some terms need and do not have is defined, nothing that they need is missing. -/
theorem defineUndefined_defining (hS : S.Sound) (ts : List Term) :
    Leads Defining (defineParts (S.undefinedParts ts)) S fun S' _ =>
      ∀ p ∈ IntegerParts.reachable S'.terms.integerParts ts,
        S'.definedParts.contains p.1 = true := by
  refine (defineParts_defining (hS.missing ts)).mono fun S' _ h hdefined p hp => ?_
  rw [h.integerParts] at hp
  cases hold : S.definedParts.contains p.1 with
  | true => exact h.definedParts _ hold
  | false => exact hdefined p (List.mem_filter.mpr ⟨hp, by simp [hold]⟩)

/-- Once a term is read, what it needs and does not have is defined, and then the term is added. -/
theorem assertTerm_flat (hS : S.Sound) (sexpr : SExpr) :
    Leads Flat (assertTerm sexpr) S fun S' _ => S'.model = none := by
  unfold assertTerm
  refine .bind closed_flat (requireActive_leads closed_flat S) fun _ S₁ h₁ _ => ?_
  have hS₁ : S₁.Sound := h₁.stacks.moves.sound hS
  refine .bind closed_flat
    ((parseTerm_reads hS₁ sexpr).weaken fun _ h => h.flat) fun t S₂ h₂ ht => ?_
  refine .get ?_
  have hS₂ : S₂.Sound := h₂.stacks.moves.sound hS₁
  have hdefine := (defineUndefined_defining hS₂ [t]).keep
  refine .bind closed_flat (hdefine.weaken fun _ h => h.flat) fun _ S₃ _ h => ?_
  obtain ⟨h₃, hparts⟩ := h
  have ht₃ : t.Sound S₃.terms.Knows := ht.mono fun _ => h₃.terms.knows
  unfold Context.add
  refine leads_call_change (closed_flat.refl S₃) (fun e S₄ hcalled => hcalled.flat (.add _))
    fun S₄ hcalled => ?_
  refine .bind_of_run (Step.run_modify _ _) ?_
  refine .bind_of_run (run_dropModel _) ?_
  have hmove := Move.assert ht₃ hparts hcalled
  have hflat : FlatMove S₃ _ := ⟨⟨hmove, ?_, ?_, ?_⟩, ?_⟩
  · exact .of_run (Step.run_pure _ _) ⟨.single hflat, .inl (by simp)⟩ fun _ _ => by simp
  · simpa using hcalled.names
  · simpa using hcalled.sorts
  · simpa using hcalled.status
  · simp [hcalled.assertions]

end Session

end SmtScript
