import SmtScript.Proofs.Session.Run
import SmtScript.Proofs.Translate.Confined

/-!
Local symbols in a session.

As long as no substitution fails, variables of quantifiers, parameters of definitions and the
witnesses of `is_int` are free in no term at the top level of a session: `Session.Confined` is what
every command preserves.
-/

namespace SmtScript

open Solver Step Translation TermState

/-- No sort that is written in a script is that of functions. -/
theorem SortTable.isFunction_parse (table : SortTable) {s : SExpr} {sort : SmtSort}
    (h : table.parse s = .ok sort) : sort.isFunction = false := by
  unfold SortTable.parse at h
  split at h
  · unfold SortTable.ofName at h
    grind [SmtSort.isFunction]
  · obtain ⟨index, _, h⟩ := Term.bind_ok h
    obtain ⟨element, _, h⟩ := Term.bind_ok h
    exact Except.ok.inj h ▸ rfl
  · unfold SortTable.ofWidth at h
    grind [SmtSort.isFunction]
  · cases h

namespace Session

variable {σ μ α : Type} {S S' : Session σ μ} {D c : List Symbol} {names : Names}

/-- Whether local symbols are told from the others and are free in no name, assertion or integer
part. -/
structure Confined (D : List Symbol) (S : Session σ μ) : Prop where
  names : ConfinedIn D [] S.environment S.terms
  hidden : HiddenIn D [] S.environment S.terms
  tame : TameOperands D S.terms
  assertions : ∀ t ∈ S.assertions.items, t.Confined (S.terms.Visible D [])

theorem confined_start (configuration : Configuration) :
    (start configuration : Session σ μ).Confined [] := by
  have hempty (name : String) :
      Environment.find? (start configuration : Session σ μ).environment name = none := rfl
  refine ⟨⟨⟨nofun, nofun, nofun, nofun⟩, nofun, ?_, ?_⟩, ⟨nofun, nofun, nofun, ?_⟩, nofun, ?_⟩
  · intro name d hfind
    simp [hempty] at hfind
  · intro name binding hfind
    simp [hempty] at hfind
  · intro name binding hfind
    simp [hempty] at hfind
  · simp [start]

/-- A session stays confined as long as its terms do and its names and assertions stay, or new
assertions are confined. -/
theorem Confined.grow (h : S.Confined D) (hterms : StaysConfined D S.terms S'.terms)
    (htame : TameOperands D S'.terms) (hnames : S'.names = S.names)
    (hassertions : ∀ t ∈ S'.assertions.items,
      t ∈ S.assertions.items ∨ t.Confined (S'.terms.Visible D [])) : S'.Confined D := by
  have henv : S'.environment = S.environment := by rw [environment, environment, hnames]
  refine ⟨henv ▸ h.names.grow hterms, henv ▸ h.hidden.grow hterms.1, htame, fun t ht => ?_⟩
  rcases hassertions t ht with hold | hnew
  · exact (h.assertions t hold).mono fun _ hs => hs.grow hterms.1
  · exact hnew

/-- Steps that only make symbols keep terms confined. -/
theorem Confined.stays (h : S.Confined D) {T : TermState}
    (htable : S.terms.table.symbols <:+ T.table.symbols)
    (hparts : T.integerParts = S.terms.integerParts) (hlocals : T.locals = S.terms.locals) :
    StaysConfined D S.terms T := by
  have hgrows := grows_of_parts htable (hlocals ▸ List.suffix_refl _) hparts
  exact ⟨hgrows, .inr (h.names.terms.grow hgrows hparts fun s hs => .inl (hlocals ▸ hs))⟩

theorem Confined.frame (h : S.Confined D)
    (htable : S.terms.table.symbols <:+ S'.terms.table.symbols)
    (hparts : S'.terms.integerParts = S.terms.integerParts)
    (hlocals : S'.terms.locals = S.terms.locals) (hnames : S'.names = S.names)
    (hassertions : ∀ t ∈ S'.assertions.items, t ∈ S.assertions.items) : S'.Confined D := by
  have hstays := h.stays htable hparts hlocals
  have htame := (staysTame_of_parts hstays.1 hparts).2 h.tame
  exact h.grow hstays htame hnames fun t ht => .inl (hassertions t ht)

theorem Confined.dropped (h : S.Confined D) : S.dropped.Confined D :=
  h.frame (by simp) (by simp) (by simp) (by simp) (by simp)

theorem Confined.released (h : S.Confined D) : S.released.Confined D :=
  h.frame (by simp) (by simp) (by simp) (by simp) (by simp)

theorem Confined.inScope (h : S.Confined D) (hsound : S.Sound) :
    InScope D [] S.environment S.terms :=
  ⟨h.names, h.hidden, hsound.terms, hsound.names⟩

theorem Confined.of_onTerms (h : S.Confined D) (hterms : OnTerms (Continues D) S S') :
    S'.Confined D := by
  have hnames : S'.names = S.names := by rw [hterms.rest]
  have hassertions : S'.assertions = S.assertions := by rw [hterms.rest]
  exact h.grow hterms.terms.confined (hterms.terms.tame h.tame) hnames fun t ht =>
    .inl (hassertions ▸ ht)

theorem reads_of_onTerms (h : OnTerms (Continues D) S S') : Reads S S' :=
  ⟨h.terms.evolves, h.rest⟩

/-! ### Reading terms -/

theorem parseTerm_scope (hS : S.Confined D) (hsound : S.Sound) (hclean : S.terms.leftover = none)
    (sexpr : SExpr) :
    Leads (OnTerms (Continues D)) (parseTerm sexpr) S fun S' t =>
      S'.terms.leftover = none ∧ t.Fair D [] S'.terms :=
  .get (onTerms_leads (((kept_scope D).carries_all S.sorts fun _ _ _ _ => trivial).1 S.environment
    sexpr [] S.terms (hS.inScope hsound) hclean))

theorem parseTerms_scope (hS : S.Confined D) (hsound : S.Sound) (hclean : S.terms.leftover = none)
    (sexprs : List SExpr) :
    Leads (OnTerms (Continues D)) (parseTerms sexprs) S fun S' ts =>
      S'.terms.leftover = none ∧ ∀ t ∈ ts, t.Fair D [] S'.terms := by
  have hclosed := closed_onTerms (σ := σ) (μ := μ) (kept_scope D).closed
  induction sexprs generalizing S with
  | nil => exact .pure hclosed ⟨hclean, nofun⟩
  | cons sexpr rest ih =>
    refine .bind hclosed (parseTerm_scope hS hsound hclean sexpr) fun t S₁ h₁ ht => ?_
    refine .bind hclosed (ih (hS.of_onTerms h₁) ((reads_of_onTerms h₁).sound hsound) ht.1)
      fun ts S₂ h₂ hts => ?_
    have hfirst := (kept_scope D).good_mono ht.2 h₂.terms
    exact .pure hclosed ⟨hts.1, List.forall_mem_cons.mpr ⟨hfirst, hts.2⟩⟩

/-! ### Declarations -/

/-- A name that is bound to a term or a definition. -/
theorem find?_bound (S : Session σ μ) (name other : String) (binding : Binding) :
    Environment.find? ({ S with names := S.names.insert name binding } :
      Session σ μ).environment other =
      if other = name then some binding else Environment.find? S.environment other :=
  Table.get?_insert S.names name other binding

theorem Confined.bind (h : S.Confined D) (name : String) {binding : Binding}
    (hconfined : binding.Confined (S.terms.Visible D []))
    (htame : binding.Tame (S.terms.Hidden D []))
    (hregular : ∀ d, binding = .definition d → d.Regular) :
    ({ S with names := S.names.insert name binding } : Session σ μ).Confined D := by
  refine ⟨⟨h.names.terms, h.names.scope, ?_, ?_⟩,
    ⟨h.hidden.declared, h.hidden.parts, h.hidden.scope, ?_⟩, h.tame, h.assertions⟩
  · intro other d hfind
    rw [find?_bound] at hfind
    split at hfind
    · exact hregular d (Option.some.inj hfind)
    · exact h.names.regular other d hfind
  · intro other binding' hfind
    rw [find?_bound] at hfind
    split at hfind
    · exact Option.some.inj hfind ▸ hconfined
    · exact h.names.names other binding' hfind
  · intro other binding' hfind
    rw [find?_bound] at hfind
    split at hfind
    · exact Option.some.inj hfind ▸ htame
    · exact h.hidden.names other binding' hfind

/-- One more symbol is declared. -/
theorem Confined.declare (h : S.Confined D) {s : Symbol} {table : SymbolTable}
    (hnew : ¬ S.terms.Knows s) (htable : table.symbols = s :: S.terms.table.symbols) :
    ({ S with terms := { S.terms with table } } : Session σ μ).Confined (s :: D) := by
  have hgrows : Grows S.terms { S.terms with table } :=
    grows_of_parts (htable ▸ List.suffix_cons _ _) (List.suffix_refl _) rfl
  have hknown : ({ S.terms with table } : TermState).Knows s := by simp [Knows, htable]
  have hvisible {s' : Symbol} (hs' : S.terms.Visible D [] s') :
      Visible (s :: D) [] { S.terms with table } s' :=
    hs'.imp_left (Or.imp_left (List.mem_cons_of_mem s))
  have hhidden {s' : Symbol} (hs' : S.terms.Hidden D [] s') :
      Hidden (s :: D) [] { S.terms with table } s' := by
    refine ⟨hgrows.knows hs'.1, ?_⟩
    rintro ((hdeclared | hpart) | hopen)
    · rcases List.mem_cons.mp hdeclared with rfl | hdeclared
      · exact hnew hs'.1
      · exact hs'.2 (.inl (.inl hdeclared))
    · exact hs'.2 (.inl (.inr hpart))
    · cases hopen
  have hdeclared : ∀ s' ∈ s :: D, ({ S.terms with table } : TermState).Knows s' :=
    List.forall_mem_cons.mpr ⟨hknown, fun s' hs' => hgrows.knows (h.hidden.declared s' hs')⟩
  have hparts : ∀ p ∈ S.terms.integerParts, ({ S.terms with table } : TermState).Knows p.1 :=
    fun p hp => hgrows.knows (h.hidden.parts p hp)
  have hopen (P : Symbol → Prop) : ∀ s' ∈ [], P s' := fun s' hs' => absurd hs' List.not_mem_nil
  refine ⟨⟨⟨hdeclared, hparts, ?_, ?_⟩, hopen _, h.names.regular, ?_⟩,
    ⟨hdeclared, hparts, hopen _, ?_⟩, fun p hp => (h.tame p hp).mono fun _ => hhidden, ?_⟩
  · intro s' hs'
    obtain ⟨hold, hlocal⟩ := h.names.terms.locals s' hs'
    refine ⟨hgrows.knows hold, fun hglobal => (hhidden ⟨hold, ?_⟩).2 (.inl hglobal)⟩
    exact fun hv => hv.elim hlocal List.not_mem_nil
  · exact fun p hp s' hs' => (h.names.terms.operands p hp s' hs').imp_left (List.mem_cons_of_mem s)
  · exact fun name binding hfind => (h.names.names name binding hfind).mono fun _ => hvisible
  · exact fun name binding hfind => (h.hidden.names name binding hfind).mono fun _ => hhidden
  · exact fun t ht => (h.assertions t ht).mono fun _ => hvisible

/-! ### Operations -/

section

variable [Solver σ μ]

theorem Still.confined (h : Still S S') (hS : S.Confined D) : S'.Confined D := by
  induction h with
  | refl => exact hS
  | tail _ hmove ih =>
    exact ih.frame hmove.terms.table hmove.integerParts hmove.locals hmove.names
      (by simp [hmove.assertions])

theorem Defining.confined (h : Defining S S') (hS : S.Confined D) : S'.Confined D :=
  hS.frame h.terms.table h.integerParts h.locals h.names (by simp [h.assertions])

theorem setLogic_confined (hS : S.Confined D) (logic : String) :
    Leads (fun _ S' => S'.Confined D) (setLogic logic) S fun _ _ => True := by
  refine .bind_same hS (requireOpen_leads closed_eq S) fun _ _ => ?_
  refine .get ?_
  by_cases hactive : S.status = .active
  · simp only [hactive, if_true]
    exact .bind_same (Q := fun _ _ => False) hS (.throw closed_eq _) fun _ h => h.elim
  · simp only [hactive, if_false]
    split
    · exact .of_run (run_throw _ S) hS nofun
    · exact .of_run (run_set _ _) ⟨hS.names, hS.hidden, hS.tame, hS.assertions⟩ fun _ _ => trivial

omit [Solver σ μ] in
theorem exit_confined (hS : S.Confined D) :
    Leads (fun _ S' => S'.Confined D) exit S fun _ _ => True := by
  refine .bind_same hS (requireOpen_leads closed_eq S) fun _ _ => ?_
  refine .bind_of_run (run_release S) ?_
  have h := hS.released
  exact .modify ⟨h.names, h.hidden, h.tame, h.assertions⟩ trivial

variable [GrowingSolver σ μ]

theorem Called.confined {call : SolverCall σ α} {r : Except Fault α} (h : Called call S r S')
    (hoffers : Offers call) (hS : S.Confined D) : S'.Confined D :=
  hS.frame (h.evolves hoffers).table h.integerParts h.locals h.names (by simp [h.assertions])

theorem push_confined (hS : S.Confined D) (levels : Nat) :
    Leads (fun _ S' => S'.Confined D) (push levels) S fun _ _ => True := by
  refine .bind_same hS (requireActive_leads closed_eq S) fun _ _ => ?_
  refine .bind_of_run (run_dropModel S) ?_
  refine leads_call_change hS.dropped (fun e S₁ hcalled => hcalled.confined (.push _) hS.dropped)
    fun S₁ hcalled => ?_
  have h := hcalled.confined (.push _) hS.dropped
  exact .modify ⟨h.names, h.hidden, h.tame, by simpa using h.assertions⟩ trivial

theorem pop_confined (hS : S.Confined D) (levels : Nat) :
    Leads (fun _ S' => S'.Confined D) (pop levels) S fun _ _ => True := by
  refine .bind_same hS (requireActive_leads closed_eq S) fun _ _ => ?_
  refine .get ?_
  dsimp only
  by_cases hdepth : S.assertions.depth ≤ levels
  · simp only [hdepth, if_true]
    exact .of_run rfl hS nofun
  · simp only [hdepth, if_false]
    refine .bind_of_run (run_dropModel S) ?_
    refine .guarded hS.dropped (run_pop_cases levels S.dropped) fun _ => ?_
    refine leads_call_change hS.dropped (fun e S₁ hcalled => hcalled.confined (.pop _) hS.dropped)
      fun S₁ hcalled => ?_
    have h := hcalled.confined (.pop _) hS.dropped
    refine .modify ⟨h.names, h.hidden, h.tame, fun t ht => ?_⟩ trivial
    exact h.assertions t ((Levels.items_popMany_sublist _ _).subset ht)

theorem resetAssertions_confined (hS : S.Confined D) :
    Leads (fun _ S' => S'.Confined D) resetAssertions S fun _ _ => True := by
  refine .bind_same hS (requireActive_leads closed_eq S) fun _ _ => ?_
  refine .bind_of_run (run_dropModel S) ?_
  refine leads_call_change hS.dropped (fun e S₁ hcalled => hcalled.confined .reset hS.dropped)
    fun S₁ hcalled => ?_
  have h := hcalled.confined .reset hS.dropped
  exact .modify ⟨h.names, h.hidden, h.tame, by simp⟩ trivial

theorem assertTerm_confined (hS : S.Confined D) (hsound : S.Sound)
    (hclean : S.terms.leftover = none) (sexpr : SExpr) :
    Leads (fun _ S' => S'.Confined D) (assertTerm sexpr) S fun _ _ => True := by
  refine .bind_same hS (requireActive_leads closed_eq S) fun _ _ => ?_
  refine (parseTerm_scope hS hsound hclean sexpr).bind_into (fun _ h => hS.of_onTerms h)
    fun t S₁ h₁ ht => ?_
  have hS₁ := hS.of_onTerms h₁
  have hsound₁ := (reads_of_onTerms h₁).sound hsound
  refine .get ?_
  refine (defineUndefined_defining hsound₁ [t]).bind_into (fun _ h => h.confined hS₁)
    fun _ S₂ h₂ _ => ?_
  have hS₂ := h₂.confined hS₁
  have ht₂ : t.Confined (S₂.terms.Visible D []) := by
    have hgrows := (hS₁.stays h₂.terms.table h₂.integerParts h₂.locals).1
    exact ht.2.confined.mono fun _ hs => hs.grow hgrows
  refine leads_call_change hS₂ (fun e S₃ hcalled => hcalled.confined (.add _) hS₂)
    fun S₃ hcalled => ?_
  have hS₃ := hcalled.confined (.add _) hS₂
  have ht₃ : t.Confined (S₃.terms.Visible D []) := by
    have hevolves := hcalled.evolves (.add _)
    have hgrows := (hS₂.stays hevolves.table hcalled.integerParts hcalled.locals).1
    exact ht₂.mono fun _ hs => hs.grow hgrows
  refine .bind_of_run (run_modify _ _) (.bind_of_run (run_dropModel _) ?_)
  refine .of_run (run_pure _ _) (Confined.dropped ⟨hS₃.names, hS₃.hidden, hS₃.tame, fun u hu => ?_⟩)
    fun _ _ => trivial
  rw [Levels.items_add] at hu
  rcases List.mem_append.mp hu with hold | hnew
  · exact hS₃.assertions u hold
  · exact List.mem_singleton.mp hnew ▸ ht₃

theorem checkSat_confined (hS : S.Confined D) (hsound : S.Sound)
    (hclean : S.terms.leftover = none) (assumptions : List SExpr) :
    Leads (fun _ S' => S'.Confined D) (checkSat assumptions) S fun _ _ => True := by
  refine .bind_same hS (requireActive_leads closed_eq S) fun _ _ => ?_
  refine .bind_of_run (run_dropModel S) ?_
  have hdropped : S.dropped.Sound := (Moves.sound (.single (.drop S)) hsound)
  refine (parseTerms_scope hS.dropped hdropped (by simpa using hclean) assumptions).bind_into
    (fun _ h => hS.dropped.of_onTerms h) fun ts S₁ h₁ _ => ?_
  have hS₁ := hS.dropped.of_onTerms h₁
  have hmodel : S₁.model = none := by rw [h₁.rest, dropped_model]
  refine .get ?_
  exact ((check_still _ hmodel).weaken fun _ h => h.confined hS₁).mono fun _ _ _ _ => trivial

theorem getValue_confined (hS : S.Confined D) (hsound : S.Sound)
    (hclean : S.terms.leftover = none) (sexprs : List SExpr) :
    Leads (fun _ S' => S'.Confined D) (getValue sexprs) S fun _ _ => True := by
  refine .bind_same hS (requireActive_leads closed_eq S) fun _ _ => ?_
  refine (parseTerms_scope hS hsound hclean sexprs).bind_into (fun _ h => hS.of_onTerms h)
    fun ts S₁ h₁ hts => ?_
  have hS₁ := hS.of_onTerms h₁
  have hsound₁ := (reads_of_onTerms h₁).sound hsound
  refine (ensureModel_still S₁).bind_into (fun _ h => h.confined hS₁) fun _ S₂ h₂ _ => ?_
  have hts₂ : ∀ t ∈ ts, t.Sound S₂.terms.Knows := fun t ht =>
    (hts.2 t ht).sound.mono fun _ => h₂.knows
  refine (evaluateAll_still (h₂.sound hsound₁) hts₂).bind_into
    (fun _ h => h.confined (h₂.confined hS₁)) fun values S₃ h₃ _ => ?_
  exact .of_run (run_pure _ _) (h₃.confined (h₂.confined hS₁)) fun _ _ => trivial

end

/-! ### Declared symbols -/

theorem run_newSymbol (S : Session σ μ) (name : String) (sort : SmtSort) :
    (∃ e, (newSymbol name sort).run S = (.error e, S)) ∨
      ∃ s table, S.terms.table.Declares name s table ∧
        (newSymbol name sort).run S = (.ok s, { S with terms := { S.terms with table } }) := by
  unfold newSymbol
  rw [run_bind_ok (run_get S)]
  dsimp only
  split
  · rename_i htaken
    have hfresh := run_freshSymbol (name ++ "_") sort S.terms
    obtain ⟨n, hnumbers, _⟩ := S.terms.table.numbers_fresh (name ++ "_") sort
    refine .inr ⟨_, (S.terms.table.fresh (name ++ "_") sort).2,
      ⟨hnumbers.new, rfl, fun huntaken => ?_, fun _ => ⟨n, hnumbers⟩⟩, ?_⟩
    · rw [htaken] at huntaken
      cases huntaken
    · rw [run_onTerms, hfresh]
      rfl
  · split
    · exact .inl ⟨_, rfl⟩
    · rename_i huntaken _
      have hnew : S.terms.table.hasName name = false := by simpa using huntaken
      refine .inr ⟨_, S.terms.table.add ⟨name, sort⟩,
        ⟨hnew, rfl, fun _ => rfl, fun htaken => ?_⟩, rfl⟩
      rw [hnew] at htaken
      cases htaken

/-- A declaration that fails does nothing; one that succeeds makes a symbol and binds the name
to it. -/
theorem run_declareFun (S : Session σ μ) (name : String) (domains : List SExpr)
    (codomain : SExpr) :
    (∃ e, (declareFun name domains codomain).run S = (.error e, S)) ∨
      ∃ s table, S.terms.table.Declares name s table ∧
        (declareFun name domains codomain).run S = (.ok s, { S with
          terms := { S.terms with table }, names := S.names.insert name (.term (.symbol s)) }) := by
  unfold declareFun
  rcases (requireOpen_leads closed_eq S).same with ⟨e, he⟩ | ⟨_, h, _⟩
  · exact .inl ⟨e, run_bind_error he⟩
  rw [run_bind_ok h, run_bind_ok (run_get S)]
  rcases (ofExcept_leads (domains.mapM S.sorts.parse) S).same with ⟨e, he⟩ | ⟨domains, h, _⟩
  · exact .inl ⟨e, run_bind_error he⟩
  rw [run_bind_ok h]
  rcases (ofExcept_leads (S.sorts.parse codomain) S).same with ⟨e, he⟩ | ⟨codomain, h, _⟩
  · exact .inl ⟨e, run_bind_error he⟩
  rw [run_bind_ok h]
  rcases run_newSymbol S name (.function domains codomain) with
    ⟨e, he⟩ | ⟨s, table, hdeclares, h⟩
  · exact .inl ⟨e, run_bind_error he⟩
  exact .inr ⟨s, table, hdeclares, by rw [run_bind_ok h]; rfl⟩

/-! ### Definitions -/

/-- What is read as the parameters of a definition: names, with symbols of the sorts written. -/
def ReadsParameters (sorts : SortTable) : List SExpr → List (String × Symbol) → Prop :=
  List.Forall₂ fun parameter p =>
    ∃ sort, parameter = .list [.atom p.1, sort] ∧ sorts.parse sort = .ok p.2.sort

theorem declareParameters_opens {W : SmtSort → Prop} {R : TermState → TermState → Prop}
    {clean : TermState → Prop}
    {inv : List Symbol → Names → TermState → Prop} {good : List Symbol → TermState → Term → Prop}
    (hkept : Kept W R clean inv good) (name : String) (parameters : List SExpr)
    (hinv : inv c names S.terms) (hclean : clean S.terms) :
    Leads (OnTerms R) (declareParameters name parameters) S fun S' declared =>
      clean S'.terms ∧ Kept.Opened inv good c names S.terms S'.terms declared ∧
        ReadsParameters S.sorts parameters declared := by
  have hclosed := closed_onTerms (σ := σ) (μ := μ) hkept.closed
  induction parameters generalizing c S with
  | nil => exact .pure hclosed ⟨hclean, .nil hinv, .nil⟩
  | cons parameter rest ih =>
    unfold declareParameters
    split
    · cases ‹_ = _›
    · rename_i parameter sort rest' heq
      obtain ⟨rfl, rfl⟩ := List.cons.inj heq
      refine .get ?_
      refine .bind_same (hclosed.refl S) (ofExcept_leads _ S) fun sort' hsort => ?_
      obtain ⟨hR, hclean₁, hinv₁, -⟩ := hkept.opens hinv hclean (name ++ "_arg") sort'
      have hopened : Step.Leads R (freshLocal (name ++ "_arg") sort') S.terms fun T' s =>
          T' = opened S.terms (name ++ "_arg") sort' ∧ s = fresh S.terms (name ++ "_arg") sort' :=
        .of_run (run_freshLocal _ _ S.terms) hR fun s hs => ⟨rfl, (Except.ok.inj hs).symm⟩
      refine .bind hclosed (onTerms_leads hopened) fun s S₁ h₁ hs => ?_
      obtain ⟨hterms, rfl⟩ := hs
      rw [← hterms] at hclean₁ hinv₁
      refine .bind hclosed (ih hinv₁ hclean₁) fun later S₂ h₂ hlater => ?_
      obtain ⟨hclean₂, hopened₂, hread⟩ := hlater
      have hsorts : S₁.sorts = S.sorts := by rw [h₁.rest]
      rw [hsorts] at hread
      rw [hterms] at hopened₂
      have hR₂ := hterms ▸ h₂.terms
      refine .pure hclosed ⟨hclean₂, .cons hkept hinv hclean hR₂ hopened₂, .cons ?_ hread⟩
      exact ⟨sort, rfl, hsort⟩
    · exact .throw hclosed _

theorem ReadsParameters.isFunction {sorts : SortTable} {parameters : List SExpr}
    {declared : List (String × Symbol)} (h : ReadsParameters sorts parameters declared) :
    ∀ p ∈ declared, p.2.sort.isFunction = false := by
  induction h with
  | nil => nofun
  | cons hparameter _ ih =>
    obtain ⟨sort, _, hsort⟩ := hparameter
    exact List.forall_mem_cons.mpr ⟨sorts.isFunction_parse hsort, ih⟩

/-- The body of a definition is made of global symbols and its parameters, and does not bind its
parameters again. -/
theorem regular_of_parameters {T : TermState} {declared : List (String × Symbol)} {t : Term}
    (hparameters : ∀ p ∈ declared, p.2.sort.isFunction = false)
    (ht : t.Fair D ((declared.map Prod.snd).reverse ++ []) T) :
    (Definition.mk (declared.map Prod.snd) t).Regular ∧
      (Binding.definition ⟨declared.map Prod.snd, t⟩).Confined (T.Visible D []) ∧
      (Binding.definition ⟨declared.map Prod.snd, t⟩).Tame (T.Hidden D []) := by
  refine ⟨⟨ht.sound.wellSorted, ht.tame.mono fun _ _ => trivial, fun s hs => ?_⟩,
    fun s hs => ?_, ?_⟩
  · obtain ⟨p, hp, rfl⟩ := List.mem_map.mp hs
    exact hparameters p hp
  · rcases ht.confined s hs with hglobal | hopened
    · exact .inl (.inl hglobal)
    · exact .inr (by simpa using hopened)
  · refine ht.tame.mono fun s hs => ⟨⟨hs.1, fun hvisible => hs.2 ?_⟩, fun hmem => hs.2 (.inr ?_)⟩
    · exact hvisible.imp_right fun hmem => absurd hmem List.not_mem_nil
    · simpa using hmem

theorem defineFun_confined [Solver σ μ] [GrowingSolver σ μ] (hS : S.Confined D)
    (hsound : S.Sound) (hclean : S.terms.leftover = none) (name : String)
    (parameters : List SExpr) (codomain body : SExpr) :
    Leads (fun _ S' => S'.Confined D) (defineFun name parameters codomain body) S
      fun _ _ => True := by
  refine .bind_same hS (requireOpen_leads closed_eq S) fun _ _ => ?_
  refine .get ?_
  refine .bind_same hS (ofExcept_leads _ S) fun sort _ => ?_
  refine (declareParameters_opens (kept_scope D) name parameters (hS.inScope hsound)
    hclean).bind_into (fun _ h => hS.of_onTerms h) fun declared S₁ h₁ hdeclared => ?_
  obtain ⟨hclean₁, hopened, hread⟩ := hdeclared
  have hS₁ := hS.of_onTerms h₁
  have henv : S₁.environment = S.environment := by rw [environment, environment, h₁.rest]
  refine .get ?_
  have hscope := (kept_scope D).extend hopened.inv hopened.bindings
  rw [← henv] at hscope
  refine (onTerms_leads (((kept_scope D).carries_all S₁.sorts fun _ _ _ _ => trivial).1 _ body _
    S₁.terms hscope hclean₁)).bind_into (fun _ h => hS₁.of_onTerms h) fun t S₂ h₂ ht => ?_
  have hS₂ := hS₁.of_onTerms h₂
  refine .bind_same hS₂ (ofExcept_leads _ S₂) fun u hfit => ?_
  have hu := keeps_fitBody ((kept_scope D).hereditary _ _) hfit ht.2
  split
  · rename_i hempty
    obtain rfl := List.isEmpty_iff.mp hempty
    exact .modify (hS₂.bind name hu.confined hu.tame nofun) trivial
  · obtain ⟨hregular, hconfined, htame⟩ := regular_of_parameters hread.isFunction hu
    exact .modify (hS₂.bind name hconfined htame fun d hd => Binding.definition.inj hd ▸ hregular)
      trivial

end Session

end SmtScript
