import SmtScript.Proofs.Session.Aloof
import SmtScript.Proofs.Session.Lifecycle

/-!
What a run does to assertions and names.

The deeds of a run are the commands that succeed, each with the session before it and after it. All
other commands leave the assertions and the names as they are, `Session.perform_fails`, and of those
that succeed only a few do something about them, each in its way, `Session.perform_does`. No
assumption about the solver is needed for this.
-/

namespace SmtScript

open Step

namespace SExpr

/-- The command that an S-expression is read as. -/
def request? : SExpr → Option Command
  | .list (.atom head :: args) =>
    (CommandName.ofText? head).bind fun name =>
      (Command.read head (.list (.atom head :: args)) name args).toOption
  | _ => none

theorem Requests.request?_eq {sexpr : SExpr} {command : Command} (h : sexpr.Requests command) :
    sexpr.request? = some command := by
  cases h with
  | intro hname hread => simp [request?, hname, hread, Except.toOption]

end SExpr

/-- Whether what a name stands for is a symbol. -/
def Binding.isSymbol : Binding → Bool
  | .term (.symbol _) => true
  | _ => false

/-- Whether a term is a symbol of a sort. -/
def Term.isSymbolOf (sort : SmtSort) : Term → Bool
  | .symbol s => s.sort = sort
  | _ => false

theorem Term.not_isSymbol_mkToReal {t u : Term} (hsort : t.sort = .int)
    (h : Term.mkToReal t = .ok u) : (Binding.term u).isSymbol = false := by
  unfold Term.mkToReal at h
  rw [hsort] at h
  split at h
  · cases ‹SmtSort.int = .real›
  · obtain rfl := Except.ok.inj h
    rfl
  · obtain ⟨-, rfl⟩ := checked_ok h
    rfl
  · cases h

namespace Session

variable {σ μ α β : Type} {S S' S'' : Session σ μ}

/-! ### Steps that leave assertions and names alone -/

/-- Whether no assertion and no name has come or gone. -/
structure Untouched (S S' : Session σ μ) : Prop where
  assertions : S'.assertions = S.assertions
  names : S'.names = S.names

theorem Untouched.refl (S : Session σ μ) : Untouched S S := ⟨rfl, rfl⟩

theorem closed_untouched : Step.Closed (Untouched (σ := σ) (μ := μ)) where
  refl := .refl
  trans h h' := ⟨h'.assertions.trans h.assertions, h'.names.trans h.names⟩

theorem SameTables.untouched (h : SameTables S S') : Untouched S S' := ⟨h.assertions, h.names⟩

/-! ### Steps that do something about them -/

/-- Whether a definition gives another name to a symbol that there is. -/
def renames (S : Session σ μ) (parameters : List SExpr) (codomain body : SExpr) : Bool :=
  parameters.isEmpty && match S.sorts.parse codomain, ((parseTerm body).run S).1 with
    | .ok sort, .ok t => t.isSymbolOf sort
    | _, _ => false

variable {S₀ : Session σ μ} {Q : Session σ μ → α → Prop} {Q' : Session σ μ → β → Prop}

/-- Whether a step that fails leaves the assertions and names that there were at first, and one that
succeeds leaves what is expected. -/
def Commits (S₀ : Session σ μ) (x : SessionStep σ μ α) (S : Session σ μ)
    (Q : Session σ μ → α → Prop) : Prop :=
  Stops (fun _ S' => Untouched S₀ S') x S ∧ Leads (fun _ _ => True) x S Q

theorem Commits.bind {x : SessionStep σ μ α} {f : α → SessionStep σ μ β} (hS : Untouched S₀ S)
    (hx : Leads SameTables x S Q)
    (hf : ∀ a S', Untouched S₀ S' → Q S' a → Commits S₀ (f a) S' Q') :
    Commits S₀ (x >>= f) S Q' := by
  have hkept {S' : Session σ μ} (h : SameTables S S') : Untouched S₀ S' :=
    closed_untouched.trans hS h.untouched
  refine Stops.bind_and_leads closed_true (Q := fun S' a => SameTables S S' ∧ Q S' a)
    ⟨?_, ?_⟩ fun a S' _ h => hf a S' (hkept h.1) h.2
  · exact hx.stops.mono fun _ _ h => hkept h
  · exact hx.keep.weaken fun _ _ => trivial

theorem Commits.step {x : SessionStep σ μ α} {f : α → SessionStep σ μ β} (hS : Untouched S₀ S)
    (hx : Aloof x S) (hf : ∀ a S', Untouched S₀ S' → Commits S₀ (f a) S' Q') :
    Commits S₀ (x >>= f) S Q' :=
  .bind hS hx fun a S' hS' _ => hf a S' hS'

theorem Commits.get {f : Session σ μ → SessionStep σ μ α} (h : Commits S₀ (f S) S Q) :
    Commits S₀ (MonadState.get >>= f) S Q :=
  ⟨.get h.1, .get h.2⟩

theorem Commits.throw (hS : Untouched S₀ S) (e : Error) :
    Commits S₀ (throw e : SessionStep σ μ α) S Q :=
  ⟨.throw hS, .throw closed_true e⟩

theorem Commits.of_run {x : SessionStep σ μ α} {a : α} (hrun : x.run S = (.ok a, S')) (h : Q S' a) :
    Commits S₀ x S Q :=
  ⟨.of_ok hrun, .of_run hrun trivial fun _ ha => Except.ok.inj ha ▸ h⟩

theorem Commits.mono {x : SessionStep σ μ α} {P : Session σ μ → α → Prop} (hx : Commits S₀ x S Q)
    (hQ : ∀ S' a, Q S' a → P S' a) : Commits S₀ x S P :=
  ⟨hx.1, hx.2.mono fun S' a _ h => hQ S' a h⟩

/-- A step that has nothing to do with them. -/
theorem Commits.of_untouched {x : SessionStep σ μ α} (hx : Leads Untouched x S fun _ _ => True) :
    Commits S x S fun S' _ => Untouched S S' :=
  ⟨hx.stops, (hx.keep.mono fun _ _ _ h => h.1).weaken fun _ _ => trivial⟩

/-- An operation that is followed by a result. -/
theorem Commits.result {x : SessionStep σ μ α} {P : Session σ μ → Prop} {f : α → Option String}
    (hx : Commits S₀ x S fun S' _ => P S') :
    Commits S₀ (do return f (← x)) S fun S' _ => P S' := by
  refine Stops.bind_and_leads closed_true hx fun a S' _ h => ⟨.pure _, .pure closed_true h⟩

theorem setOption_commits (keyword value : String) :
    Commits S (setOption keyword value : SessionStep σ μ Unit) S fun S' _ => Untouched S S' := by
  refine .of_untouched (.bind closed_untouched (requireOpen_leads closed_untouched S) ?_)
  exact fun _ S₁ _ _ => .of_run rfl ⟨rfl, rfl⟩ fun _ _ => trivial

theorem setInfo_commits (keyword value : String) :
    Commits S (setInfo keyword value : SessionStep σ μ Unit) S fun S' _ => Untouched S S' := by
  refine .of_untouched (.bind closed_untouched (requireOpen_leads closed_untouched S) ?_)
  exact fun _ S₁ _ _ => .modify ⟨rfl, rfl⟩ trivial

theorem bindName_commits (hS : Untouched S₀ S) (name : String) (binding : Binding) :
    Commits S₀ (bindName name binding) S fun S' _ =>
      S'.assertions = S₀.assertions ∧ S'.names = S₀.names.insert name binding :=
  .of_run (run_modify _ _) ⟨hS.assertions, congrArg (·.insert name binding) hS.names⟩

theorem declareFun_commits (name : String) (domains : List SExpr) (codomain : SExpr) :
    Commits S (declareFun name domains codomain) S fun S' _ =>
      S'.assertions = S.assertions ∧ ∃ s, S'.names = S.names.insert name (.term (.symbol s)) := by
  refine .step (.refl S) aloof_requireOpen fun _ S₁ h₁ => .get ?_
  refine .step h₁ (aloof_ofExcept _) fun domains S₂ h₂ => ?_
  refine .step h₂ (aloof_ofExcept _) fun codomain S₃ h₃ => ?_
  refine .step h₃ (aloof_newSymbol _ _) fun s S₄ h₄ => ?_
  have hnames := congrArg (·.insert name (Binding.term (.symbol s))) h₄.names
  exact .of_run (a := s) rfl ⟨h₄.assertions, s, hnames⟩

theorem isSymbol_of_fitBody {name : String} {sort : SmtSort} {sexpr : SExpr} {t u : Term}
    (h : fitBody name sort sexpr t = .ok u) :
    (Binding.term u).isSymbol = t.isSymbolOf sort := by
  unfold fitBody at h
  by_cases hlift : (sort = .real && t.isInt) = true
  · rw [if_pos hlift] at h
    obtain ⟨rfl, hint⟩ : sort = .real ∧ t.isInt = true := by simpa using hlift
    have hsort : t.sort = .int := by simpa [Term.isInt] using hint
    rw [Term.not_isSymbol_mkToReal hsort (Term.mapError_ok h)]
    cases t with
    | symbol s =>
      have hint : s.sort = .int := hsort
      simp [Term.isSymbolOf, hint]
    | _ => rfl
  · rw [if_neg hlift] at h
    split at h
    · cases h
    · rename_i hsort
      obtain rfl := Except.ok.inj h
      cases t with
      | symbol s => simpa [Binding.isSymbol, Term.isSymbolOf, Term.sort] using hsort
      | _ => rfl

theorem defineFun_commits (name : String) (parameters : List SExpr) (codomain body : SExpr) :
    Commits S (defineFun name parameters codomain body) S fun S' _ =>
      S'.assertions = S.assertions ∧ ∃ binding, S'.names = S.names.insert name binding ∧
        binding.isSymbol = S.renames parameters codomain body := by
  have hopen : Leads SameTables requireOpen S fun S' _ => S = S' :=
    (requireOpen_leads closed_sameTables S).mono fun _ _ _ h => h.1.symm
  have hparse (result : Except Error SmtSort) :
      Leads SameTables (ofExcept result) S fun S' sort => S = S' ∧ result = .ok sort :=
    .mk closed_sameTables fun _ h => ⟨rfl, h⟩
  have hfit (result : Except Error Term) (S₁ : Session σ μ) :
      Leads SameTables (ofExcept result) S₁ fun _ term => result = .ok term :=
    .mk closed_sameTables fun _ h => h
  refine .bind (.refl S) hopen ?_
  rintro ⟨⟩ _ - rfl
  refine .get (.bind (.refl _) (hparse _) ?_)
  rintro sort _ - ⟨rfl, hsort⟩
  cases parameters with
  | nil =>
    have hnone : Leads SameTables (declareParameters name []) S fun S' declared =>
        S = S' ∧ declared = [] := .pure closed_sameTables ⟨rfl, rfl⟩
    refine .bind (.refl _) hnone ?_
    rintro _ _ - ⟨rfl, rfl⟩
    have hread : Leads SameTables (onTerms (translate S.sorts S.environment body)) S fun _ t =>
        ((parseTerm body).run S).1 = .ok t :=
      .of_run (run_onTerms _ S) ⟨rfl, rfl, rfl, rfl⟩ fun t ht => by rw [← ht]; rfl
    refine .get (.bind (.refl _) hread fun t S₁ h₁ ht => ?_)
    refine .bind h₁ (hfit _ S₁) fun term S₂ h₂ hterm => ?_
    refine (bindName_commits h₂ name (.term term)).mono fun S' _ h => ⟨h.1, _, h.2, ?_⟩
    rw [isSymbol_of_fitBody hterm, renames, hsort, ht]
    rfl
  | cons parameter rest =>
    refine .bind (.refl _) (declareParameters_length _ _ S) fun declared S₁ h₁ hlength => .get ?_
    refine .step h₁ (aloof_onTerms _) fun t S₂ h₂ => ?_
    refine .step h₂ (aloof_ofExcept _) fun term S₃ h₃ => ?_
    have hsome : declared.isEmpty = false := by
      cases declared with
      | nil => simp at hlength
      | cons => rfl
    rw [hsome]
    exact (bindName_commits h₃ name _).mono fun S' _ h => ⟨h.1, _, h.2, rfl⟩

theorem reset_commits :
    Commits S (reset : SessionStep σ μ Unit) S fun S' _ =>
      S'.assertions = .empty ∧ S'.names = .empty := by
  refine .step (.refl S) aloof_requireOpen fun _ S₁ _ => ?_
  exact .of_run (by rw [run_bind_ok (run_release _), run_modify]) ⟨rfl, rfl⟩

variable [Solver σ μ]

/-! ### Operations of an active session -/

theorem assertTerm_commits (sexpr : SExpr) :
    Commits S (assertTerm sexpr) S fun S' t => S'.names = S.names ∧
      ((parseTerm sexpr).run S).1 = .ok t ∧ S'.assertions = S.assertions.add t := by
  refine .bind (.refl S) (requireActive_leads closed_sameTables S) fun _ S₁ _ h => ?_
  obtain ⟨rfl, _⟩ := h
  refine .bind (.refl _) (aloof_parseTerm sexpr).ran fun t S₂ h₂ hread => .get ?_
  have hparse := congrArg Prod.fst hread.1
  refine .step h₂ (aloof_defineParts _) fun _ S₃ h₃ => ?_
  refine .step h₃ (aloof_onContext _) fun _ S₄ h₄ => ?_
  refine .of_run (by rw [run_bind_ok (run_modify _ _), run_bind_ok (run_dropModel _), run_pure]) ?_
  refine ⟨?_, hparse, ?_⟩
  · simpa using h₄.names
  · simp [h₄.assertions]

theorem push_commits (levels : Nat) :
    Commits S (push levels) S fun S' _ => S'.names = S.names ∧
      S'.assertions = S.assertions.pushMany levels := by
  refine .step (.refl S) aloof_requireActive fun _ S₁ h₁ => ?_
  refine .step h₁ aloof_dropModel fun _ S₂ h₂ => .step h₂ (aloof_onContext _) fun _ S₃ h₃ => ?_
  exact .of_run (run_modify _ _) ⟨h₃.names, congrArg (·.pushMany levels) h₃.assertions⟩

theorem pop_commits (levels : Nat) :
    Commits S (pop levels) S fun S' _ => S'.names = S.names ∧
      levels < S.assertions.depth ∧ S'.assertions = S.assertions.popMany levels := by
  refine .step (.refl S) aloof_requireActive fun _ S₁ h₁ => .get ?_
  dsimp only
  by_cases hdepth : S₁.assertions.depth ≤ levels
  · simp only [hdepth, if_true]
    exact .bind h₁ (.throw (Q := fun _ _ => False) closed_sameTables _) fun _ _ _ h => h.elim
  · simp only [hdepth, if_false]
    refine .step h₁ aloof_dropModel fun _ S₂ h₂ => .step h₂ (aloof_onContext _) fun _ S₃ h₃ => ?_
    refine .of_run (run_modify _ _) ⟨h₃.names, ?_, congrArg (·.popMany levels) h₃.assertions⟩
    rw [← h₁.assertions]
    exact Nat.lt_of_not_le hdepth

theorem resetAssertions_commits :
    Commits S resetAssertions S fun S' _ => S'.names = S.names ∧ S'.assertions = .empty := by
  refine .step (.refl S) aloof_requireActive fun _ S₁ h₁ => ?_
  refine .step h₁ aloof_dropModel fun _ S₂ h₂ => .step h₂ (aloof_onContext _) fun _ S₃ h₃ => ?_
  exact .of_run (run_modify _ _) ⟨h₃.names, rfl⟩

theorem setLogic_commits (logic : String) :
    Commits S (setLogic logic) S fun S' _ => Untouched S S' ∧ S.status = .uninitialized := by
  refine .bind (.refl S) (requireOpen_leads closed_sameTables S) fun _ S₁ _ h => .get ?_
  obtain ⟨rfl, hopen⟩ := h
  by_cases hactive : S₁.status = .active
  · simp only [hactive, if_true]
    exact .bind (.refl S₁) (.throw (Q := fun _ _ => False) closed_sameTables _)
      fun _ _ _ h => h.elim
  · have hidle : S₁.status = .uninitialized := by
      cases hstatus : S₁.status with
      | uninitialized => rfl
      | active => exact absurd hstatus hactive
      | closed => exact absurd hstatus hopen
    simp only [hactive, if_false]
    split
    · exact .throw (.refl S₁) _
    · exact .of_run (run_set _ _) ⟨⟨rfl, rfl⟩, hidle⟩

/-! ### Commands -/

/-- What a command that succeeds does about assertions and names. -/
def Does (S S' : Session σ μ) : Command → Prop
  | .assertTerm sexpr => S'.names = S.names ∧
    ∃ t, ((parseTerm sexpr).run S).1 = .ok t ∧ S'.assertions = S.assertions.add t
  | .push levels => S'.names = S.names ∧ S'.assertions = S.assertions.pushMany levels
  | .pop levels => S'.names = S.names ∧
    levels < S.assertions.depth ∧ S'.assertions = S.assertions.popMany levels
  | .resetAssertions => S'.names = S.names ∧ S'.assertions = .empty
  | .reset => S'.assertions = .empty ∧ S'.names = .empty
  | .declareFun name _ _ => S'.assertions = S.assertions ∧
    ∃ s, S'.names = S.names.insert name (.term (.symbol s))
  | .defineFun name parameters codomain body => S'.assertions = S.assertions ∧
    ∃ binding, S'.names = S.names.insert name binding ∧
      binding.isSymbol = S.renames parameters codomain body
  | .setLogic _ => Untouched S S' ∧ S.status = .uninitialized
  | _ => Untouched S S'

theorem perform_commits (command : Command) :
    Commits S (perform command) S fun S' _ => Does S S' command := by
  have haloof {command : Command} (h : command.fillsTables = false) :
      Commits S (perform command) S fun S' _ => Untouched S S' :=
    .of_untouched ((perform_aloof h).weaken fun _ h => h.untouched)
  cases command with
  | setLogic logic => exact .result (setLogic_commits logic)
  | setOption keyword value => exact .result (setOption_commits keyword value)
  | setInfo keyword value => exact .result (setInfo_commits keyword value)
  | push levels => exact .result (push_commits levels)
  | pop levels => exact .result (pop_commits levels)
  | resetAssertions => exact .result resetAssertions_commits
  | reset => exact .result reset_commits
  | declareFun name domains codomain => exact .result (declareFun_commits name domains codomain)
  | defineFun name parameters codomain body =>
    exact .result (defineFun_commits name parameters codomain body)
  | assertTerm sexpr =>
    exact .result ((assertTerm_commits sexpr).mono fun S' t h => ⟨h.1, t, h.2⟩)
  | _ => exact haloof rfl

/-- A command that fails leaves the assertions and the names as they are. -/
theorem perform_fails {command : Command} {e : Error}
    (hrun : (perform command).run S = (.error e, S')) : Untouched S S' :=
  (perform_commits command).1 e S' hrun

theorem perform_does {command : Command} {output : Option String}
    (hrun : (perform command).run S = (.ok output, S')) : Does S S' command :=
  ((perform_commits command).2 _ S' hrun).2 output rfl

/-! ### Runs -/

/-- A command that has succeeded. -/
structure Deed (σ μ : Type) where
  command : Command
  before : Session σ μ
  after : Session σ μ

/-- The commands of a run that succeed. -/
def deeds : List SExpr → Session σ μ → List (Deed σ μ)
  | [], _ => []
  | sexpr :: rest, S =>
    match sexpr.request?, (execute sexpr).run S with
    | some command, (.ok _, S') => ⟨command, S, S'⟩ :: deeds rest S'
    | _, (_, S') => deeds rest S'

theorem deeds_cons_of_error {sexpr : SExpr} {e : Error}
    (hrun : (execute sexpr).run S = (.error e, S')) (rest : List SExpr) :
    deeds (sexpr :: rest) S = deeds rest S' := by
  rw [deeds, hrun]
  cases sexpr.request? <;> rfl

theorem deeds_cons_of_ok {sexpr : SExpr} {command : Command} {output : Option String}
    (hrequest : sexpr.Requests command) (hrun : (execute sexpr).run S = (.ok output, S'))
    (rest : List SExpr) : deeds (sexpr :: rest) S = ⟨command, S, S'⟩ :: deeds rest S' := by
  rw [deeds, hrun, hrequest.request?_eq]

/-- What holds at the start, and is kept by commands that fail and by those that do something, holds
of the deeds of every run and of the session that it leads to. -/
theorem deeds_induction {P : List (Deed σ μ) → Session σ μ → Prop} {configuration : Configuration}
    (hstart : P [] (start configuration))
    (hfails : ∀ {done S S'}, S.Reachable → P done S → Untouched S S' → P done S')
    (hdoes : ∀ {done S S' command}, S.Reachable → P done S → Does S S' command →
      P (done ++ [⟨command, S, S'⟩]) S') (commands : List SExpr) :
    P (deeds commands (start configuration)) (after commands (start configuration)) := by
  have hrun (commands : List SExpr) {done : List (Deed σ μ)} {S : Session σ μ} (hS : S.Reachable)
      (hP : P done S) : P (done ++ deeds commands S) (after commands S) := by
    induction commands generalizing done S with
    | nil =>
      rw [deeds, List.append_nil]
      exact hP
    | cons sexpr rest ih =>
      obtain ⟨⟨r, S'⟩, hexecute⟩ : ∃ p, (execute sexpr).run S = p := ⟨_, rfl⟩
      have hS' : S'.Reachable := hS.execute hexecute
      have hafter : after (sexpr :: rest) S = after rest S' :=
        congrArg (fun p : Except Error (Option String) × Session σ μ => after rest p.2) hexecute
      rw [hafter]
      rcases run_execute_cases sexpr S with ⟨e, he⟩ | ⟨command, hrequest, hperform⟩
      · obtain ⟨rfl, rfl⟩ := Prod.mk.inj (he.symm.trans hexecute)
        rw [deeds_cons_of_error he]
        exact ih hS hP
      · have hresult := hperform.symm.trans hexecute
        cases r with
        | error e =>
          rw [deeds_cons_of_error hexecute]
          exact ih hS' (hfails hS hP (perform_fails hresult))
        | ok output =>
          rw [deeds_cons_of_ok hrequest hexecute, List.append_cons]
          exact ih hS' (hdoes hS hP (perform_does hresult))
  exact hrun commands ⟨configuration, [], rfl⟩ hstart

end Session

end SmtScript
