import SmtScript.Proofs.Session.Tidy

/-!
Scopes in which terms are read.

`Session.Scope` lists the environments and the states that the reading of terms comes to from a
session: inside of `let`, of quantifiers and of definitions, at any depth and after other terms.
In a tidy session no local symbol escapes its binder, `Session.enclosed_after`.
-/

namespace SmtScript

open Solver Step Translation TermState

/-- Whether a symbol is free in what a name of an inner scope stands for. -/
def Names.Mentions (names : Names) (s : Symbol) : Prop :=
  ∃ name t, names.scope.lookup name = some (.term t) ∧ s ∈ t.freeSymbols

namespace Session

variable {σ μ : Type} {S S' : Session σ μ} {D : List Symbol} {names : Names} {T T' : TermState}

/-- The environments and states in which S-expressions are translated, beginning at a session. -/
inductive Scope (S : Session σ μ) : Names → TermState → Prop where
  | top : Scope S S.environment S.terms
  /-- Something else has been translated there before. -/
  | later {names : Names} {T T' : TermState} {sexpr : SExpr} {t : Term} (h : Scope S names T)
      (hrun : (translate S.sorts names sexpr).run T = (.ok t, T')) : Scope S names T'
  | bindings {names : Names} {T T' : TermState} {items : List SExpr}
      {bound : List (String × Binding)} (h : Scope S names T)
      (hrun : (translateBindings S.sorts names items).run T = (.ok bound, T')) :
      Scope S (names.extend bound) T'
  | quantified {names : Names} {T T' : TermState} {declarations : List SExpr}
      {declared : List (String × Symbol)} (h : Scope S names T)
      (hrun : (declareVariables S.sorts declarations).run T = (.ok declared, T')) :
      Scope S (names.extend (bindSymbols declared)) T'
  | defined {name : String} {parameters : List SExpr} {declared : List (String × Symbol)}
      {S' : Session σ μ} (hrun : (declareParameters name parameters).run S = (.ok declared, S')) :
      Scope S (S.environment.extend (bindSymbols declared)) S'.terms

/-- What is known of a scope of a tidy session. -/
structure Within (D c : List Symbol) (S : Session σ μ) (names : Names) (T : TermState) :
    Prop where
  inScope : InScope D c names T
  clean : T.leftover = none
  continues : Continues D S.terms T
  permanent : names.permanent = S.names
  bound : ∀ p ∈ names.scope, ∃ t, p.2 = .term t

theorem Within.extend {c c' : List Symbol} {bound : List (String × Binding)}
    (h : Within D c S names T) (hinv : InScope D c' names T') (hclean : T'.leftover = none)
    (hcontinues : Continues D T T') (hbound : ∀ p ∈ bound, ∃ t, p.2 = .term t ∧ t.Fair D c' T') :
    Within D c' S (names.extend bound) T' := by
  refine ⟨(kept_scope D).extend hinv hbound, hclean,
    (kept_scope D).closed.trans h.continues hcontinues, h.permanent, fun p hp => ?_⟩
  rcases List.mem_append.mp hp with hp | hp
  · obtain ⟨t, ht, _⟩ := hbound p (List.mem_reverse.mp hp)
    exact ⟨t, ht⟩
  · exact h.bound p hp

variable [Solver σ μ] [GrowingSolver σ μ]

theorem Tidy.within_top (h : Tidy D S) : Within D [] S S.environment S.terms :=
  ⟨h.confined.inScope h.reachable.sound, h.clean, (kept_scope D).closed.refl _, rfl, nofun⟩

theorem Tidy.within (hS : Tidy D S) (h : S.Scope names T) : ∃ c, Within D c S names T := by
  have hkept := kept_scope D
  induction h with
  | top => exact ⟨[], hS.within_top⟩
  | @later names T T' sexpr t _ hrun ih =>
    obtain ⟨c, h⟩ := ih
    obtain ⟨hcontinues, hres⟩ :=
      (hkept.carries_all S.sorts fun _ _ _ _ => trivial).1 names sexpr c T h.inScope h.clean _ _
        hrun
    have hclean := (hres t rfl).1
    exact ⟨c, hkept.inv_mono h.inScope hcontinues hclean, hclean,
      hkept.closed.trans h.continues hcontinues, h.permanent, h.bound⟩
  | @bindings names T T' items bound _ hrun ih =>
    obtain ⟨c, h⟩ := ih
    obtain ⟨hcontinues, hres⟩ :=
      (hkept.carries_all S.sorts fun _ _ _ _ => trivial).2.2 names items c T h.inScope h.clean _ _
        hrun
    obtain ⟨hclean, hbound⟩ := hres bound rfl
    exact ⟨c, h.extend (hkept.inv_mono h.inScope hcontinues hclean) hclean hcontinues hbound⟩
  | @quantified names T T' declarations declared _ hrun ih =>
    obtain ⟨c, h⟩ := ih
    obtain ⟨hcontinues, hres⟩ :=
      hkept.opens_variables S.sorts declarations h.inScope h.clean _ _ hrun
    obtain ⟨hclean, hopened⟩ := hres declared rfl
    exact ⟨_, h.extend hopened.inv hclean hcontinues hopened.bindings⟩
  | @defined name parameters declared S' hrun =>
    have h := hS.within_top
    obtain ⟨hcontinues, hres⟩ :=
      declareParameters_opens hkept name parameters h.inScope h.clean _ _ hrun
    obtain ⟨hclean, hopened, _⟩ := hres declared rfl
    exact ⟨_, h.extend hopened.inv hclean hcontinues.terms hopened.bindings⟩

/-! ### Local symbols -/

/-- The symbols that are free in what the names of inner scopes stand for. -/
def mentioned (names : Names) : List Symbol :=
  names.scope.flatMap fun p =>
    match names.scope.lookup p.1 with
    | some (.term t) => t.freeSymbols
    | _ => []

omit [Solver σ μ] [GrowingSolver σ μ] in
theorem mem_mentioned {s : Symbol} : s ∈ mentioned names ↔ names.Mentions s := by
  unfold mentioned Names.Mentions
  rw [List.mem_flatMap]
  constructor
  · rintro ⟨p, _, hs⟩
    split at hs
    · rename_i t hlookup
      exact ⟨p.1, t, hlookup, hs⟩
    · cases hs
  · rintro ⟨name, t, hlookup, hs⟩
    exact ⟨(name, .term t), Environment.mem_of_lookup hlookup, by simpa [hlookup] using hs⟩

omit [Solver σ μ] [GrowingSolver σ μ] in
/-- In a scope of a tidy session no symbol is free but the global ones and those that inner scopes
mention. -/
theorem Within.mentioned {c : List Symbol} (h : Within D c S names T) (hS : S.Confined D) :
    ConfinedIn D (mentioned names) names T := by
  have hconfined := h.inScope.confined
  have hscope {name : String} {t : Term} (hlookup : names.scope.lookup name = some (.term t)) :
      names.find? name = some (.term t) := by simp [Environment.find?, hlookup]
  refine ⟨hconfined.terms, fun s hs => ?_, hconfined.regular, fun name binding hfind => ?_⟩
  · obtain ⟨name, t, hlookup, hst⟩ := mem_mentioned.mp hs
    rcases hconfined.names name _ (hscope hlookup) s hst with hglobal | hopened
    · exact .inr hglobal
    · exact hconfined.scope s hopened
  · cases hlookup : names.scope.lookup name with
    | some binding' =>
      obtain ⟨t, ht⟩ := h.bound _ (Environment.mem_of_lookup hlookup)
      obtain rfl : binding' = .term t := ht
      obtain rfl := Option.some.inj ((hscope hlookup).symm.trans hfind)
      exact fun s hs => .inr (mem_mentioned.mpr ⟨name, t, hlookup, hs⟩)
    | none =>
      have hfind : S.environment.find? name = some binding := by
        simpa [Environment.find?, hlookup, h.permanent, environment] using hfind
      refine (hS.names.names name binding hfind).mono fun s hs => ?_
      exact (hs.grow h.continues.confined.1).imp_right fun hmem => absurd hmem List.not_mem_nil

/-- Whether no local symbol escapes its binder. -/
structure Enclosed (D : List Symbol) (S : Session σ μ) : Prop where
  /-- What is read at the top level has only global symbols free and binds none of them. -/
  parsed : ∀ {sexpr : SExpr} {t : Term} {S' : Session σ μ},
    (parseTerm sexpr).run S = (.ok t, S') →
      t.Confined (S'.terms.Global D) ∧ t.Tame fun s => ¬ S'.terms.Global D s
  /-- What is read in an inner scope may have free what the names of the scope stand for. -/
  translated : ∀ {names : Names} {T T' : TermState} {sexpr : SExpr} {t : Term},
    S.Scope names T → (translate S.sorts names sexpr).run T = (.ok t, T') →
      t.Confined fun s => T'.Global D s ∨ names.Mentions s
  /-- Variables of quantifiers and parameters are never global. -/
  locals : ∀ {names : Names} {T : TermState}, S.Scope names T → ∀ s ∈ T.locals, ¬ T.Global D s
  /-- Nor is the symbol that `is_int` makes; the result binds it. -/
  witnesses : ∀ {names : Names} {T T' : TermState} {sexpr : SExpr} {t u : Term},
    S.Scope names T → (isIntegral sexpr t).run T = (.ok u, T') →
      ∃ s equality, u = .quantified .existential [s] equality ∧ ¬ T.Knows s ∧ T'.Knows s ∧
        ∀ T'', Grows T' T'' → ¬ T''.Global D s
  terms : ∀ {name : String} {t : Term}, S.names.get? name = some (.term t) →
    t.Confined (S.terms.Global D)
  definitions : ∀ {name : String} {d : Definition}, S.names.get? name = some (.definition d) →
    d.body.Confined fun s => S.terms.Global D s ∨ s ∈ d.parameters
  operands : ∀ p ∈ S.terms.integerParts, p.2.Confined (S.terms.Global D)
  constraints : ∀ p ∈ S.terms.integerParts,
    (integerPartConstraint p.1 p.2).Confined (S.terms.Global D)
  assertions : ∀ t ∈ S.assertions.items, t.Confined (S.terms.Global D)

omit [Solver σ μ] [GrowingSolver σ μ] in
/-- What says that a number is integral quantifies over a new symbol. -/
theorem quantified_of_isIntegral {sexpr : SExpr} {t u : Term}
    (h : (isIntegral sexpr t).run T = (.ok u, T')) :
    T' = made T "is_int_" .int ∧
      ∃ equality, u = .quantified .existential [fresh T "is_int_" .int] equality := by
  have hnode (ts : List Term) (x : Except Fault Term) (T : TermState) :
      (node sexpr ts x).run T = (x.mapError (Error.ofFault sexpr ts), T) := rfl
  unfold isIntegral at h
  cases hnumber : t.liftToReal with
  | error f =>
    rw [hnumber, run_bind_error (hnode _ _ _)] at h
    cases h
  | ok number =>
    rw [hnumber, run_bind_ok (hnode _ _ _), run_bind_ok (run_freshSymbol _ _ _), hnode] at h
    obtain ⟨hu, rfl⟩ := Prod.mk.inj h
    obtain ⟨lifted, _, hu⟩ := Term.bind_ok (Term.mapError_ok hu)
    obtain ⟨equality, _, hu⟩ := Term.bind_ok hu
    obtain ⟨_, rfl⟩ := Term.checked_ok hu
    exact ⟨rfl, equality, rfl⟩

omit [Solver σ μ] [GrowingSolver σ μ] in
theorem confined_integerPartConstraint {allowed : Symbol → Prop} {s : Symbol} {operand : Term}
    (hs : allowed s) (hoperand : operand.Confined allowed) :
    (integerPartConstraint s operand).Confined allowed := by
  intro s' hs'
  have hcases : s' = s ∨ s' ∈ operand.freeSymbols := by
    simp only [integerPartConstraint, Term.freeSymbols, Term.freeSymbolsAll, Term.mem_joined,
      List.mem_singleton, List.not_mem_nil, or_false] at hs'
    tauto
  rcases hcases with rfl | hfree
  · exact hs
  · exact hoperand s' hfree

theorem Tidy.enclosed (h : Tidy D S) : Enclosed D S := by
  have hS := h.confined
  have hglobal {T : TermState} {t : Term} (ht : t.Confined (T.Visible D [])) :
      t.Confined (T.Global D) :=
    ht.mono fun s hs => hs.resolve_right List.not_mem_nil
  refine
    { parsed := fun {sexpr t S'} hrun => ?_
      translated := fun {names T T' sexpr t} hscope hrun => ?_
      locals := fun {names T} hscope s hs => ?_
      witnesses := fun {names T T' sexpr t u} hscope hrun => ?_
      terms := fun hfind => hglobal (hS.names.names _ _ hfind)
      definitions := fun hfind => ?_
      operands := hS.names.terms.operands
      constraints := fun p hp => ?_
      assertions := fun t ht => hglobal (hS.assertions t ht) }
  · obtain ⟨_, hres⟩ := parseTerm_scope hS h.reachable.sound h.clean sexpr _ _ hrun
    obtain ⟨_, ht⟩ := hres t rfl
    exact ⟨hglobal ht.confined, ht.tame.mono fun s hs hglobal => hs.2 (.inl hglobal)⟩
  · obtain ⟨c, hwithin⟩ := h.within hscope
    have hcarries := ((kept_confined D).carries_all S.sorts fun _ _ _ _ => trivial).1 names sexpr _
      T (hwithin.mentioned hS) hwithin.clean
    obtain ⟨_, ht⟩ := (hcarries _ _ hrun).2 t rfl
    exact ht.mono fun s hs => hs.imp_right mem_mentioned.mp
  · obtain ⟨c, hwithin⟩ := h.within hscope
    exact (hwithin.inScope.confined.terms.locals s hs).2
  · obtain ⟨c, hwithin⟩ := h.within hscope
    obtain ⟨rfl, equality, rfl⟩ := quantified_of_isIntegral hrun
    have hnew := not_knows_fresh T "is_int_" .int
    have hknown := knows_fresh_made T "is_int_" .int
    refine ⟨_, equality, rfl, hnew, hknown, fun T'' hgrows hglobal => ?_⟩
    have hconfined := hwithin.inScope.confined.terms
    have hold : (made T "is_int_" .int).Global D _ := hglobal.of_grow hgrows hknown
    exact not_global_of_new hconfined.declared hconfined.parts hnew hold
  · refine Term.Confined.mono (hS.names.names _ _ hfind) fun s hs => hs.imp_left fun hvisible => ?_
    exact hvisible.resolve_right List.not_mem_nil
  · refine confined_integerPartConstraint (.inr (List.mem_map_of_mem hp)) ?_
    exact hS.names.terms.operands p hp

/-- No local symbol escapes its binder as long as no command has left a substitution unfinished
since the session was started or reset. -/
theorem enclosed_after {S₀ : Session σ μ} (hfresh : S₀.Fresh) (commands : List SExpr)
    (hclean : ∀ k ≤ commands.length, (after (commands.take k) S₀).terms.leftover = none) :
    ∃ D, Tidy D (after commands S₀) ∧ Enclosed D (after commands S₀) := by
  obtain ⟨D, h⟩ := (Tidy.fresh hfresh).after commands hclean
  exact ⟨D, h, h.enclosed⟩

/-- So it is after a definition and an assertion with variables of their own. -/
theorem enclosed_after_definition : ∃ S : Session Scripted ScriptedModel,
    after [.list [.atom "set-logic", .atom "ALL"],
      .list [.atom "declare-const", .atom "x", .atom "Int"],
      .list [.atom "define-fun", .atom "f", .list [.list [.atom "a", .atom "Int"]], .atom "Bool",
        .list [.atom "exists", .list [.list [.atom "y", .atom "Int"]],
          .list [.atom "<", .atom "a", .atom "y"]]],
      .list [.atom "assert", .list [.atom "forall", .list [.list [.atom "z", .atom "Int"]],
        .list [.atom "=", .atom "z", .atom "x"]]]] (start (.ofSolver "z3")) = S ∧
      S.assertions.items.length = 1 ∧ ∃ D, Tidy D S ∧ Enclosed D S :=
  ⟨_, rfl, by decide +kernel,
    enclosed_after (.start (.ofSolver "z3")) _ (by decide +kernel)⟩

end Session

end SmtScript
