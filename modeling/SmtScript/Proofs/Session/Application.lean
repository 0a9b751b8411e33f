import SmtScript.Proofs.Session.Enclosed
import SmtScript.Proofs.Term.Instantiation
import SmtScript.Proofs.Translate.Application

/-!
Definitions take values for their parameters.

In a tidy session a definition that is applied to arguments of the right sorts yields a term, and
the term has the value that the body has once the parameters have the values of the arguments,
`Session.defined_applies`. What begins with the word of another form is no application, whatever
the word has been defined as, `Session.not_defined_applies_let`.
-/

namespace SmtScript

open Solver Step Translation TermState

/-- Whether a term can be taken for a symbol, perhaps as a Real number. -/
def Symbol.Accepts (s : Symbol) (t : Term) : Prop :=
  t.sort = s.sort ∨ s.sort = .real ∧ t.sort = .int

/-! ### Arguments -/

theorem liftTo_typed {s : Symbol} {t : Term} (ht : t.WellSorted) (h : s.Accepts t) :
    ∃ u, liftTo s.sort t = .ok u ∧ u.Typed s.sort := by
  unfold liftTo
  split
  · rename_i hreal
    have hnumber : t.sort = .int ∨ t.sort = .real := by
      rcases h with hsort | ⟨_, hint⟩
      · exact .inr (hsort.trans hreal)
      · exact .inl hint
    obtain ⟨u, hu, htyped, _⟩ := Term.builds_liftToReal hnumber ⟨ht, rfl⟩
    exact ⟨u, hu, hreal ▸ htyped⟩
  · rename_i hreal
    exact ⟨t, rfl, ht, h.resolve_right fun hlifted => hreal hlifted.1⟩

/-- Arguments that are accepted can be lifted, and have the sorts of the parameters then. -/
theorem liftAllTo_typed {parameters : List Symbol} {ts : List Term}
    (haccepts : List.Forall₂ Symbol.Accepts parameters ts) (hts : ∀ t ∈ ts, t.WellSorted) :
    ∃ values, liftAllTo (parameters.map Symbol.sort) ts = .ok values ∧
      List.Forall₂ (fun s v => v.Typed s.sort) parameters values := by
  induction haccepts with
  | nil => exact ⟨[], rfl, .nil⟩
  | cons hfirst _ ih =>
    obtain ⟨ht, hrest⟩ := List.forall_mem_cons.mp hts
    obtain ⟨v, hv, htyped⟩ := liftTo_typed ht hfirst
    obtain ⟨values, hvalues, htypeds⟩ := ih hrest
    refine ⟨v :: values, ?_, .cons htyped htypeds⟩
    unfold liftAllTo at hvalues ⊢
    rw [List.map_cons, List.zip_cons_cons, List.mapM_cons]
    dsimp only
    rw [hv, hvalues]
    rfl

/-! ### Applications -/

section

variable {sorts : SortTable} {names : Names} {T T' : TermState} {head : String} {args : List SExpr}
  {ts : List Term}

/-- A definition is taken with the values of its arguments. -/
theorem run_applyBinding_definition {d : Definition} {sexpr : SExpr} {values : List Term} {u : Term}
    (hlength : ts.length = d.parameters.length)
    (hvalues : liftAllTo (d.parameters.map Symbol.sort) ts = .ok values)
    (hclean : T.leftover = none)
    (hu : d.body.instantiate (d.parameters.zip values) none = (.ok u, none)) :
    (applyBinding head sexpr (.definition d) ts).run T = (.ok u, T) := by
  unfold applyBinding
  simp only [hlength, ne_eq, not_true_eq_false, if_false, hvalues]
  rw [run_bind_ok (run_get T), hclean, hu]
  dsimp only
  rw [run_bind_ok (run_set T _), ← hclean]
  rfl

/-- A definition can be applied to values of the sorts of its parameters in which none of its bound
variables is free. -/
theorem Definition.Regular.instantiate {d : Definition} {values : List Term}
    {hidden : Symbol → Prop} (hregular : d.Regular) (htame : d.body.Tame hidden)
    (hvalues : List.Forall₂ (fun s v => v.Typed s.sort) d.parameters values)
    (hhidden : ∀ s, hidden s → s ∉ d.parameters ∧ ∀ v ∈ values, s ∉ v.freeSymbols) :
    ∃ u, d.body.instantiate (d.parameters.zip values) none = (.ok u, none) ∧
      Term.Becomes (d.parameters.zip values) d.body u := by
  have htyped : ∀ p ∈ d.parameters.zip values, p.2.Typed p.1.sort := fun p hp =>
    List.forall₂_zip hvalues hp
  have hkey (s : Symbol) (hs : s ∉ d.parameters) : (d.parameters.zip values).lookup s = none := by
    rw [List.lookup_eq_none_iff]
    intro p hp
    have hne : s ≠ p.1 := fun heq => hs (heq ▸ (List.of_mem_zip hp).1)
    simpa using hne
  obtain ⟨u, hu, hbecomes⟩ := Term.substitute_becomes hregular.wellSorted htame htyped
    fun s hs => ⟨hkey s (hhidden s hs).1, fun p hp => (hhidden s hs).2 _ (List.of_mem_zip hp).2⟩
  refine ⟨u, ?_, hbecomes⟩
  have hnone : (d.parameters.zip values).findSome? (fun p => p.2.bareFunction?) = none := by
    rw [List.findSome?_eq_none_iff]
    intro p hp
    have hsort := (htyped p hp).sort_eq
    have hfirst := hregular.parameters p.1 (List.of_mem_zip hp).1
    cases hp2 : p.2 with
    | symbol s =>
      rw [hp2] at hsort
      have hs : s.sort = p.1.sort := hsort
      simp [Term.bareFunction?, hs, hfirst]
    | _ => rfl
  unfold Term.instantiate
  rw [hnone]
  exact Term.substituteOver_none hu

end

namespace Session

variable {σ μ : Type} {S S₀ S₁ : Session σ μ} {D D₀ : List Symbol} {names : Names}
  {T T' : TermState} {f : String}

/-- What a definition with parameters is bound to: the body is read where the parameters stand for
symbols of their own, and has the declared sort. -/
structure Introduces (S₀ S₁ : Session σ μ) (f : String) (parameters : List SExpr)
    (codomain body : SExpr) (d : Definition) (sort : SmtSort) : Prop where
  bound : S₁.names.get? f = some (.definition d)
  sort_read : S₀.sorts.parse codomain = .ok sort
  body_read : ∃ declared T T' t, ReadsParameters S₀.sorts parameters declared ∧
    declared.map Prod.snd = d.parameters ∧
    (translate S₀.sorts (S₀.environment.extend (bindSymbols declared)) body).run T = (.ok t, T') ∧
    fitBody f sort body t = .ok d.body
  distinct : d.parameters.Nodup
  body_sort : d.body.sort = sort

/-- The body of a definition has the sort that is declared. -/
theorem sort_of_fitBody {name : String} {sort : SmtSort} {sexpr : SExpr} {t u : Term}
    (h : fitBody name sort sexpr t = .ok u) (ht : t.WellSorted) : u.sort = sort := by
  unfold fitBody at h
  split at h
  · rename_i hlifted
    obtain ⟨hreal, hint⟩ := Bool.and_eq_true_iff.mp hlifted
    have htyped : t.Typed .int := ⟨ht, by simpa [Term.isInt] using hint⟩
    obtain ⟨v, hv, hvtyped, _⟩ := Term.builds_mkToReal (.inl rfl) htyped
    obtain rfl := Except.ok.inj (hv.symm.trans (Term.mapError_ok h))
    exact hvtyped.sort_eq.trans (of_decide_eq_true hreal).symm
  · split at h
    · cases h
    · rename_i hsort
      obtain rfl := Except.ok.inj h
      simpa using hsort

theorem defineFun_introduces (hS : S.Confined D) (hsound : S.Sound)
    (hclean : S.terms.leftover = none) {parameters : List SExpr} (hparameters : parameters ≠ [])
    (codomain body : SExpr) :
    Leads (fun _ _ => True) (defineFun f parameters codomain body) S
      fun S' _ => ∃ d sort, Introduces S S' f parameters codomain body d sort := by
  refine .bind_same trivial (requireOpen_leads closed_eq S) fun _ _ => ?_
  refine .get ?_
  refine .bind_same trivial (ofExcept_leads _ S) fun sort hsort => ?_
  refine (declareParameters_opens (kept_scope D) f parameters (hS.inScope hsound)
    hclean).bind_into (fun _ _ => trivial) fun declared S₁ h₁ hdeclared => ?_
  obtain ⟨hclean₁, hopened, hread⟩ := hdeclared
  have henv : S₁.environment = S.environment := by rw [environment, environment, h₁.rest]
  have hsorts : S₁.sorts = S.sorts := by rw [h₁.rest]
  have hscope := (kept_scope D).extend hopened.inv hopened.bindings
  refine .get ?_
  rw [henv, hsorts]
  refine (onTerms_leads (((kept_scope D).carries_all S.sorts fun _ _ _ _ => trivial).1 _ body _
    S₁.terms hscope hclean₁).ran).bind_into (fun _ _ => trivial) fun t S₂ h₂ ht => ?_
  obtain ⟨htranslate, _, ht⟩ := ht
  refine .bind_same trivial (ofExcept_leads _ S₂) fun u hfit => ?_
  have hnonempty : declared.isEmpty = false := by
    cases hread with
    | nil => exact absurd rfl hparameters
    | cons _ _ => rfl
  rw [hnonempty]
  refine .modify trivial ⟨⟨declared.map Prod.snd, u⟩, sort, ?_⟩
  exact
    { bound := by simp
      sort_read := hsort
      body_read := ⟨declared, _, _, t, hread, rfl, htranslate, hfit⟩
      distinct := hopened.distinct
      body_sort := sort_of_fitBody hfit ht.sound.wellSorted }

variable [Solver σ μ] [GrowingSolver σ μ]

/-- In a scope of a tidy session a definition can be applied to arguments that are accepted, and
none of the variables that its body binds is free in them. -/
theorem Tidy.applies (hS : Tidy D S) (hscope : S.Scope names T) {d : Definition}
    {args : List SExpr} {ts : List Term} (hfind : names.find? f = some (.definition d))
    (hword : f ∉ SExpr.formWords) (hargs : (translateAll S.sorts names args).run T = (.ok ts, T'))
    (haccepts : List.Forall₂ Symbol.Accepts d.parameters ts) :
    ∃ values u, liftAllTo (d.parameters.map Symbol.sort) ts = .ok values ∧
      (translate S.sorts names (.list (.atom f :: args))).run T = (.ok u, T') ∧
      Term.Becomes (d.parameters.zip values) d.body u := by
  have hkept := kept_scope D
  obtain ⟨c, hwithin⟩ := hS.within hscope
  obtain ⟨hcontinues, hres⟩ :=
    (hkept.carries_all S.sorts fun _ _ _ _ => trivial).2.1 names args c T hwithin.inScope
      hwithin.clean _ _ hargs
  obtain ⟨hclean, hts⟩ := hres ts rfl
  have hinScope := hkept.inv_mono hwithin.inScope hcontinues hclean
  obtain ⟨values, hvalues, htyped⟩ :=
    liftAllTo_typed haccepts fun t ht => (hts t ht).sound.wellSorted
  have hfair := keeps_liftAllTo (hkept.hereditary c T') hvalues hts
  have hregular := hinScope.confined.regular f d hfind
  have htame : d.body.Tame fun s => T'.Hidden D c s ∧ s ∉ d.parameters :=
    hinScope.hidden.names f _ hfind
  -- what is free in the arguments is visible, and what the body binds is not
  obtain ⟨u, hu, hbecomes⟩ := hregular.instantiate htame htyped fun s hs =>
    ⟨hs.2, fun v hv hfree => hs.1.2 ((hfair v hv).confined s hfree)⟩
  refine ⟨values, u, hvalues, ?_, hbecomes⟩
  rw [run_translate_application hword hfind hargs]
  exact run_applyBinding_definition haccepts.length_eq.symm hvalues hclean hu

/-- A definition with parameters can be applied in every scope of every tidy session: the result is
of the declared sort and has, in every interpretation, the value that the body has once the
parameters have the values of the arguments. -/
theorem defined_applies (hS₀ : Tidy D₀ S₀) {parameters : List SExpr} {codomain body : SExpr}
    (hparameters : parameters ≠ [])
    (hrun : (defineFun f parameters codomain body).run S₀ = (.ok (), S₁)) :
    ∃ d sort, Introduces S₀ S₁ f parameters codomain body d sort ∧
      ∀ {D : List Symbol} {S : Session σ μ} {names : Names} {T T' : TermState} {args : List SExpr}
        {ts : List Term}, Tidy D S → S.Scope names T → names.find? f = some (.definition d) →
        f ∉ SExpr.formWords → (translateAll S.sorts names args).run T = (.ok ts, T') →
        List.Forall₂ Symbol.Accepts d.parameters ts →
        ∃ values u, liftAllTo (d.parameters.map Symbol.sort) ts = .ok values ∧
          (translate S.sorts names (.list (.atom f :: args))).run T = (.ok u, T') ∧
          u.sort = sort ∧ ∀ I : Interpretation, I.Proper →
            u.eval I = d.body.eval (I.bind (d.parameters.zip values)) := by
  obtain ⟨d, sort, hd⟩ := (defineFun_introduces hS₀.confined hS₀.reachable.sound hS₀.clean
    hparameters codomain body _ _ hrun).2 () rfl
  refine ⟨d, sort, hd, fun hS hscope hfind hword hargs haccepts => ?_⟩
  obtain ⟨values, u, hvalues, htranslate, hbecomes⟩ :=
    hS.applies hscope hfind hword hargs haccepts
  exact ⟨values, u, hvalues, htranslate, hbecomes.typed.sort_eq.trans hd.body_sort, hbecomes.eval⟩

omit [GrowingSolver σ μ] in
/-- A session stays tidy when a definition is accepted. -/
theorem Tidy.define {parameters : List SExpr} {codomain body : SExpr} (hS : Tidy D S)
    (hrun : (defineFun f parameters codomain body).run S = (.ok (), S₁))
    (hclean : S₁.terms.leftover = none) : ∃ D', Tidy D' S₁ := by
  have hopen : S.status ≠ .closed := by
    rcases (requireOpen_leads closed_eq S).same with ⟨e, he⟩ | ⟨_, _, _, hopen⟩
    · cases (run_bind_error he).symm.trans hrun
    · exact hopen
  have hrequest :
      (SExpr.list [.atom "define-fun", .atom f, .list parameters, codomain, body]).Requests
        (.defineFun f parameters codomain body) := .intro rfl rfl
  exact hS.execute ((run_execute hrequest hopen).trans (run_bind_ok hrun)) hclean

omit [Solver σ μ] [GrowingSolver σ μ] in
theorem parse_atom {table : SortTable} (h : table.declared = []) :
    table.parse (.atom "Bool") = .ok .bool ∧ table.parse (.atom "Int") = .ok .int ∧
      table.parse (.atom "Real") = .ok .real := by
  simp [SortTable.parse, SortTable.ofName, SortTable.contains, h]

omit [Solver σ μ] [GrowingSolver σ μ] in
/-- The only parameter of a definition has the sort that is written. -/
theorem Introduces.parameter {name : String} {sexpr codomain body : SExpr} {d : Definition}
    {sort parameterSort : SmtSort}
    (hd : Introduces S₀ S₁ f [.list [.atom name, sexpr]] codomain body d sort)
    (hsort : S₀.sorts.parse sexpr = .ok parameterSort) :
    ∃ s, d.parameters = [s] ∧ s.sort = parameterSort := by
  obtain ⟨declared, _, _, _, hread, hparameters, _⟩ := hd.body_read
  cases hread with
  | cons hfirst hnil =>
    cases hnil
    obtain ⟨_, heq, hparse⟩ := hfirst
    obtain ⟨_, rfl⟩ : _ ∧ sexpr = _ := by simpa using heq
    exact ⟨_, hparameters.symm, Except.ok.inj (hparse.symm.trans hsort)⟩

/-- So it is with a definition that takes a Real number and binds a variable of its own, when it is
applied inside of a quantifier to the Int variable that is bound there. -/
theorem defined_applies_in_quantifier :
    ∃ (S₀ S₁ : Session Scripted ScriptedModel) (d : Definition) (names : Names) (T : TermState)
      (z : Symbol) (value u : Term),
      after [.list [.atom "set-logic", .atom "ALL"]] (start (.ofSolver "z3")) = S₀ ∧
      (defineFun "f" [.list [.atom "x", .atom "Real"]] (.atom "Bool")
        (.list [.atom "exists", .list [.list [.atom "y", .atom "Real"]],
          .list [.atom "<", .atom "x", .atom "y"]])).run S₀ = (.ok (), S₁) ∧
      (∃ D, Tidy D S₁) ∧ S₁.Scope names T ∧ names.find? "f" = some (.definition d) ∧
      (translateAll S₁.sorts names [.atom "z"]).run T = (.ok [.symbol z], T) ∧ z.sort = .int ∧
      liftAllTo (d.parameters.map Symbol.sort) [.symbol z] = .ok [value] ∧
      (translate S₁.sorts names (.list [.atom "f", .atom "z"])).run T = (.ok u, T) ∧
      u.sort = .bool ∧ ∀ I : Interpretation, I.Proper →
        u.eval I = d.body.eval (I.bind (d.parameters.zip [value])) := by
  obtain ⟨S₀, hS₀⟩ : ∃ S₀ : Session Scripted ScriptedModel,
    after [.list [.atom "set-logic", .atom "ALL"]] (start (.ofSolver "z3")) = S₀ := ⟨_, rfl⟩
  obtain ⟨S₁, hS₁⟩ : ∃ S₁, ((defineFun "f" [.list [.atom "x", .atom "Real"]] (.atom "Bool")
    (.list [.atom "exists", .list [.list [.atom "y", .atom "Real"]],
      .list [.atom "<", .atom "x", .atom "y"]])).run S₀).2 = S₁ := ⟨_, rfl⟩
  have hrun : (defineFun "f" [.list [.atom "x", .atom "Real"]] (.atom "Bool")
      (.list [.atom "exists", .list [.list [.atom "y", .atom "Real"]],
        .list [.atom "<", .atom "x", .atom "y"]])).run S₀ = (.ok (), S₁) := by
    subst hS₀ hS₁
    exact Step.run_of_isOk (by decide +kernel)
  have hsorts₀ : S₀.sorts.declared = [] := hS₀ ▸ by decide +kernel
  have hsorts₁ : S₁.sorts.declared = [] := by subst hS₀ hS₁; decide +kernel
  obtain ⟨D₀, hTidy₀⟩ : ∃ D, Tidy D S₀ :=
    hS₀ ▸ (Tidy.fresh (.start (.ofSolver "z3"))).after _ (by decide +kernel)
  obtain ⟨D₁, hTidy₁⟩ := hTidy₀.define hrun (by subst hS₀ hS₁; decide +kernel)
  obtain ⟨d, sort, hd, happlies⟩ := defined_applies hTidy₀ (List.cons_ne_nil _ _) hrun
  let z := fresh S₁.terms "z_" .int
  let names : Names := S₁.environment.extend (bindSymbols [("z", z)])
  have hdeclare : (declareVariables S₁.sorts [.list [.atom "z", .atom "Int"]]).run S₁.terms =
      (.ok [("z", z)], opened S₁.terms "z_" .int) := by
    rw [declareVariables, declareVariables, (parse_atom hsorts₁).2.1]
    rfl
  have hscope : S₁.Scope names (opened S₁.terms "z_" .int) := Scope.top.quantified hdeclare
  have hfind : names.find? "f" = some (.definition d) := by
    rw [Environment.find?_extend]
    exact hd.bound
  have hargs (T : TermState) :
      (translateAll S₁.sorts names [.atom "z"]).run T = (.ok [.symbol z], T) := by
    rw [translateAll, translateAll, translate.eq_def]
    rfl
  obtain ⟨x, hx, hreal⟩ := hd.parameter (parse_atom hsorts₀).2.2
  have haccepts : List.Forall₂ Symbol.Accepts d.parameters [.symbol z] :=
    hx ▸ .cons (.inr ⟨hreal, rfl⟩) .nil
  obtain ⟨values, u, hvalues, htranslate, hsort, heval⟩ :=
    happlies hTidy₁ hscope hfind (by decide) (hargs _) haccepts
  obtain ⟨value, rfl⟩ : ∃ value, values = [value] :=
    List.length_eq_one_iff.mp (by simpa [hx] using length_liftAllTo hvalues (by simp [hx]))
  have hbool := Except.ok.inj (hd.sort_read.symm.trans (parse_atom hsorts₀).1)
  exact ⟨S₀, S₁, d, names, _, z, value, u, hS₀, hrun, ⟨D₁, hTidy₁⟩, hscope, hfind, hargs _, rfl,
    hvalues, htranslate, hsort.trans hbool, heval⟩

/-- A definition that is named as a form cannot be applied, though its argument is accepted. -/
theorem not_defined_applies_let :
    ∃ (S₀ S₁ : Session Scripted ScriptedModel) (d : Definition),
      after [.list [.atom "set-logic", .atom "ALL"]] (start (.ofSolver "z3")) = S₀ ∧
      (defineFun "let" [.list [.atom "x", .atom "Int"]] (.atom "Int") (.atom "x")).run S₀ =
        (.ok (), S₁) ∧
      (∃ D, Tidy D S₁) ∧ S₁.environment.find? "let" = some (.definition d) ∧
      (translateAll S₁.sorts S₁.environment [.atom "3"]).run S₁.terms =
        (.ok [.int 3], S₁.terms) ∧
      List.Forall₂ Symbol.Accepts d.parameters [.int 3] ∧
      (translate S₁.sorts S₁.environment (.list [.atom "let", .atom "3"])).run S₁.terms =
        (.error (.malformedLet (.list [.atom "let", .atom "3"])), S₁.terms) := by
  obtain ⟨S₀, hS₀⟩ : ∃ S₀ : Session Scripted ScriptedModel,
    after [.list [.atom "set-logic", .atom "ALL"]] (start (.ofSolver "z3")) = S₀ := ⟨_, rfl⟩
  obtain ⟨S₁, hS₁⟩ : ∃ S₁, ((defineFun "let" [.list [.atom "x", .atom "Int"]] (.atom "Int")
    (.atom "x")).run S₀).2 = S₁ := ⟨_, rfl⟩
  have hrun : (defineFun "let" [.list [.atom "x", .atom "Int"]] (.atom "Int") (.atom "x")).run S₀ =
      (.ok (), S₁) := by
    subst hS₀ hS₁
    exact Step.run_of_isOk (by decide +kernel)
  obtain ⟨D₀, hTidy₀⟩ : ∃ D, Tidy D S₀ :=
    hS₀ ▸ (Tidy.fresh (.start (.ofSolver "z3"))).after _ (by decide +kernel)
  obtain ⟨D₁, hTidy₁⟩ := hTidy₀.define hrun (by subst hS₀ hS₁; decide +kernel)
  obtain ⟨d, _, hd⟩ := (defineFun_introduces hTidy₀.confined hTidy₀.reachable.sound hTidy₀.clean
    (List.cons_ne_nil _ _) _ _ _ _ hrun).2 () rfl
  have hsorts₀ : S₀.sorts.declared = [] := hS₀ ▸ by decide +kernel
  obtain ⟨x, hx, hint⟩ := hd.parameter (parse_atom hsorts₀).2.1
  have hunbound : (S₁.environment.find? "3").isNone = true := by subst hS₀ hS₁; decide +kernel
  refine ⟨S₀, S₁, d, hS₀, hrun, ⟨D₁, hTidy₁⟩, hd.bound, ?_, hx ▸ .cons (.inl hint.symm) .nil, ?_⟩
  · rw [translateAll, translateAll, translate.eq_def]
    dsimp only
    rw [translateAtom, Option.isNone_iff_eq_none.mp hunbound]
    rfl
  · rw [translate.eq_def]
    rfl

end Session

end SmtScript
