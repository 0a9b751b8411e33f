import Mathlib
import SmtScript.Proofs.Session.Sorts

/-!
Signatures of names, and what applying the names yields.

A command that binds a name declares sorts for its arguments and for what it yields. A declared
function is applied only to arguments of the declared sorts and yields a term of the declared sort.
Of the arguments of a definition nothing is asked but that there is one for each parameter; if they
have the declared sorts, then so has the result, `Session.applications_fit_signatures`.
-/

namespace SmtScript

open Solver Step Translation TermState

/-- Whether a term has a sort, perhaps once it is lifted to Real. -/
def SmtSort.Takes (sort : SmtSort) (t : Term) : Prop :=
  t.sort = sort ∨ sort = .real ∧ t.sort = .int

namespace Binding

/-- The sorts of the arguments of what a name stands for. -/
def domains : Binding → List SmtSort
  | .term t => t.sort.domains
  | .definition d => d.parameters.map Symbol.sort

/-- The sort of what it yields. -/
def target : Binding → SmtSort
  | .term t => t.sort.target
  | .definition d => d.body.sort

/-- What is certain of the arguments and the result of an application, given the declared sorts. A
definition is taken with arguments of any sorts. -/
def Respects (sorts : List SmtSort) (sort : SmtSort) (ts : List Term) (T : TermState) (u : Term) :
    Binding → Prop
  | .term _ => List.Forall₂ SmtSort.Takes sorts ts ∧ u.sort = sort
  | .definition _ => T.leftover = none → List.Forall₂ SmtSort.Takes sorts ts → u.sort = sort

end Binding

/-! ### Arguments -/

section

variable {head : String} {sexpr : SExpr} {T T' : TermState} {ts values : List Term} {t u : Term}
  {d : Definition}

theorem takes_of_liftTo {sort : SmtSort} (h : liftTo sort t = .ok u) (hu : u.sort = sort) :
    sort.Takes t := by
  unfold liftTo at h
  split at h
  · rename_i hreal
    unfold Term.liftToReal at h
    split at h
    · exact .inr ⟨hreal, by simpa [Term.isInt] using ‹t.isInt = true›⟩
    · exact .inl (Except.ok.inj h ▸ hu)
  · exact .inl (Except.ok.inj h ▸ hu)

/-- Arguments whose lifted forms have the expected sorts. -/
theorem takes_of_liftAllTo {sorts : List SmtSort} (hlength : ts.length = sorts.length)
    (h : liftAllTo sorts ts = .ok values) (hvalues : values.map Term.sort = sorts) :
    List.Forall₂ SmtSort.Takes sorts ts := by
  unfold liftAllTo at h
  induction sorts generalizing ts values with
  | nil =>
    obtain rfl := List.length_eq_zero_iff.mp hlength
    exact .nil
  | cons sort rest ih =>
    obtain ⟨t, ts, rfl⟩ := List.exists_cons_of_length_eq_add_one hlength
    rw [List.zip_cons_cons, List.mapM_cons] at h
    obtain ⟨u, hu, h⟩ := Term.bind_ok h
    obtain ⟨us, hus, h⟩ := Term.bind_ok h
    obtain rfl := Except.ok.inj h
    obtain ⟨hfirst, hrest⟩ := List.cons.inj hvalues
    exact .cons (takes_of_liftTo hu hfirst) (ih (Nat.succ.inj hlength) hus hrest)

/-! ### Applying what a name stands for -/

/-- A function that is applied has got arguments of the sorts of its domains. -/
theorem applyBinding_term_fits (hrun : (applyBinding head sexpr (.term t) ts).run T = (.ok u, T')) :
    List.Forall₂ SmtSort.Takes t.sort.domains ts ∧ u.sort = t.sort.target := by
  simp only [applyBinding] at hrun
  split at hrun
  · rename_i hfunction
    split at hrun
    · cases hrun
    rename_i hlength
    split at hrun
    · rename_i f values hvalues
      have hnode := Term.mapError_ok (Prod.mk.inj hrun).1
      have hcount := not_not.mp hlength
      have hvalueCount := length_liftAllTo hvalues hcount
      unfold Term.mkApply at hnode
      split at hnode
      · rename_i hempty
        obtain rfl := List.isEmpty_iff.mp hempty
        exact absurd (List.length_eq_zero_iff.mp hvalueCount.symm)
          (SmtSort.domains_of_isFunction hfunction)
      · obtain ⟨hfits, rfl⟩ := Term.checked_ok hnode
        have hsorts : f.sort.domains = values.map Term.sort := by simpa [Term.fits] using hfits
        refine ⟨takes_of_liftAllTo hcount hvalues hsorts.symm, ?_⟩
        rw [Term.sort.eq_def]
        dsimp only
        rw [hvalueCount]
        exact SmtSort.afterArguments_domains f.sort
    · cases hrun
  · rename_i hfunction
    split at hrun
    · rename_i hempty
      obtain rfl := List.isEmpty_iff.mp hempty
      obtain rfl := Except.ok.inj (Prod.mk.inj hrun).1
      have hplain := SmtSort.target_of_isFunction (Bool.eq_false_iff.mpr hfunction)
      have hnone : t.sort.domains = [] := by
        cases hsort : t.sort <;> simp_all [SmtSort.isFunction, SmtSort.domains]
      exact ⟨hnone ▸ .nil, hplain.symm⟩
    · cases hrun

theorem applyBinding_definition_length
    (hrun : (applyBinding head sexpr (.definition d) ts).run T = (.ok u, T')) :
    ts.length = d.parameters.length := by
  simp only [applyBinding] at hrun
  split at hrun
  · cases hrun
  · exact not_not.mp ‹_›

/-- A definition that is applied to arguments of the sorts of its parameters, when no substitution
has been left unfinished, yields a term of the sort of its body. -/
theorem applyBinding_definition_sort (hbody : d.body.WellSorted) (hts : ∀ t ∈ ts, t.WellSorted)
    (hclean : T.leftover = none) (haccepts : List.Forall₂ Symbol.Accepts d.parameters ts)
    (hrun : (applyBinding head sexpr (.definition d) ts).run T = (.ok u, T')) :
    u.sort = d.body.sort := by
  obtain ⟨values, hvalues, htyped⟩ := liftAllTo_typed haccepts hts
  obtain ⟨v, hv, hsort⟩ := Term.substitute_typed hbody fun p hp => List.forall₂_zip htyped hp
  have hlength := haccepts.length_eq.symm
  simp only [applyBinding, hlength, ne_eq, not_true_eq_false, if_false, hvalues] at hrun
  rw [run_bind_ok (run_get T), hclean, Term.instantiate] at hrun
  split at hrun
  · cases hrun
  · rw [Term.substituteOver_none hv] at hrun
    have hnode : (Except.ok v : Except Error Term) = .ok u := (Prod.mk.inj hrun).1
    obtain rfl := Except.ok.inj hnode
    exact hsort.sort_eq

end

namespace Session

variable {σ μ : Type} {S : Session σ μ} {names : Names} {T T' : TermState} {f : String}
  {binding : Binding}

/-- The sorts that a command declares for the arguments of a name and for what it yields. -/
inductive Signs (table : SortTable) (name : String) :
    Command → List SmtSort → SmtSort → Prop where
  | declareFun {domains : List SExpr} {codomain : SExpr} {sorts : List SmtSort} {sort : SmtSort}
      (hdomains : domains.mapM table.parse = .ok sorts)
      (hcodomain : table.parse codomain = .ok sort) :
      Signs table name (.declareFun name domains codomain) sorts sort
  | defineFun {parameters : List SExpr} {codomain body : SExpr}
      {declared : List (String × Symbol)} {sort : SmtSort}
      (hparameters : ReadsParameters table parameters declared)
      (hcodomain : table.parse codomain = .ok sort) :
      Signs table name (.defineFun name parameters codomain body) (declared.map (·.2.sort)) sort

/-- What a name is bound to has the sorts that are declared. -/
theorem Declares.signs {command : Command} (h : Declares S f command binding) :
    Signs S.sorts f command binding.domains binding.target := by
  cases h with
  | symbol hdomains hcodomain hs =>
    have hplain := S.sorts.isFunction_parse hcodomain
    rw [Binding.domains, Binding.target, Term.sort, hs, SmtSort.domains_function _ _ hplain,
      SmtSort.target_function _ _ hplain]
    exact .declareFun hdomains hcodomain
  | constant hcodomain ht =>
    have hsort := (Term.hasSort_iff_typed.mp ht).sort_eq
    have hplain := S.sorts.isFunction_parse hcodomain
    have hsigns := SmtSort.domains_function [] _ hplain
    rw [Binding.domains, Binding.target, hsort, SmtSort.target_of_isFunction hplain]
    have hnone : ReadsParameters S.sorts [] [] := .nil
    exact hsigns ▸ .defineFun hnone hcodomain
  | definition _ hparameters hcodomain ht =>
    have hsort := (Term.hasSort_iff_typed.mp ht).sort_eq
    rw [Binding.domains, Binding.target, List.map_map, hsort]
    exact .defineFun hparameters hcodomain

/-- Every scope of a sound session is sound. -/
theorem Sound.inScope (hS : S.Sound) (h : S.Scope names T) :
    T.Sound ∧ Names.Sound names T.Knows := by
  have hcarries := kept_sound.carries_all S.sorts fun _ _ _ _ => trivial
  induction h with
  | top => exact ⟨hS.terms, hS.names⟩
  | later _ hrun ih =>
    exact kept_sound.inv_mono (c := []) ih (hcarries.1 _ _ [] _ ih trivial _ _ hrun).1 trivial
  | bindings _ hrun ih =>
    obtain ⟨hevolves, hres⟩ := hcarries.2.2 _ _ [] _ ih trivial _ _ hrun
    exact kept_sound.extend (c := []) (kept_sound.inv_mono (c := []) ih hevolves trivial)
      (hres _ rfl).2
  | quantified _ hrun ih =>
    obtain ⟨_, hopened⟩ :=
      (kept_sound.opens_variables (c := []) S.sorts _ ih trivial _ _ hrun).2 _ rfl
    exact kept_sound.extend (c := []) hopened.inv hopened.bindings
  | defined hrun =>
    obtain ⟨_, hopened, _⟩ := (declareParameters_opens (c := []) kept_sound _ _
      (show S.terms.Sound ∧ Names.Sound S.environment S.terms.Knows from ⟨hS.terms, hS.names⟩)
      trivial _ _ hrun).2 _ rfl
    exact kept_sound.extend (c := []) hopened.inv hopened.bindings

variable [Solver σ μ]

/-- Whether a command of a run has declared sorts for a name, which has stood for the same since
then. -/
def SignedIn (commands : List SExpr) (S : Session σ μ) (name : String) (sorts : List SmtSort)
    (sort : SmtSort) : Prop :=
  ∃ before sexpr later command, commands = before ++ sexpr :: later ∧ sexpr.Requests command ∧
    Signs (after before S).sorts name command sorts sort ∧
    ∀ k ≤ later.length, (after (before ++ sexpr :: later.take k) S).names.get? name =
      (after commands S).names.get? name

theorem BoundIn.signed {commands : List SExpr} (h : BoundIn commands S f binding)
    (hfind : (after commands S).names.get? f = some binding) :
    SignedIn commands S f binding.domains binding.target := by
  obtain ⟨before, sexpr, later, command, heq, hrequests, hdeclares, hsince⟩ := h
  exact ⟨before, sexpr, later, command, heq, hrequests, hdeclares.signs, fun k hk => by
    rw [hsince k hk, hfind]⟩

/-- In every scope of every session that a run leads to, an application of a name that the run has
declared is accepted only if there are as many arguments as are declared. If the name stands for a
function or a constant, then the arguments have the declared sorts, once Int is lifted to Real, and
the result has the declared sort. If it stands for a definition, then the sorts of the arguments
are not looked at: the result has the declared sort if they have, and if no earlier substitution
has been left unfinished. -/
theorem applications_fit_signatures [GrowingSolver σ μ] {configuration : Configuration}
    {commands : List SExpr} {args : List SExpr} {u : Term}
    (hS : after commands (start configuration) = S) (hscope : S.Scope names T)
    (hbound : S.names.get? f = some binding) (hfind : names.find? f = some binding)
    (hword : f ∉ SExpr.formWords)
    (hrun : (translate S.sorts names (.list (.atom f :: args))).run T = (.ok u, T')) :
    ∃ sorts sort ts T₁, SignedIn commands (start configuration : Session σ μ) f sorts sort ∧
      (translateAll S.sorts names args).run T = (.ok ts, T₁) ∧ ts.length = sorts.length ∧
      binding.Respects sorts sort ts T₁ u := by
  have hsound : S.Sound := Reachable.sound ⟨configuration, commands, hS⟩
  obtain ⟨hT, hnames⟩ := hsound.inScope hscope
  obtain ⟨ts, T₁, hargs, happly⟩ := run_translate_application_ok hword hfind hrun
  have hts := ((kept_sound.carries_all S.sorts fun _ _ _ _ => trivial).2.1 names args [] T
    ⟨hT, hnames⟩ trivial _ _ hargs).2 ts rfl
  have hsigned : SignedIn commands (start configuration : Session σ μ) f binding.domains
      binding.target := by
    subst hS
    exact (boundIn_after (sound_start configuration) (by simp [start, Table.empty, Table.get?])
      hbound).signed hbound
  refine ⟨_, _, ts, T₁, hsigned, hargs, ?_⟩
  cases binding with
  | term t =>
    have hfits := applyBinding_term_fits happly
    exact ⟨hfits.1.length_eq.symm, hfits⟩
  | definition d =>
    refine ⟨by simpa [Binding.domains] using applyBinding_definition_length happly,
      fun hclean htakes => ?_⟩
    have haccepts : List.Forall₂ Symbol.Accepts d.parameters ts :=
      List.forall₂_map_left_iff (f := Symbol.sort).mp htakes
    have hbody : d.body.WellSorted := (hnames f _ hfind).wellSorted
    exact applyBinding_definition_sort hbody (fun t ht => (hts.2 t ht).wellSorted) hclean haccepts
      happly

/-- So it is with a function that takes a Real number and is applied to an integer. -/
theorem applications_fit_signatures_lifted :
    ∃ (commands : List SExpr) (S : Session Scripted ScriptedModel) (binding : Binding) (u : Term)
      (T' : TermState),
      commands = [.list [.atom "set-logic", .atom "ALL"],
        .list [.atom "declare-fun", .atom "g", .list [.atom "Real"], .atom "Bool"]] ∧
      after commands (start (.ofSolver "z3")) = S ∧ S.names.get? "g" = some binding ∧
      (translate S.sorts S.environment (.list [.atom "g", .atom "1"])).run S.terms = (.ok u, T') ∧
      ∃ sorts sort ts T₁,
        SignedIn commands (start (.ofSolver "z3") : Session Scripted ScriptedModel) "g" sorts sort ∧
        (translateAll S.sorts S.environment [.atom "1"]).run S.terms = (.ok ts, T₁) ∧
        ts.length = sorts.length ∧ binding.Respects sorts sort ts T₁ u := by
  obtain ⟨S, hS⟩ : ∃ S : Session Scripted ScriptedModel, after
    [.list [.atom "set-logic", .atom "ALL"],
      .list [.atom "declare-fun", .atom "g", .list [.atom "Real"], .atom "Bool"]]
    (start (.ofSolver "z3")) = S := ⟨_, rfl⟩
  obtain ⟨⟨result, T'⟩, hrun⟩ : ∃ q : Except Error Term × TermState,
    (translate S.sorts S.environment (.list [.atom "g", .atom "1"])).run S.terms = q := ⟨_, rfl⟩
  have hbound : (S.names.get? "g").isSome = true := by subst hS; decide +kernel
  have haccepted : result.toBool = true := by
    have h : result = _ := (congrArg Prod.fst hrun).symm
    subst h hS
    decide +kernel
  obtain ⟨binding, hbinding⟩ := Option.isSome_iff_exists.mp hbound
  cases result with
  | error e => cases haccepted
  | ok u =>
    exact ⟨_, S, binding, u, T', rfl, hS, hbinding, hrun,
      applications_fit_signatures hS .top hbinding hbinding (by decide) hrun⟩

end Session

end SmtScript
