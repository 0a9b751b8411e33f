import Mathlib
import SmtScript.Proofs.Session.Enclosed
import SmtScript.Proofs.Session.Written
import SmtScript.Proofs.Translate.Printed

/-!
Printed terms are read back in a session.

In a session in which each name has been declared once and taken for nothing else, what is printed
for a term is read again as a term of the same sort and the same values, `Session.rereads_after`:
for terms that have been read, for assertions, and for the lines in which all assertions are
printed. Left out are terms with quantifiers or integer parts, which have no text of their own, and
those that divide integers, as an integer quotient is printed like a real one.
-/

namespace SmtScript

open Solver Step Translation TermState

namespace Session

variable {σ μ : Type} {S S' : Session σ μ} {D : List Symbol} {command : SExpr}

/-! ### Names that are declared once -/

/-- Whether the names that stand for something new are ordinary ones, stood for nothing before and
are not the names of symbols. -/
def BindsAnew (S S' : Session σ μ) : Prop :=
  ∀ name binding, S'.names.get? name = some binding →
    S.names.get? name = some binding ∨
      IsOrdinary name ∧ S.names.get? name = none ∧ S.terms.table.hasName name = false

theorem bindsAnew_same (h : S'.names = S.names) : BindsAnew S S' :=
  fun _ _ hfind => .inl (h ▸ hfind)

theorem bindsAnew_insert {name : String} {binding : Binding}
    (h : S'.names = S.names.insert name binding) (hname : IsOrdinary name)
    (hfree : S.names.get? name = none) (htable : S.terms.table.hasName name = false) :
    BindsAnew S S' := by
  intro other binding' hfind
  rw [h, Table.get?_insert] at hfind
  split at hfind
  · rename_i hother
    exact .inr (hother ▸ ⟨hname, hfree, htable⟩)
  · exact .inl hfind

/-- Whether names are ordinary, and declared symbols are what their names stand for. -/
structure Named (D : List Symbol) (S : Session σ μ) : Prop where
  ordinary : ∀ name binding, S.names.get? name = some binding → IsOrdinary name
  symbols : ∀ s ∈ D,
    S.names.get? s.name = some (.term (.symbol s)) ∧ S.sorts.Writes s.sort.target

theorem named_start (configuration : Configuration) :
    Named [] (start configuration : Session σ μ) where
  ordinary := by simp [start, Table.empty, Table.get?]
  symbols := nofun

theorem Named.later (h : Named D S) (hnew : BindsAnew S S')
    (hbound : ∀ name, S.names.contains name = true → S'.names.contains name = true)
    (hsorts : S.sorts.declared ⊆ S'.sorts.declared) : Named D S' := by
  refine ⟨fun name binding hfind => ?_, fun s hs => ?_⟩
  · rcases hnew name binding hfind with hold | ⟨hordinary, _, _⟩
    · exact h.ordinary name binding hold
    · exact hordinary
  · obtain ⟨hfind, hwrites⟩ := h.symbols s hs
    refine ⟨?_, hwrites.mono hsorts⟩
    obtain ⟨binding, hfind'⟩ := Option.isSome_iff_exists.mp
      (hbound s.name (by simp [Table.contains, hfind]))
    rcases hnew s.name binding hfind' with hold | ⟨_, hnone, _⟩
    · obtain rfl := Option.some.inj (hold.symm.trans hfind)
      exact hfind'
    · cases hnone.symm.trans hfind

/-- A name that is not taken is the name of the symbol that is made for it. -/
theorem newSymbol_name {name : String} (hname : S.terms.table.hasName name = false)
    (sort : SmtSort) :
    Leads (fun _ _ => True) (newSymbol name sort) S fun _ s => s = ⟨name, sort⟩ := by
  refine .get ?_
  simp only [hname, Bool.false_eq_true, if_false]
  split
  · exact .of_run (run_throw _ S) trivial nofun
  · exact .of_run rfl trivial fun s hs => (Except.ok.inj hs).symm

theorem declareFun_symbol {name : String} (hname : S.terms.table.hasName name = false)
    (domains : List SExpr) (codomain : SExpr) :
    Leads (fun _ _ => True) (declareFun name domains codomain) S fun S' _ => ∀ s,
      S'.names.get? name = some (.term (.symbol s)) →
        s.name = name ∧ S.sorts.Writes s.sort.target := by
  refine .bind_same trivial (requireOpen_leads closed_eq S) fun _ _ => ?_
  refine .get ?_
  refine .bind_same trivial (ofExcept_leads _ S) fun sorts _ => ?_
  refine .bind_same trivial (ofExcept_leads _ S) fun sort hsort => ?_
  refine (newSymbol_name hname _).bind_into (fun _ => id) fun s S₁ _ hs => ?_
  refine .bind_of_run (P := fun _ => True) (run_modify _ _) ?_
  refine .of_run (run_pure _ _) trivial fun _ _ s' hfind => ?_
  obtain rfl : s = s' := by simpa using hfind
  subst hs
  refine ⟨rfl, ?_⟩
  rw [SmtSort.target_function _ _ (S.sorts.isFunction_parse hsort)]
  exact SortTable.writes_of_parse hsort

variable [Solver σ μ] [GrowingSolver σ μ]

/-- A command that does not reset a session takes no name and no sort away. -/
theorem execute_outlasts (hS : S.Sound) {result : Except Error (Option String)}
    (hrun : (execute command).run S = (result, S'))
    (hreset : ∀ output, result = .ok output → ¬ command.Requests .reset) :
    (∀ name, S.names.contains name = true → S'.names.contains name = true) ∧
      S.sorts.declared ⊆ S'.sorts.declared := by
  rcases run_execute_cases command S with ⟨e, he⟩ | ⟨request, hrequest, hperform⟩
  · obtain ⟨_, rfl⟩ := Prod.mk.inj (he.symm.trans hrun)
    exact ⟨fun _ => id, List.Subset.refl _⟩
  rw [hperform] at hrun
  have hturns := (perform_turns hS request _ _ hrun).1
  have hretains {rebound : String → Prop} (h : Retains rebound S S') :
      (∀ name, S.names.contains name = true → S'.names.contains name = true) ∧
        S.sorts.declared ⊆ S'.sorts.declared := ⟨h.bound, h.sorts.subset⟩
  cases hadds : request.adds with
  | false =>
    have hsheds := perform_sheds hS hadds
    rw [hrun] at hsheds
    refine ⟨fun name hname => ?_, hsheds.sorts⟩
    rwa [Table.contains, hsheds.names name]
  | true =>
    cases request with
    | declareFun name domains codomain => exact hretains (Quiet.retains hturns)
    | defineFun name parameters codomain body => exact hretains (Quiet.retains hturns)
    | assertTerm sexpr =>
      have hflat : Retains (fun _ => False) S S' := Flat.retains hturns
      exact hretains hflat
    | reset =>
      rcases run_perform_reset S with ⟨e, he⟩ | ⟨_, _, hok⟩
      · obtain ⟨_, rfl⟩ := Prod.mk.inj (he.symm.trans hrun)
        exact ⟨fun _ => id, List.Subset.refl _⟩
      · obtain ⟨rfl, _⟩ := Prod.mk.inj (hok.symm.trans hrun)
        exact absurd hrequest (hreset _ rfl)
    | _ => cases hadds

/-- A command that binds its names anew keeps a session named. -/
theorem Named.execute {result : Except Error (Option String)} (htidy : Tidy D S) (h : Named D S)
    (hrun : (Session.execute command).run S = (result, S')) (hclean : S'.terms.leftover = none)
    (hnew : BindsAnew S S') : ∃ D', Tidy D' S' ∧ Named D' S' := by
  have hsound := htidy.reachable.sound
  rcases redeclares_cases hrun with
    ⟨output, rfl, hrequest⟩ | ⟨output, name, domains, codomain, s, rfl, hrequest, hs⟩ | hother
  · have hfresh : S'.Fresh := .reset htidy.reachable hrequest hrun
    obtain ⟨initial, _, _, rfl⟩ := hfresh.eq_start
    have hnamed := named_start (σ := σ) (μ := μ) initial
    exact ⟨[], .fresh hfresh, hnamed.ordinary, hnamed.symbols⟩
  · obtain ⟨hbound, hsorts⟩ := execute_outlasts hsound hrun fun _ _ hreset => by
      cases hrequest.unique hreset
    refine ⟨s :: D, htidy.declare hrequest hrun hs, (h.later hnew hbound hsorts).ordinary, ?_⟩
    refine List.forall_mem_cons.mpr ⟨?_, (h.later hnew hbound hsorts).symbols⟩
    obtain ⟨table, hunknown, _, rfl⟩ := declared_of_run hrequest hrun hs
    rcases hnew name _ hs with hold | ⟨_, _, hname⟩
    · have hknown : (Term.symbol s).Sound S.terms.Knows := hsound.names name _ hold
      exact absurd (hknown.free s (by simp [Term.freeSymbols])) hunknown
    · have hsymbol := (leads_result (P := fun S' => ∀ s,
        S'.names.get? name = some (.term (.symbol s)) →
          s.name = name ∧ S.sorts.Writes s.sort.target)
        (declareFun_symbol hname domains codomain) _ _ (run_execute_ok hrequest hrun)).2 _ rfl s hs
      exact ⟨hsymbol.1 ▸ hs, hsymbol.2⟩
  · obtain ⟨hbound, hsorts⟩ := execute_outlasts hsound hrun fun output houtput hreset => by
      cases hother output .reset houtput hreset
    exact ⟨D, htidy.keep hrun hclean hother, h.later hnew hbound hsorts⟩

theorem Named.after (htidy : Tidy D S) (h : Named D S) (commands : List SExpr)
    (hclean : ∀ k ≤ commands.length, (Session.after (commands.take k) S).terms.leftover = none)
    (hnew : ∀ k < commands.length,
      BindsAnew (Session.after (commands.take k) S) (Session.after (commands.take (k + 1)) S)) :
    ∃ D', Tidy D' (Session.after commands S) ∧ Named D' (Session.after commands S) := by
  induction commands generalizing D S with
  | nil => exact ⟨D, htidy, h⟩
  | cons command rest ih =>
    obtain ⟨D₁, htidy₁, h₁⟩ : ∃ D₁, Tidy D₁ (Session.after [command] S) ∧
        Named D₁ (Session.after [command] S) :=
      h.execute htidy rfl (hclean 1 (by simp)) (hnew 0 (by simp))
    exact ih htidy₁ h₁ (fun k hk => hclean (k + 1) (by simpa using hk))
      fun k hk => hnew (k + 1) (by simpa using hk)

/-! ### What is read back -/

/-- Whether the text of a term tells what it means: the term has neither quantifiers nor integer
parts, divides no integers, and holds no constant arrays of functions. -/
structure Explicit (S : Session σ μ) (t : Term) : Prop where
  quantifierFree : t.QuantifierFree
  parts : ∀ p ∈ S.terms.integerParts, p.1 ∉ t.freeSymbols
  division : t.DividesReals
  arrays : t.ArraysOfValues

/-- Whether an S-expression is read as a term that restates another one, and nothing else
happens. -/
def Rereads (S : Session σ μ) (sexpr : SExpr) (t : Term) : Prop :=
  ∃ u, (parseTerm sexpr).run S = (.ok u, S) ∧ u.Restates t

/-- Whether the text of a term is read as a term that restates it. -/
def ReadsBack (S : Session σ μ) (t : Term) : Prop :=
  ∃ sexpr, SExpr.readOne t.text = .ok sexpr ∧ S.Rereads sexpr t

omit [GrowingSolver σ μ] in
/-- Assertions are printed one a line. -/
theorem run_getAssertions {output : String}
    (h : (perform .getAssertions).run S = (.ok (some output), S')) :
    S' = S ∧ output = String.intercalate "\n" (S.assertions.items.map Term.text) := by
  rcases (requireActive_leads closed_eq S).same with ⟨e, he⟩ | ⟨_, _, _, hactive⟩
  · cases (run_bind_error he).symm.trans h
  · obtain ⟨houtput, rfl⟩ := Prod.mk.inj ((run_perform_getAssertions hactive).symm.trans h)
    have hlines : termLines S.assertions.items = some output := Except.ok.inj houtput
    unfold termLines at hlines
    split at hlines
    · cases hlines
    · exact ⟨rfl, (Option.some.inj hlines).symm⟩

/-- What is known of the terms of a session that are made of declared symbols and integer parts. -/
structure Grounded (D : List Symbol) (S : Session σ μ) (t : Term) : Prop where
  wellSorted : t.WellSorted
  written : t.Written S.sorts.Writes
  confined : t.Confined (S.terms.Global D)

omit [Solver σ μ] [GrowingSolver σ μ] in
theorem Grounded.declared {t : Term} (h : Grounded D S t) (ht : S.Explicit t) :
    ∀ s ∈ t.freeSymbols, s ∈ D := by
  intro s hs
  refine (h.confined s hs).resolve_right fun hpart => ?_
  obtain ⟨p, hp, rfl⟩ := List.mem_map.mp hpart
  exact ht.parts p hp hs

omit [Solver σ μ] [GrowingSolver σ μ] in
theorem Grounded.printable {t : Term} (h : Grounded D S t) (hnamed : Named D S)
    (ht : S.Explicit t) : t.Printable S.sorts where
  wellSorted := h.wellSorted
  written := h.written
  arrays := ht.arrays
  quantifierFree := ht.quantifierFree
  symbols s hs := by
    obtain ⟨hfind, hwrites⟩ := hnamed.symbols s (h.declared ht s hs)
    exact ⟨(hnamed.ordinary s.name _ hfind).word, hwrites⟩

omit [Solver σ μ] [GrowingSolver σ μ] in
/-- What a term is printed as is read in the session as a term that restates it. -/
theorem Grounded.rereads {t : Term} (h : Grounded D S t) (hnamed : Named D S)
    (hsorts : ∀ name ∈ S.sorts.declared, IsPlainWord name) (ht : S.Explicit t) :
    S.Rereads t.sexpr t := by
  have hconveys : Conveys S.sorts S.environment t.sexpr t :=
    conveys_printable hnamed.ordinary hsorts (h.printable hnamed ht) ht.division
      fun s hs => (hnamed.symbols s (h.declared ht s hs)).1
  obtain ⟨u, hu, hrestates⟩ := hconveys S.terms
  refine ⟨u, ?_, hrestates⟩
  rw [parseTerm, run_bind_ok (run_get S), run_onTerms, hu]

omit [Solver σ μ] [GrowingSolver σ μ] in
theorem Grounded.readsBack {t : Term} (h : Grounded D S t) (hnamed : Named D S)
    (hsorts : ∀ name ∈ S.sorts.declared, IsPlainWord name) (ht : S.Explicit t) :
    S.ReadsBack t :=
  ⟨t.sexpr, (h.printable hnamed ht).readOne_text hsorts, h.rereads hnamed hsorts ht⟩

/-- As long as no command has left a substitution unfinished and each has bound its names anew,
the text of an explicit term is read as a term of the same sort and the same values. This is so of
terms that are read, of assertions, and of the lines in which all assertions are printed. -/
theorem rereads_after {S₀ : Session σ μ} (hfresh : S₀.Fresh) (commands : List SExpr)
    (hclean : ∀ k ≤ commands.length, (after (commands.take k) S₀).terms.leftover = none)
    (hnew : ∀ k < commands.length,
      BindsAnew (after (commands.take k) S₀) (after (commands.take (k + 1)) S₀))
    (hsorts : ∀ name ∈ (after commands S₀).sorts.declared, IsPlainWord name) :
    let S := after commands S₀
    (∀ sexpr t S', (parseTerm sexpr).run S = (.ok t, S') → S'.Explicit t → S'.ReadsBack t) ∧
    (∀ t ∈ S.assertions.items, S.Explicit t → S.ReadsBack t) ∧
    ∀ output S', (perform .getAssertions).run S = (.ok (some output), S') →
      (∀ t ∈ S.assertions.items, S.Explicit t) →
      ∃ sexprs, Reading.ofText output = ⟨sexprs, none⟩ ∧
        List.Forall₂ S'.Rereads sexprs S.assertions.items := by
  intro S
  have hstart : Named [] S₀ := by
    obtain ⟨initial, _, _, rfl⟩ := hfresh.eq_start
    have h := named_start (σ := σ) (μ := μ) initial
    exact ⟨h.ordinary, h.symbols⟩
  obtain ⟨D, htidy, hnamed⟩ := hstart.after (.fresh hfresh) commands hclean hnew
  have hsound : S.Sound := htidy.reachable.sound
  have henclosed : Enclosed D S := htidy.enclosed
  have hasserted (t : Term) (ht : t ∈ S.assertions.items) : Grounded D S t :=
    ⟨(hsound.assertions t ht).wellSorted, htidy.written.assertions t ht,
      henclosed.assertions t ht⟩
  refine ⟨fun sexpr t S' hrun ht => ?_, fun t ht hexplicit => ?_,
    fun output S' hrun hexplicit => ?_⟩
  · obtain ⟨hreads, hresult⟩ := parseTerm_reads hsound sexpr _ _ hrun
    have hnamed' : Named D S' := by
      rw [hreads.rest]
      exact ⟨hnamed.ordinary, hnamed.symbols⟩
    have hsorts' : S'.sorts = S.sorts := by rw [hreads.rest]
    have hwritten := ((parseTerm_written htidy.written htidy.clean sexpr _ _ hrun).2 t rfl).2
    have hgrounded : Grounded D S' t :=
      ⟨(hresult t rfl).wellSorted, hsorts' ▸ hwritten, (henclosed.parsed hrun).1⟩
    exact hgrounded.readsBack hnamed' (hsorts' ▸ hsorts) ht
  · exact (hasserted t ht).readsBack hnamed hsorts hexplicit
  · have hprinted (t : Term) (ht : t ∈ S.assertions.items) : t.Printable S.sorts :=
      (hasserted t ht).printable hnamed (hexplicit t ht)
    obtain ⟨rfl, houtput⟩ := run_getAssertions hrun
    refine ⟨S.assertions.items.map Term.sexpr, ?_, ?_⟩
    · rw [houtput, Term.readingOfText_lines hprinted hsorts]
    · rw [List.forall₂_map_left_iff, List.forall₂_same]
      exact fun t ht => (hasserted t ht).rereads hnamed hsorts (hexplicit t ht)

/-- So it is after a declaration and an assertion about a negative number. -/
theorem rereads_after_negative :
    ∃ (commands : List SExpr) (S : Session Scripted ScriptedModel) (t u : Term),
      commands = [.list [.atom "set-logic", .atom "ALL"],
        .list [.atom "declare-const", .atom "x", .atom "Real"],
        .list [.atom "assert",
          .list [.atom "<", .atom "x", .list [.atom "-", .atom "2.5"]]]] ∧
      after commands (start (.ofSolver "z3")) = S ∧
      (∃ S', (parseTerm (.atom "x")).run S = (.ok t, S') ∧ S'.Explicit t ∧ S'.ReadsBack t) ∧
      S.assertions.items = [u] ∧ S.Explicit u ∧ S.ReadsBack u ∧
      ∃ S' sexprs, (perform .getAssertions).run S =
          (.ok (some "(< x (- (/ 5 2)))"), S') ∧
        Reading.ofText "(< x (- (/ 5 2)))" = ⟨sexprs, none⟩ ∧
        List.Forall₂ S'.Rereads sexprs [u] := by
  let commands : List SExpr := [.list [.atom "set-logic", .atom "ALL"],
    .list [.atom "declare-const", .atom "x", .atom "Real"],
    .list [.atom "assert", .list [.atom "<", .atom "x", .list [.atom "-", .atom "2.5"]]]]
  let S₀ : Session Scripted ScriptedModel := start (.ofSolver "z3")
  obtain ⟨t, ht⟩ : ∃ t : Term, t = .symbol ⟨"x", .real⟩ := ⟨_, rfl⟩
  obtain ⟨u, hu⟩ : ∃ u : Term, u = .order .lt t (.real (-5 / 2)) := ⟨_, rfl⟩
  have hfresh : S₀.Fresh := .start (.ofSolver "z3")
  have hclean : ∀ k ≤ commands.length, (after (commands.take k) S₀).terms.leftover = none := by
    decide +kernel
  have hnew : ∀ k < commands.length,
      BindsAnew (after (commands.take k) S₀) (after (commands.take (k + 1)) S₀) := by
    have hx : IsOrdinary "x" := ⟨⟨by decide, by decide⟩, by decide, by decide, by decide⟩
    intro k hk
    have hk : k < 3 := hk
    interval_cases k
    · exact bindsAnew_same (by cbv)
    · exact bindsAnew_insert (show _ = Table.insert _ _ (.term (.symbol ⟨"x", .real⟩)) by cbv) hx
        (by cbv) (by cbv)
    · exact bindsAnew_same (by cbv)
  have hsorts : (after commands S₀).sorts.declared = [] := by cbv
  obtain ⟨hterms, hassertions, hlines⟩ :=
    rereads_after hfresh commands hclean hnew (by simp [hsorts])
  have hread : ((parseTerm (.atom "x")).run (after commands S₀)).1 = .ok t := by
    subst ht
    cbv
  have hitems : (after commands S₀).assertions.items = [u] := by
    subst hu ht
    cbv
  have hprinted : ((perform .getAssertions).run (after commands S₀)).1 =
      .ok (some "(< x (- (/ 5 2)))") := by cbv
  have hparts : (after commands S₀).terms.integerParts = [] := by cbv
  have hparts' : ((parseTerm (.atom "x")).run (after commands S₀)).2.terms.integerParts = [] := by
    cbv
  obtain ⟨S, hS⟩ : ∃ S, after commands S₀ = S := ⟨_, rfl⟩
  rw [hS] at hterms hassertions hlines hread hparts' hitems hparts hprinted
  have hexplicit {S' : Session Scripted ScriptedModel} {v : Term}
      (hparts : S'.terms.integerParts = []) (hv : v ∈ [t, u]) : S'.Explicit v := by
    let occurring : List Term := [t, u, .real (-5 / 2)]
    have hclosed : ∀ v ∈ occurring, ∀ a ∈ v.operands, a ∈ occurring := by
      simp [occurring, hu, ht, Term.operands]
    have hv : v ∈ occurring := List.mem_append_left _ hv
    refine ⟨fun q bound body h => ?_, by simp [hparts], fun a b h => ?_, fun index w h => ?_⟩ <;>
    · have hmem := h.mem_of_closed hv hclosed
      simp [occurring, hu, ht] at hmem
  have ht' := hexplicit hparts' List.mem_cons_self
  have hu' := hexplicit hparts (List.mem_cons_of_mem t List.mem_cons_self)
  refine ⟨commands, S, t, u, rfl, hS, ⟨_, Prod.ext hread rfl, ht', ?_⟩, hitems, hu', ?_, ?_⟩
  · exact hterms _ t _ (Prod.ext hread rfl) ht'
  · exact hassertions u (by simp [hitems]) hu'
  · obtain ⟨sexprs, hreading, hrereads⟩ := hlines _ _ (Prod.ext hprinted rfl) (by simpa [hitems])
    exact ⟨_, sexprs, Prod.ext hprinted rfl, hreading, hitems ▸ hrereads⟩

end Session

end SmtScript
