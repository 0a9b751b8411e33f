import SmtScript.Proofs.Environment
import SmtScript.Proofs.Standard.Operators
import SmtScript.Proofs.Translate.Application

/-!
Translation agrees with the standard.

Whatever has a meaning by `Standard.Means` is translated into a term of the same sort, and the term
has the standard value wherever no divisor is zero. The induction is on the derivation of the
meaning; what it carries through `let` is that names stand for well-sorted terms and that they hide
neither operators nor literals.
-/

namespace SmtScript

namespace Names

/-- The values of what the names of an environment stand for. -/
def values (names : Names) (I : Interpretation) : Standard.Assignment := fun name =>
  match names.find? name with
  | some (.term t) => t.eval I
  | _ => default

theorem values_eq {names : Names} {I : Interpretation} {name : String} {t : Term}
    (h : names.find? name = some (.term t)) : names.values I name = t.eval I := by
  unfold values
  rw [h]

/-- The sorts of what the names of an environment stand for. -/
def sorts (names : Names) : Standard.Context := fun name =>
  match names.find? name with
  | some (.term t) => some t.sort
  | _ => none

end Names

namespace Standard

open Term

/-- Whether an environment gives each name in scope a term of its sort, under plain names. -/
structure Matches (names : Names) (Γ : Context) : Prop where
  bound : ∀ name sort, Γ name = some sort →
    ∃ t, names.find? name = some (.term t) ∧ t.Typed sort
  plain : ∀ name binding, names.find? name = some binding → Plain name

/-! ### Operators and literals -/

/-- The operators of the standard are operators of scripts under the same names. -/
theorem ofName?_operator {name : String} {op : Op} (h : Op.ofName? name = some op) :
    Operator.ofName? name = some op.operator := by
  have hall : ∀ p ∈ Op.names, Operator.ofName? p.1 = some p.2.operator := by decide
  exact hall (name, op) (Environment.mem_of_lookup h)

theorem typed_literal {text : List Char} {literal : Literal} (h : Literal.Denotes text literal) :
    literal.term.Typed (literalValue literal).sort ∧
      ∀ I, literal.term.eval I = literalValue literal := by
  cases h <;>
    exact ⟨.node rfl (by simp [Literal.term, operands]), fun I => by
      simp [Literal.term, literalValue, eval]⟩

/-! ### Applications -/

/-- Whether a term is what an S-expression means in an environment. -/
structure Renders (names : Names) (p : Part) (t : Term) : Prop where
  typed : t.Typed p.sort
  value : ∀ I : Interpretation, I.WellSorted → p.meaning.defined (names.values I) →
    t.eval I = p.meaning.value (names.values I)

/-- Whether an S-expression is translated into what it means, and nothing else happens. -/
def Translates (names : Names) (p : Part) : Prop :=
  ∀ (sorts : SortTable) (st : TermState), ∃ t,
    (translate sorts names p.sexpr).run st = (.ok t, st) ∧ Renders names p t

theorem translateAll_ok {names : Names} {parts : List Part}
    (h : ∀ p ∈ parts, Translates names p) (sorts : SortTable) (st : TermState) :
    ∃ ts, (translateAll sorts names (parts.map Part.sexpr)).run st = (.ok ts, st) ∧
      List.Forall₂ (Renders names) parts ts := by
  induction parts with
  | nil => exact ⟨[], rfl, .nil⟩
  | cons p rest ih =>
    obtain ⟨ts, hts, hrest⟩ := ih fun q hq => h q (by simp [hq])
    obtain ⟨t, ht, hfirst⟩ := h p (by simp) sorts st
    refine ⟨t :: ts, ?_, .cons hfirst hrest⟩
    rw [List.map_cons, translateAll, Step.run_bind_ok ht, Step.run_bind_ok hts, Step.run_pure]

theorem operands_of_renders {names : Names} {parts : List Part} {ts : List Term}
    (h : List.Forall₂ (Renders names) parts ts) : Operands ts (parts.map Part.sort) := by
  induction h with
  | nil => exact ⟨by simp, rfl⟩
  | cons hfirst _ ih =>
    refine ⟨?_, by rw [List.map_cons, List.map_cons, hfirst.typed.sort_eq, ih.sorts_eq]⟩
    simpa using ⟨hfirst.typed.wellSorted, ih.wellSorted⟩

theorem valuesOf_of_renders {names : Names} {parts : List Part} {ts : List Term}
    {I : Interpretation} (h : List.Forall₂ (Renders names) parts ts) (hI : I.WellSorted)
    (hdefined : ∀ m ∈ parts.map Part.meaning, m.defined (names.values I)) :
    valuesOf I ts = (parts.map Part.meaning).map fun m => m.value (names.values I) := by
  induction h with
  | nil => rfl
  | cons hfirst _ ih =>
    simp only [List.map_cons, List.forall_mem_cons] at hdefined ⊢
    rw [← ih hdefined.2, ← hfirst.value I hI hdefined.1]
    rfl

/-- Once the operands of an application are translated, the operator is applied to them. -/
theorem translate_apply {names : Names} {head : String} {op : Op} (sorts : SortTable)
    (hop : Op.ofName? head = some op) (hfree : names.find? head = none) (args : List SExpr)
    {ts : List Term} {st : TermState}
    (hargs : (translateAll sorts names args).run st = (.ok ts, st)) {t : Term}
    (happly : op.operator.apply ts = .ok t) :
    (translate sorts names (.list (.atom head :: args))).run st = (.ok t, st) := by
  rw [run_translate_operator (ofName?_operator hop) hfree hargs, applyOperator, happly]
  rfl

/-! ### Bindings -/

/-- Whether a translated binding is what a binding means. -/
def RendersBound (names : Names) (b : Bound) (p : String × Binding) : Prop :=
  ∃ t, p = (b.name, .term t) ∧ Renders names b.toPart t

theorem translateBindings_ok {names : Names} {bound : List Bound}
    (h : ∀ b ∈ bound, Translates names b.toPart) (sorts : SortTable) (st : TermState) :
    ∃ ps, (translateBindings sorts names (bound.map Bound.binding)).run st = (.ok ps, st) ∧
      List.Forall₂ (RendersBound names) bound ps := by
  induction bound with
  | nil => exact ⟨[], rfl, .nil⟩
  | cons b rest ih =>
    obtain ⟨ps, hps, hrest⟩ := ih fun c hc => h c (by simp [hc])
    obtain ⟨t, ht, hfirst⟩ := h b (by simp) sorts st
    refine ⟨(b.name, .term t) :: ps, ?_, .cons ⟨t, rfl, hfirst⟩ hrest⟩
    rw [List.map_cons, Bound.binding, translateBindings, Step.run_bind_ok ht,
      Step.run_bind_ok hps, Step.run_pure]

/-- A name is found among bindings and among their translations alike. -/
theorem find?_renders {names : Names} {bound : List Bound} {ps : List (String × Binding)}
    (h : List.Forall₂ (RendersBound names) bound ps) (name : String) :
    (bound.find? (·.name == name) = none ∧ ps.lookup name = none) ∨
      ∃ b t, b ∈ bound ∧ b.name = name ∧ bound.find? (·.name == name) = some b ∧
        ps.lookup name = some (.term t) ∧ Renders names b.toPart t := by
  induction h with
  | nil => exact .inl ⟨rfl, rfl⟩
  | @cons b p bs ps hfirst _ ih =>
    obtain ⟨t, rfl, ht⟩ := hfirst
    by_cases heq : b.name = name
    · refine .inr ⟨b, t, by simp, heq, by simp [heq], by simp [heq], ht⟩
    · have hne : (name == b.name) = false := by simpa using Ne.symm heq
      rcases ih with ⟨hfind, hlookup⟩ | ⟨c, u, hc, hname, hfind, hlookup, hu⟩
      · exact .inl ⟨by simp [heq, hfind], by simp [List.lookup_cons, hne, hlookup]⟩
      · exact .inr ⟨c, u, by simp [hc], hname, by simp [heq, hfind],
          by simp [List.lookup_cons, hne, hlookup], hu⟩

/-- What a name stands for inside of bindings. -/
theorem find?_extend_renders {names : Names} {bound : List Bound} {ps : List (String × Binding)}
    (h : List.Forall₂ (RendersBound names) bound ps) (name : String) :
    (lookupBound bound name = none ∧ (names.extend ps).find? name = names.find? name) ∨
      ∃ b t, b ∈ bound ∧ b.name = name ∧ lookupBound bound name = some b ∧
        (names.extend ps).find? name = some (.term t) ∧ Renders names b.toPart t := by
  rw [Environment.find?_extend]
  rcases find?_renders (List.rel_reverse h) name with ⟨hfind, hnone⟩ | ⟨b, t, hb, hrest⟩
  · exact .inl ⟨hfind, by rw [hnone, Option.none_or]⟩
  · obtain ⟨hname, hfind, hsome, ht⟩ := hrest
    exact .inr ⟨b, t, List.mem_reverse.mp hb, hname, hfind, by rw [hsome, Option.some_or], ht⟩

theorem matches_extend {names : Names} {Γ : Context} {bound : List Bound}
    {ps : List (String × Binding)} (hmatches : Matches names Γ)
    (h : List.Forall₂ (RendersBound names) bound ps) (hplain : ∀ b ∈ bound, Plain b.name) :
    Matches (names.extend ps) (Γ.bind bound) := by
  constructor
  · intro name sort hsort
    rw [Context.bind] at hsort
    rcases find?_extend_renders h name with ⟨hnone, hfind⟩ | ⟨b, t, -, -, hsome, hfind, ht⟩
    · rw [hnone] at hsort
      rw [hfind]
      exact hmatches.bound name sort hsort
    · rw [hsome] at hsort
      obtain rfl := Option.some.inj hsort
      exact ⟨t, hfind, ht.typed⟩
  · intro name binding hbinding
    rcases find?_extend_renders h name with ⟨hnone, hfind⟩ | ⟨b, t, hb, rfl, -, -, -⟩
    · exact hmatches.plain name binding (hfind ▸ hbinding)
    · exact hplain b hb

/-- All bindings take their values outside of the `let`. -/
theorem values_extend {names : Names} {bound : List Bound} {ps : List (String × Binding)}
    {I : Interpretation} (h : List.Forall₂ (RendersBound names) bound ps) (hI : I.WellSorted)
    (hdefined : ∀ b ∈ bound, b.meaning.defined (names.values I)) :
    Names.values (names.extend ps) I = Assignment.bind (names.values I) bound := by
  funext name
  rcases find?_extend_renders h name with ⟨hnone, hfind⟩ | ⟨b, t, hb, -, hsome, hfind, ht⟩
  · unfold Assignment.bind Names.values
    rw [hnone, hfind]
  · rw [Assignment.bind, hsome, Names.values_eq hfind]
    exact ht.value I hI (hdefined b hb)

theorem translate_let {names : Names} {bindings : List SExpr} (hne : bindings ≠ [])
    (sorts : SortTable) (body : SExpr) {ps : List (String × Binding)} {st : TermState}
    (hbound : (translateBindings sorts names bindings).run st = (.ok ps, st)) :
    (translate sorts names (.list [.atom "let", .list bindings, body])).run st =
      (translate sorts (names.extend ps) body).run st := by
  obtain ⟨binding, rest, rfl⟩ := List.exists_cons_of_ne_nil hne
  rw [translate, if_pos rfl]
  exact Step.run_bind_ok hbound

/-! ### The main results -/

/-- Translation renders what an S-expression means, in any environment that matches the context. -/
theorem translates_of_means {z : ZeroDivision} {Γ : Context} {s : SExpr} {sort : SmtSort}
    {meaning : Meaning} (h : Means z Γ s sort meaning) {names : Names}
    (hmatches : Matches names Γ) : Translates names ⟨s, sort, meaning⟩ := by
  induction h generalizing names with
  | @literal Γ text literal hliteral =>
    intro sorts st
    obtain ⟨htyped, hval⟩ := typed_literal hliteral
    have hfree : names.find? text = none := by
      cases hfind : names.find? text with
      | none => rfl
      | some binding => exact absurd hliteral ((hmatches.plain text binding hfind).2 literal)
    refine ⟨literal.term, ?_, htyped, fun I _ _ => hval I⟩
    rw [translate, translateAtom, hfree, Literal.read_of_denotes hliteral]
    rfl
  | @name Γ name sort hname =>
    intro sorts st
    obtain ⟨t, hfind, ht⟩ := hmatches.bound name sort hname
    refine ⟨t, ?_, ht, fun I _ _ => ?_⟩
    · rw [translate, translateAtom, hfind]
      rfl
    · exact (Names.values_eq hfind).symm
  | @apply Γ head op sort parts hop _ hsorts ih =>
    intro sorts st
    have hfree : names.find? head = none := by
      cases hfind : names.find? head with
      | none => rfl
      | some binding =>
        have := (hmatches.plain head binding hfind).1
        rw [hop] at this
        cases this
    obtain ⟨ts, hts, hrenders⟩ := translateAll_ok (fun p hp => ih p hp hmatches) sorts st
    obtain ⟨t, happly, htyped, hval⟩ := builds_apply (operands_of_renders hrenders) hsorts
    refine ⟨t, translate_apply sorts hop hfree _ hts happly, htyped, fun I hI hdefined => ?_⟩
    refine (hval I hI).trans ?_
    show op.value .plain (valuesOf I ts) = _
    rw [valuesOf_of_renders hrenders hI hdefined.1]
    exact (value_eq_plain z hdefined.2).symm
  | @bind Γ body sort meaning bound hne hplain _ _ ihbound ihbody =>
    intro sorts st
    obtain ⟨ps, hps, hrenders⟩ :=
      translateBindings_ok (fun b hb => ihbound b hb hmatches) sorts st
    obtain ⟨t, ht, htyped, hval⟩ :=
      ihbody (matches_extend hmatches hrenders hplain) sorts st
    refine ⟨t, ?_, htyped, fun I hI hdefined => ?_⟩
    · rw [translate_let (by simpa using hne) sorts body hps]
      exact ht
    · have hvalues := values_extend hrenders hI hdefined.1
      rw [hval I hI (hvalues ▸ hdefined.2), hvalues]
      rfl

/-- An S-expression over Boolean and numeric constants that has a standard meaning is translated
into a term of its sort, which has the standard value under every assignment that makes no divisor
zero. -/
theorem translate_of_means (z : ZeroDivision) {names : Names}
    (hnames : ∀ name binding, names.find? name = some binding → Plain name ∧
      ∃ c : Symbol, binding = .term (.symbol c) ∧
        (c.sort = .bool ∨ c.sort = .int ∨ c.sort = .real))
    {s : SExpr} {sort : SmtSort} {meaning : Meaning} (h : Means z names.sorts s sort meaning)
    (sorts : SortTable) (st : TermState) :
    ∃ t, (translate sorts names s).run st = (.ok t, st) ∧ t.sort = sort ∧
      ∀ I : Interpretation, I.WellSorted → meaning.defined (names.values I) →
        t.eval I = meaning.value (names.values I) := by
  have hmatches : Matches names names.sorts := by
    constructor
    · intro name sort hsort
      unfold Names.sorts at hsort
      split at hsort
      · rename_i t hfind
        obtain rfl := Option.some.inj hsort
        obtain ⟨-, c, hc, -⟩ := hnames name _ hfind
        cases hc
        exact ⟨.symbol c, hfind, .node rfl nofun⟩
      · cases hsort
    · exact fun name binding hfind => (hnames name binding hfind).1
  obtain ⟨t, ht, htyped, hval⟩ := translates_of_means h hmatches sorts st
  exact ⟨t, ht, htyped.sort_eq, hval⟩

/-- The environment of a single Real constant. -/
def constantX : Names := ⟨.empty, [("x", .term (.symbol ⟨"x", .real⟩))]⟩

theorem find?_constantX {name : String} {binding : Binding}
    (h : constantX.find? name = some binding) :
    name = "x" ∧ binding = .term (.symbol ⟨"x", .real⟩) := by
  unfold Environment.find? constantX at h
  rw [Table.lookup_cons_eq] at h
  by_cases hname : name = "x"
  · rw [if_pos hname] at h
    exact ⟨hname, (Option.some.inj h).symm⟩
  · rw [if_neg hname] at h
    cases h

theorem plain_x : Plain "x" := by
  refine ⟨by decide, fun literal h => ?_⟩
  have hread : Literal.read "x" = .error (.unrecognizedAtom "x") := rfl
  cases hread.symm.trans (Literal.read_of_denotes h)

/-- Half of a constant, and an Int literal beside a Real operand. -/
theorem translate_half :
    ∃ t, (translate .empty constantX (.list [.atom "/", .atom "x", .atom "2"])).run .empty =
        (.ok t, .empty) ∧ t.sort = .real ∧
      ∀ I : Interpretation, I.WellSorted →
        t.eval I = .real (number (I.symbol ⟨"x", .real⟩) / 2) := by
  have hx : Means .plain constantX.sorts (.atom "x") .real (.settled fun ρ => ρ "x") :=
    .name rfl
  have htwo : Means .plain constantX.sorts (.atom "2") .int (.settled fun _ => .int 2) :=
    have hdenotes : Literal.Denotes "2".toList (.int 2) :=
      have hdigits : Literal.AllDigits ['2'] := by simp [Literal.AllDigits]
      .int .none (by simp) hdigits
    .literal hdenotes
  let parts : List Part := [⟨.atom "x", .real, .settled fun ρ => ρ "x"⟩,
    ⟨.atom "2", .int, .settled fun _ => .int 2⟩]
  have hsorts : Op.realDiv.Takes (parts.map Part.sort) .real :=
    have hnumeric : Numeric [.real, .int] .real := .real (by simp [IsNumeric]) (by simp)
    .realDiv (by simp [parts]) hnumeric
  have hquotient : Means .plain constantX.sorts (.list [.atom "/", .atom "x", .atom "2"]) .real
      (Op.realDiv.meaning .plain (parts.map Part.meaning)) :=
    .apply rfl (by simpa [parts] using ⟨hx, htwo⟩) hsorts
  have hnames : ∀ name binding, constantX.find? name = some binding → Plain name ∧
      ∃ c : Symbol, binding = .term (.symbol c) ∧
        (c.sort = .bool ∨ c.sort = .int ∨ c.sort = .real) := by
    intro name binding h
    obtain ⟨rfl, rfl⟩ := find?_constantX h
    exact ⟨plain_x, _, rfl, .inr (.inr rfl)⟩
  obtain ⟨t, ht, hsort, hval⟩ := translate_of_means .plain hnames hquotient .empty .empty
  refine ⟨t, ht, hsort, fun I hI => ?_⟩
  rw [hval I hI (by simp [parts, Op.meaning, Meaning.settled, Op.divisors, number])]
  simp [parts, Op.meaning, Meaning.settled, Op.value, divReal_plain, fromLeft, number]
  rfl

end Standard

end SmtScript
