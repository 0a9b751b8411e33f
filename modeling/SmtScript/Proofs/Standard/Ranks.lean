import SmtScript.Proofs.Session.Sound
import SmtScript.Proofs.Session.Signatures
import SmtScript.Proofs.Standard.BitTranslation
import SmtScript.Proofs.Term.Accepted

/-!
The ranks of the operators.

`Standard.Family.Rank` gives the signatures that SMT-LIB has for families of operators.
`Standard.Family.Admits` adds what is taken beyond them: the absolute value of a Real, a Real that
is to go over to Real, and a single operand where the standard wants two. An application of an
operator that is accepted has operands and a sort of such a rank, `Standard.translate_suits`, where
Int operands are lifted only beside a Real or to an operator that takes nothing but Reals. Not asked
for is the sort of a single operand of a conjunction, disjunction, sum or product.
-/

namespace SmtScript

namespace Standard

open Term Step

/-- Operators that have their signatures in common. -/
inductive Family where
  | negation | connective | junction | equality | choice
  | sum | difference | realDivision | quotient | remainder | absolute | comparison
  | toReal | toInt | isInt
  | select | store
  | concat | bitUnary | bitChain | bitBinary | bitComparison | bitOrder
  deriving DecidableEq, Repr

namespace Family

/-- The families of the operators, by name. -/
def names : List (String × Family) :=
  [("not", .negation), ("=>", .connective), ("xor", .connective), ("and", .junction),
   ("or", .junction), ("=", .equality), ("distinct", .equality), ("ite", .choice),
   ("+", .sum), ("*", .sum), ("-", .difference), ("/", .realDivision), ("div", .quotient),
   ("mod", .remainder), ("abs", .absolute), ("<=", .comparison), ("<", .comparison),
   (">=", .comparison), (">", .comparison),
   ("to_real", .toReal), ("to_int", .toInt), ("is_int", .isInt),
   ("select", .select), ("store", .store),
   ("concat", .concat), ("bvnot", .bitUnary), ("bvneg", .bitUnary),
   ("bvand", .bitChain), ("bvor", .bitChain), ("bvxor", .bitChain), ("bvadd", .bitChain),
   ("bvmul", .bitChain), ("bvnand", .bitBinary), ("bvnor", .bitBinary), ("bvxnor", .bitBinary),
   ("bvsub", .bitBinary), ("bvudiv", .bitBinary), ("bvurem", .bitBinary), ("bvsdiv", .bitBinary),
   ("bvsrem", .bitBinary), ("bvsmod", .bitBinary), ("bvshl", .bitBinary), ("bvlshr", .bitBinary),
   ("bvashr", .bitBinary), ("bvcomp", .bitComparison),
   ("bvult", .bitOrder), ("bvule", .bitOrder), ("bvugt", .bitOrder), ("bvuge", .bitOrder),
   ("bvslt", .bitOrder), ("bvsle", .bitOrder), ("bvsgt", .bitOrder), ("bvsge", .bitOrder)]

def ofName? (name : String) : Option Family := names.lookup name

/-- The sorts of operands and the sort of the application that goes with them. -/
inductive Rank : Family → List SmtSort → SmtSort → Prop where
  | negation : Rank .negation [.bool] .bool
  | connective {count} (hcount : 2 ≤ count) : Rank .connective (.replicate count .bool) .bool
  | junction {count} (hcount : 2 ≤ count) : Rank .junction (.replicate count .bool) .bool
  | equality {count sort} (hcount : 2 ≤ count) : Rank .equality (.replicate count sort) .bool
  | choice {sort} : Rank .choice [.bool, sort, sort] sort
  | sum {count sort} (hcount : 2 ≤ count) (hsort : IsNumeric sort) :
      Rank .sum (.replicate count sort) sort
  | difference {count sort} (hcount : 1 ≤ count) (hsort : IsNumeric sort) :
      Rank .difference (.replicate count sort) sort
  | realDivision {count} (hcount : 2 ≤ count) :
      Rank .realDivision (.replicate count .real) .real
  /-- The standard knows only the quotient of Ints; here there is one of Reals, too. -/
  | quotient {count sort} (hcount : 2 ≤ count) (hsort : IsNumeric sort) :
      Rank .quotient (.replicate count sort) sort
  | remainder : Rank .remainder [.int, .int] .int
  | absolute : Rank .absolute [.int] .int
  | comparison {count sort} (hcount : 2 ≤ count) (hsort : IsNumeric sort) :
      Rank .comparison (.replicate count sort) .bool
  | toReal : Rank .toReal [.int] .real
  | toInt : Rank .toInt [.real] .int
  | isInt : Rank .isInt [.real] .bool
  | select {index element} : Rank .select [.array index element, index] element
  | store {index element} :
      Rank .store [.array index element, index, element] (.array index element)
  | concat {widths : List Nat} (hcount : 2 ≤ widths.length) :
      Rank .concat (widths.map .bitVec) (.bitVec widths.sum)
  | bitUnary {width} : Rank .bitUnary [.bitVec width] (.bitVec width)
  | bitChain {count width} (hcount : 2 ≤ count) :
      Rank .bitChain (.replicate count (.bitVec width)) (.bitVec width)
  | bitBinary {width} : Rank .bitBinary [.bitVec width, .bitVec width] (.bitVec width)
  | bitComparison {width} : Rank .bitComparison [.bitVec width, .bitVec width] (.bitVec 1)
  | bitOrder {width} : Rank .bitOrder [.bitVec width, .bitVec width] .bool

/-- The ranks of the standard, and those that are taken beyond it. -/
inductive Admits : Family → List SmtSort → SmtSort → Prop where
  | rank {family sorts sort} (h : Rank family sorts sort) : Admits family sorts sort
  | absolute : Admits .absolute [.real] .real
  | toReal : Admits .toReal [.real] .real
  | junction : Admits .junction [.bool] .bool
  | sum {sort} (hsort : IsNumeric sort) : Admits .sum [sort] sort

/-- The operators that only take Reals, so that Ints are always lifted to them. -/
def onlyReal : List Family := [.realDivision, .toInt, .isInt]

/-- Whether an operator takes terms and gives a sort, perhaps once Ints among the terms are lifted;
they are lifted beside a Real or where only Reals are taken. -/
def Suits (family : Family) (ts : List Term) (sort : SmtSort) : Prop :=
  ∃ sorts, family.Admits sorts sort ∧ List.Forall₂ SmtSort.Takes sorts ts ∧
    (sorts = ts.map Term.sort ∨ .real ∈ ts.map Term.sort ∨ family ∈ onlyReal)

/-- Whether a single operand whose sort is not asked for is of a sort that the operator takes. -/
def TakesAlone (family : Family) (ts : List Term) : Prop :=
  ∀ t, ts = [t] → (family = .junction → t.sort = .bool) ∧ (family = .sum → IsNumeric t.sort)

/-! ### Operands that suit -/

variable {family : Family} {ts : List Term} {sort out : SmtSort}

theorem takes_self (ts : List Term) : List.Forall₂ SmtSort.Takes (ts.map Term.sort) ts := by
  induction ts with
  | nil => exact .nil
  | cons t rest ih => exact .cons (.inl rfl) ih

/-- Operands that need no lifting. -/
theorem Admits.suits {sorts : List SmtSort} (h : family.Admits sorts sort)
    (hts : ts.map Term.sort = sorts) : family.Suits ts sort :=
  ⟨sorts, h, hts ▸ takes_self ts, .inl hts.symm⟩

theorem Rank.suits {sorts : List SmtSort} (h : family.Rank sorts sort)
    (hts : ts.map Term.sort = sorts) : family.Suits ts sort :=
  (Admits.rank h).suits hts

theorem takes_replicate (h : ∀ t ∈ ts, sort.Takes t) :
    List.Forall₂ SmtSort.Takes (.replicate ts.length sort) ts := by
  induction ts with
  | nil => exact .nil
  | cons t rest ih =>
    obtain ⟨ht, hrest⟩ := List.forall_mem_cons.mp h
    exact .cons ht (ih hrest)

theorem takes_real_of_isNumeric {t : Term} (h : IsNumeric t.sort) : SmtSort.real.Takes t := by
  rcases h with h | h
  · exact .inr ⟨rfl, h⟩
  · exact .inl h

/-- Operands that unify are lifted to the sort at which they do. -/
theorem Admits.suits_of_unify (h : family.Admits (.replicate ts.length sort) out)
    (hts : Unify ts sort) : family.Suits ts out := by
  cases hts with
  | same hts =>
    refine h.suits (List.eq_replicate_iff.mpr ⟨by simp, ?_⟩)
    simpa using hts
  | mixed hts hreal =>
    refine ⟨_, h, takes_replicate fun t ht => takes_real_of_isNumeric (hts t ht), .inr (.inl ?_)⟩
    obtain ⟨t, ht, hsort⟩ := hreal
    exact List.mem_map.mpr ⟨t, ht, hsort⟩

theorem Rank.suits_of_unify (h : family.Rank (.replicate ts.length sort) out)
    (hts : Unify ts sort) : family.Suits ts out :=
  (Admits.rank h).suits_of_unify hts

end Family

/-! ### Operators -/

end Standard

/-- The family that an operator belongs to. -/
def Operator.family : Operator → Standard.Family
  | .not => .negation
  | .implies | .xor => .connective
  | .and | .or => .junction
  | .equal | .distinct => .equality
  | .ite => .choice
  | .add | .mul => .sum
  | .sub => .difference
  | .realDiv => .realDivision
  | .intDiv => .quotient
  | .mod => .remainder
  | .abs => .absolute
  | .compare _ => .comparison
  | .toReal => .toReal
  | .select => .select
  | .store => .store
  | .concat => .concat
  | .bitUnary _ => .bitUnary
  | .bitChain _ => .bitChain
  | .bitBinary _ | .bitNegated _ | .smod => .bitBinary
  | .bitEqual => .bitComparison
  | .bitOrder _ | .bitOrderSwapped _ => .bitOrder

namespace Standard

open Term Step

/-- Every operator that is looked up by its name is of a family. -/
theorem Family.ofName?_eq {name : String} {op : Operator} (h : Operator.ofName? name = some op) :
    Family.ofName? name = some op.family := by
  have hall : ∀ p ∈ Operator.names, Family.ofName? p.1 = some p.2.family := by decide
  exact hall (name, op) (Environment.mem_of_lookup h)

section

variable {ts : List Term} {a b u : Term} {rest : List Term}

theorem unifies_mkSame : Unifies (lifted mkSame) (fun _ => True) fun _ => .bool :=
  unifies_lifted fun h => ⟨_, trivial, (sorts_mkSame h).1, rfl, (sorts_mkSame h).2⟩

theorem unifies_mkArith (op : ArithOp) : Unifies (mkArith op) IsNumeric id := by
  intro a b u h
  obtain ⟨hu, ha, hb⟩ := sorts_mkArith h
  exact ⟨u.sort, hu, unify_pair ha hb, rfl⟩

theorem unifies_lifted_mkArith (op : ArithOp) : Unifies (lifted (mkArith op)) IsNumeric id :=
  unifies_lifted fun h => by
    obtain ⟨hu, ha, hb⟩ := sorts_mkArith h
    exact ⟨_, hu, ha, hb, rfl⟩

theorem unifies_mkComparison (comparison : Comparison) :
    Unifies (lifted (mkComparison comparison)) IsNumeric fun _ => .bool :=
  unifies_lifted fun h => by
    obtain ⟨ha, hb, hu⟩ := sorts_mkComparison h
    exact ⟨_, ha, rfl, hb, hu⟩

theorem unifies_mkXor : Unifies mkXor (· = .bool) id := by
  intro a b u h
  obtain ⟨ha, hb, hu⟩ := sorts_mkXor h
  exact ⟨.bool, rfl, unify_pair ha hb, hu⟩

theorem unifies_mkBitOp (op : BitOp) : Unifies (mkBitOp op) (∃ width, · = .bitVec width) id := by
  intro a b u h
  obtain ⟨width, ha, hb, hu⟩ := sorts_mkBitOp h
  exact ⟨.bitVec width, ⟨width, rfl⟩, unify_pair ha hb, hu⟩

theorem sorts_mkRealDiv (h : mkRealDiv a b = .ok u) :
    IsNumeric a.sort ∧ IsNumeric b.sort ∧ u.sort = .real := by
  obtain ⟨left, hleft, h⟩ := bind_ok h
  obtain ⟨right, hright, h⟩ := bind_ok h
  obtain ⟨hu, hl, hr⟩ := sorts_mkArith h
  rw [sort_liftToReal hleft] at hl
  rw [sort_liftToReal hright] at hr
  have hreal : u.sort = .real := hu.resolve_left fun hint => SmtSort.raised_ne_int (hl.trans hint)
  exact ⟨SmtSort.isNumeric_of_raised (hl.trans hreal),
    SmtSort.isNumeric_of_raised (hr.trans hreal), hreal⟩

/-- A division of Reals takes numbers of either sort. -/
theorem sorts_realDivChain (h : leftChain mkRealDiv a ts = .ok u) (hts : ts ≠ []) :
    (∀ t ∈ a :: ts, IsNumeric t.sort) ∧ u.sort = .real := by
  induction ts generalizing a with
  | nil => exact absurd rfl hts
  | cons t rest ih =>
    obtain ⟨next, hnext, h⟩ := bind_ok h
    obtain ⟨ha, ht, hsort⟩ := sorts_mkRealDiv hnext
    cases rest with
    | nil =>
      obtain rfl := Except.ok.inj h
      exact ⟨by simpa using ⟨ha, ht⟩, hsort⟩
    | cons t' rest =>
      obtain ⟨hall, hu⟩ := ih h (by simp)
      have hrest := (List.forall_mem_cons.mp hall).2
      exact ⟨List.forall_mem_cons.mpr ⟨ha, List.forall_mem_cons.mpr ⟨ht, hrest⟩⟩, hu⟩

theorem map_sort_eq_replicate {sort : SmtSort} (h : ∀ t ∈ ts, t.sort = sort) :
    ts.map Term.sort = .replicate ts.length sort := by
  rw [List.eq_replicate_iff]
  simpa using h

/-! ### What suits each family -/

/-- A junction of one operand is that operand. -/
theorem suits_junction (halone : Family.TakesAlone .junction (a :: rest)) (hone : rest = [] → u = a)
    (hmany : 2 ≤ (a :: rest).length → (∀ t ∈ a :: rest, t.sort = .bool) ∧ u.sort = .bool) :
    Family.Suits .junction (a :: rest) u.sort := by
  cases rest with
  | nil =>
    obtain rfl := hone rfl
    have hu := (halone u rfl).1 rfl
    rw [hu]
    exact Family.Admits.junction.suits (by simp [hu])
  | cons b rest =>
    obtain ⟨hall, hu⟩ := hmany (by simp)
    rw [hu]
    exact (Family.Rank.junction (by simp)).suits (map_sort_eq_replicate hall)

theorem suits_sum {op : ArithOp} (halone : Family.TakesAlone .sum (a :: rest))
    (h : leftChain (lifted (mkArith op)) a rest = .ok u) :
    Family.Suits .sum (a :: rest) u.sort := by
  cases rest with
  | nil =>
    obtain rfl := Except.ok.inj h
    exact (Family.Admits.sum ((halone a rfl).2 rfl)).suits rfl
  | cons b rest =>
    obtain ⟨hu, hall⟩ := unify_leftChain (unifies_lifted_mkArith op) h (by simp)
    exact (Family.Rank.sum (by simp) hu).suits_of_unify hall

theorem suits_distinct {us : List Term} (hus : liftMixed ts = .ok us) (h : mkDistinct us = .ok u)
    (hts : 2 ≤ ts.length) : Family.Suits .equality ts u.sort := by
  obtain ⟨⟨sort, hall⟩, hu⟩ := sorts_mkDistinct h
  rw [hu]
  exact (Family.Rank.equality hts).suits_of_unify (unify_of_liftMixed hus hall)

/-- The condition is not lifted, as it is no number. -/
theorem sorts_choice {c c' a' b' : Term} (hus : liftMixed [c, a, b] = .ok [c', a', b'])
    (h : mkIte c' a' b' = .ok u) : c.sort = .bool ∧ Unify [a, b] u.sort := by
  obtain ⟨hc', ha', hb'⟩ := sorts_mkIte h
  rcases sorts_liftMixed hus with hsorts | ⟨hreal, hsorts⟩
  · obtain ⟨hc, ha, hb⟩ : c.sort = .bool ∧ a.sort = u.sort ∧ b.sort = u.sort := by
      simpa [hc', ha', hb', eq_comm] using hsorts
    exact ⟨hc, unify_pair ha hb⟩
  · obtain ⟨hc, ha, hb⟩ :
        c.sort.raised = .bool ∧ a.sort.raised = u.sort ∧ b.sort.raised = u.sort := by
      simpa [hc', ha', hb', eq_comm] using hsorts
    have hbool : c.sort = .bool := by
      by_cases hint : c.sort = .int
      · rw [hint] at hc
        cases hc
      · exact (SmtSort.raised_of_ne hint).symm.trans hc
    exact ⟨hbool, unify_of_raised (by simpa using ⟨ha, hb⟩) (by simpa [hbool] using hreal)⟩

theorem suits_choice {c : Term} {sort : SmtSort} (hc : c.sort = .bool) (h : Unify [a, b] sort) :
    Family.Suits .choice [c, a, b] sort := by
  cases h with
  | same h =>
    obtain ⟨ha, hb⟩ : a.sort = sort ∧ b.sort = sort := by simpa using h
    exact Family.Rank.choice.suits (by simp [hc, ha, hb])
  | mixed h hreal =>
    have htakes := Family.takes_replicate fun t ht => Family.takes_real_of_isNumeric (h t ht)
    refine ⟨_, .rank .choice, .cons (.inl hc) htakes, .inr (.inl ?_)⟩
    obtain ⟨r, hr, hreal⟩ := hreal
    exact List.mem_map.mpr ⟨r, List.mem_cons_of_mem c hr, hreal⟩

theorem suits_concat (h : leftChain mkConcat a (b :: rest) = .ok u) :
    Family.Suits .concat (a :: b :: rest) u.sort := by
  obtain ⟨width, ha⟩ : ∃ width, a.sort = .bitVec width := by
    obtain ⟨next, hnext, -⟩ := bind_ok h
    obtain ⟨width, -, ha, -⟩ := sorts_mkConcat hnext
    exact ⟨width, ha⟩
  obtain ⟨widths, hwidths, hu⟩ := sorts_concatChain h ha
  rw [hu, ← List.sum_cons]
  have hlength : rest.length + 1 = widths.length := by simpa using congrArg List.length hwidths
  exact (Family.Rank.concat (by simp [← hlength])).suits (by rw [List.map_cons, ha, hwidths]; rfl)

theorem suits_bitBinary
    (h : ∃ width, a.sort = .bitVec width ∧ b.sort = .bitVec width ∧ u.sort = .bitVec width) :
    Family.Suits .bitBinary [a, b] u.sort := by
  obtain ⟨width, ha, hb, hu⟩ := h
  rw [hu]
  exact Family.Rank.bitBinary.suits (by simp [ha, hb])

theorem suits_bitOrder (h : ∃ width, a.sort = .bitVec width ∧ b.sort = .bitVec width)
    (hu : u.sort = .bool) : Family.Suits .bitOrder [a, b] u.sort := by
  obtain ⟨width, ha, hb⟩ := h
  rw [hu]
  exact (Family.Rank.bitOrder : Family.Rank _ [.bitVec width, .bitVec width] _).suits
    (by simp [ha, hb])

/-- An operator that is applied has got operands that suit it, and gives the sort that goes with
them. -/
theorem suits_of_apply {op : Operator} (h : op.apply ts = .ok u) (hts : ∀ t ∈ ts, t.WellSorted)
    (halone : op.family.TakesAlone ts) : op.family.Suits ts u.sort := by
  have htwo {a b : Term} {rest : List Term} : 2 ≤ (a :: b :: rest).length := by simp
  unfold Operator.apply at h
  split at h
  case h_1 a =>
    obtain ⟨ha, hu⟩ := sort_mkNot (ok_of_lift h) (hts a (by simp))
    rw [hu]
    exact Family.Rank.negation.suits (by simp [ha])
  case h_2 a b rest =>
    obtain ⟨hall, hu⟩ := sorts_impliesChain (ok_of_lift h) (by simp)
    rw [hu]
    exact (Family.Rank.connective htwo).suits (map_sort_eq_replicate hall)
  case h_3 a rest =>
    exact suits_junction halone (fun hnil => by
      subst hnil
      exact (Except.ok.inj (ok_of_lift h)).symm) (sorts_mkAnd (ok_of_lift h))
  case h_4 a rest =>
    exact suits_junction halone (fun hnil => by
      subst hnil
      exact (Except.ok.inj (ok_of_lift h)).symm) (sorts_mkOr (ok_of_lift h))
  case h_5 a b rest =>
    obtain ⟨hu, hall⟩ := unify_leftChain unifies_mkXor (ok_of_lift h) (by simp)
    rw [hu] at hall ⊢
    exact (Family.Rank.connective htwo).suits_of_unify hall
  case h_6 a b rest =>
    obtain ⟨⟨sort, -, hall⟩, hu⟩ := unify_chained unifies_mkSame (ok_of_lift h)
    rw [hu]
    exact (Family.Rank.equality htwo).suits_of_unify hall
  case h_7 a b rest =>
    obtain ⟨us, hus, h⟩ := bind_ok h
    exact suits_distinct (ok_of_lift hus) (ok_of_lift h) htwo
  case h_8 c a b =>
    obtain ⟨us, hus, h⟩ := bind_ok h
    split at h
    · obtain ⟨hc, hpair⟩ := sorts_choice (ok_of_lift hus) (ok_of_lift h)
      exact suits_choice hc hpair
    · cases h
  case h_9 a rest => exact suits_sum halone (ok_of_lift h)
  case h_10 a =>
    obtain ⟨ha, hu⟩ := sorts_mkNegative h
    rw [hu]
    exact (Family.Rank.difference (Nat.le_refl 1) ha).suits rfl
  case h_11 a rest hne =>
    obtain ⟨hu, hall⟩ := unify_leftChain (unifies_lifted_mkArith .sub) (ok_of_lift h)
      hne
    exact (Family.Rank.difference (by simp) hu).suits_of_unify hall
  case h_12 a rest => exact suits_sum halone (ok_of_lift h)
  case h_13 a b rest =>
    obtain ⟨hall, hu⟩ := sorts_realDivChain (ok_of_lift h) (by simp)
    rw [hu]
    refine ⟨_, .rank (.realDivision htwo), Family.takes_replicate fun t ht => ?_, .inr (.inr ?_)⟩
    · exact Family.takes_real_of_isNumeric (hall t ht)
    · simp [Operator.family, Family.onlyReal]
  case h_14 a b rest =>
    split at h
    · obtain ⟨hu, hall⟩ := unify_leftChain (unifies_mkArith .div) (ok_of_lift h) (by simp)
      exact (Family.Rank.quotient htwo hu).suits_of_unify hall
    · obtain ⟨hu, hall⟩ := unify_leftChain (unifies_lifted_mkArith .div) (ok_of_lift h) (by simp)
      exact (Family.Rank.quotient htwo hu).suits_of_unify hall
    · cases h
  case h_15 a b =>
    obtain ⟨ha, hb, hu⟩ := sorts_mkMod h
    rw [hu]
    exact Family.Rank.remainder.suits (by simp [ha, hb])
  case h_16 a =>
    obtain ⟨ha, hu⟩ := sorts_mkAbs h
    rw [hu]
    rcases ha with ha | ha
    · exact ha ▸ Family.Rank.absolute.suits (by simp [ha])
    · exact ha ▸ Family.Admits.absolute.suits (by simp [ha])
  case h_17 comparison a b rest =>
    obtain ⟨⟨sort, hsort, hall⟩, hu⟩ :=
      unify_chained (unifies_mkComparison comparison) (ok_of_lift h)
    rw [hu]
    exact (Family.Rank.comparison htwo hsort).suits_of_unify hall
  case h_18 a =>
    obtain ⟨ha, hu⟩ := sorts_mkToReal (ok_of_lift h)
    rw [hu]
    rcases ha with ha | ha
    · exact Family.Rank.toReal.suits (by simp [ha])
    · exact Family.Admits.toReal.suits (by simp [ha])
  case h_19 a i =>
    have ha := sorts_mkSelect (ok_of_lift h)
    exact Family.Rank.select.suits (by rw [List.map_cons, ha]; rfl)
  case h_20 a i v =>
    obtain ⟨ha, hu⟩ := sorts_mkStore (ok_of_lift h)
    rw [hu, ha]
    exact Family.Rank.store.suits (by simp [ha])
  case h_21 a b rest => exact suits_concat (ok_of_lift h)
  case h_22 op a =>
    obtain ⟨width, ha, hu⟩ := sorts_mkBitUnary (ok_of_lift h)
    rw [hu]
    exact Family.Rank.bitUnary.suits (by simp [ha])
  case h_23 op a b rest =>
    obtain ⟨⟨width, hu⟩, hall⟩ := unify_leftChain (unifies_mkBitOp op) (ok_of_lift h) (by simp)
    rw [hu] at hall ⊢
    exact (Family.Rank.bitChain htwo).suits_of_unify hall
  case h_24 op a b => exact suits_bitBinary (sorts_mkBitOp (ok_of_lift h))
  case h_25 op a b => exact suits_bitBinary (sorts_mkBitNegated (ok_of_lift h))
  case h_26 a b =>
    obtain ⟨⟨width, ha, hb⟩, hu⟩ := sorts_mkBitEqual (ok_of_lift h)
    rw [hu]
    exact (Family.Rank.bitComparison : Family.Rank _ [.bitVec width, .bitVec width] _).suits
      (by simp [ha, hb])
  case h_27 a b => exact suits_bitBinary (sorts_mkSMod (ok_of_lift h))
  case h_28 op a b =>
    obtain ⟨hsame, hu⟩ := sorts_mkBitOrder (ok_of_lift h)
    exact suits_bitOrder hsame hu
  case h_29 op a b =>
    -- the node has the operands in the other order
    obtain ⟨⟨width, hb, ha⟩, hu⟩ := sorts_mkBitOrder (ok_of_lift h)
    exact suits_bitOrder ⟨width, ha, hb⟩ hu
  case h_30 => cases h

/-! ### Translation -/

variable {sorts : SortTable} {names : Names} {T T' : TermState} {head : String} {args : List SExpr}
  {family : Family}

/-- The integer part of a number, and whether it is one, are asked of either sort. -/
theorem suits_toInt {t : Term} (h : (integerPart t).run T = (.ok u, T')) :
    Family.Suits .toInt [t] u.sort := by
  have hsuits (ht : IsNumeric t.sort) (hu : u.sort = .int) : Family.Suits .toInt [t] u.sort := by
    rw [hu]
    exact ⟨_, .rank .toInt, .cons (Family.takes_real_of_isNumeric ht) .nil, .inr (.inr (by decide))⟩
  unfold integerPart at h
  split at h
  · rename_i hint
    exact hsuits (.inl hint) (Except.ok.inj (Prod.mk.inj h).1 ▸ hint)
  · exact hsuits (.inr rfl) (Except.ok.inj (Prod.mk.inj h).1 ▸ rfl)
  · rename_i _ hreal
    rw [run_bind_ok (run_get T)] at h
    split at h
    · cases h
    · exact hsuits (.inr hreal) (Except.ok.inj (Prod.mk.inj h).1 ▸ rfl)
  · cases h

theorem suits_isInt {t : Term} {sexpr : SExpr} (h : (isIntegral sexpr t).run T = (.ok u, T')) :
    Family.Suits .isInt [t] u.sort := by
  rw [isIntegral, run_bind] at h
  split at h
  · rename_i number T₁ hnumber
    rw [run_bind_ok (Translation.run_freshSymbol "is_int_" .int T₁)] at h
    obtain ⟨lifted, hlifted, h⟩ := bind_ok (mapError_ok (Prod.mk.inj h).1)
    obtain ⟨equality, hequality, h⟩ := bind_ok h
    -- the witness is a Real once it is lifted, and the number equals it
    obtain ⟨hfits, rfl⟩ := checked_ok hequality
    have hsame : lifted.sort = number.sort := by
      simp only [fits, Bool.and_eq_true, beq_iff_eq] at hfits
      exact hfits.2
    have hreal : t.sort.raised = .real := by
      rw [← sort_liftToReal (mapError_ok (Prod.mk.inj hnumber).1), ← hsame]
      exact (sorts_mkToReal hlifted).2
    have ht := Family.takes_real_of_isNumeric (SmtSort.isNumeric_of_raised hreal)
    rw [mkQuantified, if_neg (by simp)] at h
    obtain ⟨-, rfl⟩ := checked_ok h
    exact ⟨_, .rank .isInt, .cons ht .nil, .inr (.inr (by decide))⟩
  · cases h

theorem Family.cases_ofName? (h : Family.ofName? head = some family) :
    (head = "to_int" ∧ family = .toInt) ∨ (head = "is_int" ∧ family = .isInt) ∨
      ∃ op, Operator.ofName? head = some op ∧ op.family = family := by
  have hall : ∀ p ∈ Family.names, (p.1 = "to_int" ∧ p.2 = .toInt) ∨
      (p.1 = "is_int" ∧ p.2 = .isInt) ∨
      (Operator.ofName? p.1).map Operator.family = some p.2 := by decide
  rcases hall (head, family) (Environment.mem_of_lookup h) with h | h | h
  · exact .inl h
  · exact .inr (.inl h)
  · exact .inr (.inr (Option.map_eq_some_iff.mp h))

/-- An application of an operator that is accepted has operands that suit the operator, and its sort
is the one that goes with them. Only the sort of a single operand is left open where it is not asked
for. -/
theorem translate_suits (hfamily : Family.ofName? head = some family)
    (hfree : names.find? head = none) (hT : T.Sound) (hnames : Names.Sound names T.Knows)
    (hrun : (translate sorts names (.list (.atom head :: args))).run T = (.ok u, T')) :
    ∃ ts T₁, (translateAll sorts names args).run T = (.ok ts, T₁) ∧
      (family.TakesAlone ts → family.Suits ts u.sort) := by
  rcases Family.cases_ofName? hfamily with ⟨rfl, rfl⟩ | ⟨rfl, rfl⟩ | ⟨op, hop, rfl⟩
  · obtain ⟨t, T₁, hargs, hpart⟩ := run_translate_conversion_ok (.inl rfl) hfree hrun
    exact ⟨[t], T₁, hargs, fun _ => suits_toInt hpart⟩
  · obtain ⟨t, T₁, hargs, hpart⟩ := run_translate_conversion_ok (.inr rfl) hfree hrun
    exact ⟨[t], T₁, hargs, fun _ => suits_isInt hpart⟩
  · obtain ⟨ts, hargs, happly⟩ := run_translate_operator_ok hop hfree hrun
    have hsound := ((kept_sound.carries_all sorts fun _ _ _ _ => trivial).2.1 names args [] T
      ⟨hT, hnames⟩ trivial _ _ hargs).2 ts rfl
    exact ⟨ts, T', hargs, suits_of_apply happly fun t ht => (hsound.2 t ht).wellSorted⟩

/-- An Int is compared with a Real. -/
theorem translate_suits_lifted :
    ∃ (names : Names) (u : Term) (ts : List Term), names.find? "<=" = none ∧
      (translate .empty names (.list [.atom "<=", .atom "1", .atom "2.5"])).run .empty =
        (.ok u, .empty) ∧
      (translateAll .empty names [.atom "1", .atom "2.5"]).run .empty = (.ok ts, .empty) ∧
      ts.map Term.sort = [.int, .real] ∧ u.sort = .bool ∧ Family.Suits .comparison ts u.sort := by
  let names : Names := ⟨.empty, []⟩
  have hrun : (translate .empty names (.list [.atom "<=", .atom "1", .atom "2.5"])).run .empty =
      (.ok (.order .le (.real 1) (.real (5 / 2))), .empty) := by cbv
  have hargs : (translateAll .empty names [.atom "1", .atom "2.5"]).run .empty =
      (.ok [.int 1, .real (5 / 2)], .empty) := by cbv
  have hnames : Names.Sound names TermState.empty.Knows := by
    simp [Names.Sound, names, Environment.find?, Table.empty, Table.get?]
  obtain ⟨ts, T₁, hts, hsuits⟩ := translate_suits (by rfl) rfl TermState.sound_empty hnames hrun
  obtain ⟨hok, rfl⟩ := Prod.mk.inj (hargs.symm.trans hts)
  obtain rfl := Except.ok.inj hok
  have htwo : Family.TakesAlone .comparison [.int 1, .real (5 / 2)] := by
    intro t h
    cases h
  exact ⟨names, _, _, rfl, hrun, hargs, rfl, rfl, hsuits htwo⟩

/-- The absolute value of a Real, a Real that goes over to Real, and a conjunction of a single
operand are accepted, though no signature of the standard takes these operands. -/
theorem accepted_beyond_ranks :
    (∃ u, (translate .empty ⟨.empty, []⟩ (.list [.atom "abs", .atom "2.5"])).run .empty =
        (.ok u, .empty) ∧
      (translateAll .empty ⟨.empty, []⟩ [.atom "2.5"]).run .empty =
        (.ok [.real (5 / 2)], .empty) ∧
      ¬ ∃ sorts, Family.Rank .absolute sorts u.sort ∧
        List.Forall₂ SmtSort.Takes sorts [.real (5 / 2)]) ∧
    (∃ u, (translate .empty ⟨.empty, []⟩ (.list [.atom "to_real", .atom "2.5"])).run .empty =
        (.ok u, .empty) ∧
      (translateAll .empty ⟨.empty, []⟩ [.atom "2.5"]).run .empty =
        (.ok [.real (5 / 2)], .empty) ∧
      ¬ ∃ sorts, Family.Rank .toReal sorts u.sort ∧
        List.Forall₂ SmtSort.Takes sorts [.real (5 / 2)]) ∧
    (∃ u, (translate .empty ⟨.empty, []⟩ (.list [.atom "and", .atom "true"])).run .empty =
        (.ok u, .empty) ∧
      (translateAll .empty ⟨.empty, []⟩ [.atom "true"]).run .empty =
        (.ok [.bool true], .empty) ∧
      ¬ ∃ sorts, Family.Rank .junction sorts u.sort ∧
        List.Forall₂ SmtSort.Takes sorts [.bool true]) := by
  refine ⟨⟨.ite (.order .le (.real 0) (.real (5 / 2))) (.real (5 / 2)) (.real (-5 / 2)), by cbv,
    by cbv, ?_⟩, ⟨.real (5 / 2), by cbv, by cbv, ?_⟩, ⟨.bool true, by cbv, by cbv, ?_⟩⟩
  · rintro ⟨sorts, hrank, -⟩
    cases hrank
  · rintro ⟨sorts, hrank, htakes⟩
    cases hrank
    rcases (List.forall₂_cons.mp htakes).1 with h | ⟨h, -⟩ <;> cases h
  · rintro ⟨sorts, hrank, htakes⟩
    cases hrank with
    | junction hcount =>
      have hlength := htakes.length_eq
      simp at hlength
      omega

end

end Standard

end SmtScript
