import Mathlib.Data.List.Forall2
import Mathlib.Logic.Relation
import SmtScript.Proofs.Term.Builds

/-!
Sorts of terms by rules.

`Term.HasSort` gives the sorts of terms by a rule for each kind of node. A term has a sort by the
rules if and only if it is well-sorted and this is its sort, `Term.hasSort_iff_typed`; so the tests
that are made whenever a node is built make sure that there is a rule for it.
-/

namespace SmtScript

namespace SmtSort

theorem function_domains_target (sort : SmtSort) : function sort.domains sort.target = sort := by
  induction sort with
  | arrow domain codomain _ ih => simpa [domains, target, function] using ih
  | _ => rfl

theorem isFunction_target (sort : SmtSort) : sort.target.isFunction = false := by
  induction sort with
  | arrow domain codomain _ ih => exact ih
  | _ => rfl

theorem target_of_isFunction {sort : SmtSort} (h : sort.isFunction = false) :
    sort.target = sort := by
  cases sort <;> first | rfl | cases h

theorem target_target (sort : SmtSort) : sort.target.target = sort.target :=
  target_of_isFunction (isFunction_target sort)

theorem afterArguments_domains (sort : SmtSort) :
    sort.afterArguments sort.domains.length = sort.target := by
  induction sort with
  | arrow domain codomain _ ih => simpa [domains, target, afterArguments] using ih
  | _ => rfl

/-- Once nothing can be given any more, all arguments are given. -/
theorem afterArguments_eq_target {sort : SmtSort} {count : Nat}
    (h : (sort.afterArguments count).isFunction = false) :
    sort.afterArguments count = sort.target := by
  induction sort generalizing count with
  | arrow domain codomain _ ih =>
    cases count with
    | zero => cases h
    | succ count => exact ih h
  | _ => cases count <;> rfl

end SmtSort

namespace Term

/-- The sorts of terms. -/
inductive HasSort : Term → SmtSort → Prop where
  | bool (value : Bool) : HasSort (.bool value) .bool
  | int (value : Int) : HasSort (.int value) .int
  | real (value : Rat) : HasSort (.real value) .real
  | bitVec (width : Nat) (value : BitVec width) : HasSort (.bitVec width value) (.bitVec width)
  | symbol (s : Symbol) : HasSort (.symbol s) s.sort
  /-- A function is applied to exactly the arguments that it takes. -/
  | apply {f : Symbol} {args : List Term} {domains : List SmtSort} {codomain : SmtSort}
      (hf : f.sort = .function domains codomain) (hcodomain : codomain.isFunction = false)
      (hlength : args.length = domains.length)
      (hargs : ∀ p ∈ args.zip domains, HasSort p.1 p.2) : HasSort (.apply f args) codomain
  | not {a : Term} (ha : HasSort a .bool) : HasSort (.not a) .bool
  | and {ts : List Term} (hts : ∀ t ∈ ts, HasSort t .bool) : HasSort (.and ts) .bool
  | or {ts : List Term} (hts : ∀ t ∈ ts, HasSort t .bool) : HasSort (.or ts) .bool
  | implies {a b : Term} (ha : HasSort a .bool) (hb : HasSort b .bool) :
      HasSort (.implies a b) .bool
  | iff {a b : Term} (ha : HasSort a .bool) (hb : HasSort b .bool) : HasSort (.iff a b) .bool
  | equal {a b : Term} {sort : SmtSort} (hsort : sort ≠ .bool) (ha : HasSort a sort)
      (hb : HasSort b sort) : HasSort (.equal a b) .bool
  | ite {c a b : Term} {sort : SmtSort} (hc : HasSort c .bool) (ha : HasSort a sort)
      (hb : HasSort b sort) : HasSort (.ite c a b) sort
  | arith (op : ArithOp) {a b : Term} {sort : SmtSort} (hsort : sort = .int ∨ sort = .real)
      (ha : HasSort a sort) (hb : HasSort b sort) : HasSort (.arith op a b) sort
  | order (op : NumOrder) {a b : Term} {sort : SmtSort} (hsort : sort = .int ∨ sort = .real)
      (ha : HasSort a sort) (hb : HasSort b sort) : HasSort (.order op a b) .bool
  | toReal {a : Term} (ha : HasSort a .int) : HasSort (.toReal a) .real
  | select {a i : Term} {index element : SmtSort} (ha : HasSort a (.array index element))
      (hi : HasSort i index) : HasSort (.select a i) element
  | store {a i v : Term} {index element : SmtSort} (ha : HasSort a (.array index element))
      (hi : HasSort i index) (hv : HasSort v element) :
      HasSort (.store a i v) (.array index element)
  | constArray (index : SmtSort) {v : Term} {element : SmtSort} (hv : HasSort v element) :
      HasSort (.constArray index v) (.array index element)
  | bitUnary (op : BitUnary) {a : Term} {width : Nat} (ha : HasSort a (.bitVec width)) :
      HasSort (.bitUnary op a) (.bitVec width)
  | bitOp (op : BitOp) {a b : Term} {width : Nat} (ha : HasSort a (.bitVec width))
      (hb : HasSort b (.bitVec width)) : HasSort (.bitOp op a b) (.bitVec width)
  | bitOrder (op : BitOrder) {a b : Term} {width : Nat} (ha : HasSort a (.bitVec width))
      (hb : HasSort b (.bitVec width)) : HasSort (.bitOrder op a b) .bool
  | bitEqual {a b : Term} {width : Nat} (ha : HasSort a (.bitVec width))
      (hb : HasSort b (.bitVec width)) : HasSort (.bitEqual a b) (.bitVec 1)
  | concat {a b : Term} {left right : Nat} (ha : HasSort a (.bitVec left))
      (hb : HasSort b (.bitVec right)) : HasSort (.concat a b) (.bitVec (left + right))
  | extract {a : Term} {high low width : Nat} (hlow : low ≤ high) (hhigh : high < width)
      (ha : HasSort a (.bitVec width)) :
      HasSort (.extract high low a) (.bitVec (high + 1 - low))
  | rotate (side : Side) {a : Term} {step width : Nat} (hstep : step ≤ width)
      (ha : HasSort a (.bitVec width)) : HasSort (.rotate side step a) (.bitVec width)
  | widen (bits : Widening) (extra : Nat) {a : Term} {width : Nat}
      (ha : HasSort a (.bitVec width)) :
      HasSort (.widen bits extra a) (.bitVec (width + extra))
  | quantified (q : Quantifier) (bound : List Symbol) {a : Term} (ha : HasSort a .bool) :
      HasSort (.quantified q bound a) .bool

variable {t u a b : Term} {sort : SmtSort}

theorem isNumbers_iff : ((a.isInt && b.isInt) || (a.isReal && b.isReal)) = true ↔
    ∃ sort, (sort = .int ∨ sort = .real) ∧ a.sort = sort ∧ b.sort = sort := by
  constructor
  · intro h
    simp only [isInt, isReal, Bool.or_eq_true, Bool.and_eq_true, beq_iff_eq] at h
    rcases h with ⟨ha, hb⟩ | ⟨ha, hb⟩
    · exact ⟨_, .inl rfl, ha, hb⟩
    · exact ⟨_, .inr rfl, ha, hb⟩
  · rintro ⟨sort, rfl | rfl, ha, hb⟩ <;> simp [isInt, isReal, ha, hb]

theorem typed_all {args : List Term} {sorts : List SmtSort} (h : List.Forall₂ Typed args sorts) :
    args.map Term.sort = sorts ∧ ∀ a ∈ args, a.WellSorted := by
  induction h with
  | nil => simp
  | cons ha _ ih => simpa [ha.sort_eq, ha.wellSorted] using ih

/-- The sort that the rules give is the sort of the term, and the operands fit at every node. -/
theorem HasSort.typed (h : t.HasSort sort) : t.Typed sort := by
  induction h with
  | bool value => exact .node rfl (by simp [operands])
  | int value => exact .node rfl (by simp [operands])
  | real value => exact .node rfl (by simp [operands])
  | bitVec width value => exact .node rfl (by simp [operands])
  | symbol s => exact .node rfl (by simp [operands])
  | @apply f args domains codomain hf hcodomain hlength _ ih =>
    have hdomains : f.sort.domains = domains := by rw [hf, SmtSort.domains_function _ _ hcodomain]
    have htarget : f.sort.target = codomain := by rw [hf, SmtSort.target_function _ _ hcodomain]
    have hall : List.Forall₂ Typed args domains :=
      List.forall₂_iff_zip.mpr ⟨hlength, fun h => ih _ h⟩
    obtain ⟨hsorts, hwell⟩ := typed_all hall
    refine ⟨.node ?_ hwell, ?_⟩
    · simp [fits, hdomains, hsorts]
    · rw [Term.sort, hlength, ← hdomains, SmtSort.afterArguments_domains, htarget]
  | not _ ih =>
    exact .node (by simpa [fits, isBool] using ih.sort_eq) (by simp [operands, ih.wellSorted])
  | and _ ih =>
    refine .node ?_ fun a ha => (ih a ha).wellSorted
    simpa [fits, isBool] using fun a ha => (ih a ha).sort_eq
  | or _ ih =>
    refine .node ?_ fun a ha => (ih a ha).wellSorted
    simpa [fits, isBool] using fun a ha => (ih a ha).sort_eq
  | implies _ _ iha ihb =>
    exact .node (by simp [fits, isBool, iha.sort_eq, ihb.sort_eq])
      (by simp [operands, iha.wellSorted, ihb.wellSorted])
  | iff _ _ iha ihb =>
    exact .node (by simp [fits, isBool, iha.sort_eq, ihb.sort_eq])
      (by simp [operands, iha.wellSorted, ihb.wellSorted])
  | equal hsort _ _ iha ihb =>
    exact .node (by simp [fits, isBool, iha.sort_eq, ihb.sort_eq, hsort])
      (by simp [operands, iha.wellSorted, ihb.wellSorted])
  | ite _ _ _ ihc iha ihb =>
    exact ⟨.node (by simp [fits, isBool, ihc.sort_eq, iha.sort_eq, ihb.sort_eq])
      (by simp [operands, ihc.wellSorted, iha.wellSorted, ihb.wellSorted]), iha.sort_eq⟩
  | arith op hsort _ _ iha ihb =>
    exact ⟨.node (isNumbers_iff.mpr ⟨_, hsort, iha.sort_eq, ihb.sort_eq⟩)
      (by simp [operands, iha.wellSorted, ihb.wellSorted]), iha.sort_eq⟩
  | order op hsort _ _ iha ihb =>
    exact .node (isNumbers_iff.mpr ⟨_, hsort, iha.sort_eq, ihb.sort_eq⟩)
      (by simp [operands, iha.wellSorted, ihb.wellSorted])
  | toReal _ ih =>
    exact .node (by simp [fits, isInt, ih.sort_eq]) (by simp [operands, ih.wellSorted])
  | select _ _ iha ihi =>
    exact ⟨.node (by simp [fits, iha.sort_eq, ihi.sort_eq])
      (by simp [operands, iha.wellSorted, ihi.wellSorted]),
      by simp [Term.sort, iha.sort_eq, SmtSort.element]⟩
  | store _ _ _ iha ihi ihv =>
    exact ⟨.node (by simp [fits, iha.sort_eq, ihi.sort_eq, ihv.sort_eq])
      (by simp [operands, iha.wellSorted, ihi.wellSorted, ihv.wellSorted]), iha.sort_eq⟩
  | constArray index _ ih =>
    exact ⟨.node rfl (by simp [operands, ih.wellSorted]), by simp [Term.sort, ih.sort_eq]⟩
  | bitUnary op _ ih =>
    exact ⟨.node (isBitVec_iff.mpr ⟨_, ih.sort_eq⟩) (by simp [operands, ih.wellSorted]), ih.sort_eq⟩
  | bitOp op _ _ iha ihb =>
    exact ⟨.node (by simp [fits, isBitVec_iff, iha.sort_eq, ihb.sort_eq])
      (by simp [operands, iha.wellSorted, ihb.wellSorted]), iha.sort_eq⟩
  | bitOrder op _ _ iha ihb =>
    exact .node (by simp [fits, isBitVec_iff, iha.sort_eq, ihb.sort_eq])
      (by simp [operands, iha.wellSorted, ihb.wellSorted])
  | bitEqual _ _ iha ihb =>
    exact .node (by simp [fits, isBitVec_iff, iha.sort_eq, ihb.sort_eq])
      (by simp [operands, iha.wellSorted, ihb.wellSorted])
  | concat _ _ iha ihb =>
    exact ⟨.node (by simp [fits, isBitVec_iff, iha.sort_eq, ihb.sort_eq])
      (by simp [operands, iha.wellSorted, ihb.wellSorted]),
      by simp [Term.sort, iha.sort_eq, ihb.sort_eq, SmtSort.width, SmtSort.width?]⟩
  | extract hlow hhigh _ ih =>
    exact .node
      (by simp [fits, isBitVec_iff, ih.sort_eq, SmtSort.width, SmtSort.width?, hlow, hhigh])
      (by simp [operands, ih.wellSorted])
  | rotate side hstep _ ih =>
    exact ⟨.node (by simp [fits, isBitVec_iff, ih.sort_eq, SmtSort.width, SmtSort.width?, hstep])
      (by simp [operands, ih.wellSorted]), ih.sort_eq⟩
  | widen bits extra _ ih =>
    exact ⟨.node (isBitVec_iff.mpr ⟨_, ih.sort_eq⟩) (by simp [operands, ih.wellSorted]),
      by simp [Term.sort, ih.sort_eq, SmtSort.width, SmtSort.width?]⟩
  | quantified q bound _ ih =>
    exact .node (by simpa [fits, isBool] using ih.sort_eq) (by simp [operands, ih.wellSorted])

/-- Where the operands fit, there is a rule for the node. -/
theorem hasSort_of_fits (hfits : t.fits = true) (ih : ∀ a ∈ t.operands, a.HasSort a.sort) :
    t.HasSort t.sort := by
  -- an operand whose sort is known
  have hoperand {a : Term} {sort : SmtSort} (ha : a ∈ t.operands) (hsort : a.sort = sort) :
      a.HasSort sort := hsort ▸ ih a ha
  cases t with
  | bool value => exact .bool value
  | int value => exact .int value
  | real value => exact .real value
  | bitVec width value => exact .bitVec width value
  | symbol s => exact .symbol s
  | apply f args =>
    have hsorts : f.sort.domains = args.map sort := by simpa [fits] using hfits
    have hlength : args.length = f.sort.domains.length := by simp [hsorts]
    have hresult : (Term.apply f args).sort = f.sort.target := by
      rw [sort, hlength, SmtSort.afterArguments_domains]
    rw [hresult]
    refine .apply (SmtSort.function_domains_target f.sort).symm (SmtSort.isFunction_target _)
      hlength fun p hp => ?_
    rw [hsorts, ← List.map_prod_left_eq_zip, List.mem_map] at hp
    obtain ⟨a, ha, rfl⟩ := hp
    exact ih a ha
  | not a =>
    have ha : a.sort = .bool := by simpa [fits, isBool] using hfits
    exact .not (hoperand (by simp [operands]) ha)
  | and ts =>
    have hts : ∀ t ∈ ts, t.sort = .bool := by simpa [fits, isBool] using hfits
    exact .and fun t ht => hoperand ht (hts t ht)
  | or ts =>
    have hts : ∀ t ∈ ts, t.sort = .bool := by simpa [fits, isBool] using hfits
    exact .or fun t ht => hoperand ht (hts t ht)
  | implies a b =>
    obtain ⟨ha, hb⟩ : a.sort = .bool ∧ b.sort = .bool := by simpa [fits, isBool] using hfits
    exact .implies (hoperand (by simp [operands]) ha) (hoperand (by simp [operands]) hb)
  | iff a b =>
    obtain ⟨ha, hb⟩ : a.sort = .bool ∧ b.sort = .bool := by simpa [fits, isBool] using hfits
    exact .iff (hoperand (by simp [operands]) ha) (hoperand (by simp [operands]) hb)
  | equal a b =>
    obtain ⟨hsort, hab⟩ : a.sort ≠ .bool ∧ a.sort = b.sort := by simpa [fits, isBool] using hfits
    exact .equal hsort (ih a (by simp [operands])) (hoperand (by simp [operands]) hab.symm)
  | ite c a b =>
    obtain ⟨hc, hab⟩ : c.sort = .bool ∧ a.sort = b.sort := by simpa [fits, isBool] using hfits
    exact .ite (hoperand (by simp [operands]) hc) (ih a (by simp [operands]))
      (hoperand (by simp [operands]) hab.symm)
  | arith op a b =>
    obtain ⟨_, hsort, rfl, hb⟩ := isNumbers_iff.mp hfits
    exact .arith op hsort (ih a (by simp [operands])) (hoperand (by simp [operands]) hb)
  | order op a b =>
    obtain ⟨_, hsort, rfl, hb⟩ := isNumbers_iff.mp hfits
    exact .order op hsort (ih a (by simp [operands])) (hoperand (by simp [operands]) hb)
  | toReal a =>
    have ha : a.sort = .int := by simpa [fits, isInt] using hfits
    exact .toReal (hoperand (by simp [operands]) ha)
  | select a i =>
    cases ha : a.sort with
    | array index element =>
      have hi : i.sort = index := by simpa [fits, ha] using hfits
      have h := HasSort.select (hoperand (by simp [operands]) ha) (hoperand (by simp [operands]) hi)
      simpa [Term.sort, ha, SmtSort.element] using h
    | _ => simp [fits, ha] at hfits
  | store a i v =>
    cases ha : a.sort with
    | array index element =>
      obtain ⟨hi, hv⟩ : i.sort = index ∧ v.sort = element := by simpa [fits, ha] using hfits
      have h := HasSort.store (hoperand (by simp [operands]) ha) (hoperand (by simp [operands]) hi)
        (hoperand (by simp [operands]) hv)
      simpa [Term.sort, ha] using h
    | _ => simp [fits, ha] at hfits
  | constArray index v => exact .constArray index (ih v (by simp [operands]))
  | bitUnary op a =>
    obtain ⟨width, ha⟩ := isBitVec_iff.mp hfits
    simpa [Term.sort, ha] using HasSort.bitUnary op (hoperand (by simp [operands]) ha)
  | bitOp op a b =>
    obtain ⟨⟨width, ha⟩, hab⟩ := by simpa [fits, isBitVec_iff] using hfits
    have hb : b.sort = .bitVec width := hab ▸ ha
    have h := HasSort.bitOp op (hoperand (by simp [operands]) ha) (hoperand (by simp [operands]) hb)
    simpa [Term.sort, ha] using h
  | bitOrder op a b =>
    obtain ⟨⟨width, ha⟩, hab⟩ := by simpa [fits, isBitVec_iff] using hfits
    have hb : b.sort = .bitVec width := hab ▸ ha
    exact .bitOrder op (hoperand (by simp [operands]) ha) (hoperand (by simp [operands]) hb)
  | bitEqual a b =>
    obtain ⟨⟨width, ha⟩, hab⟩ := by simpa [fits, isBitVec_iff] using hfits
    have hb : b.sort = .bitVec width := hab ▸ ha
    exact .bitEqual (hoperand (by simp [operands]) ha) (hoperand (by simp [operands]) hb)
  | concat a b =>
    obtain ⟨⟨left, ha⟩, right, hb⟩ := by simpa [fits, isBitVec_iff] using hfits
    have h := HasSort.concat (hoperand (by simp [operands]) ha) (hoperand (by simp [operands]) hb)
    simpa [Term.sort, ha, hb, SmtSort.width, SmtSort.width?] using h
  | extract high low a =>
    obtain ⟨⟨⟨width, ha⟩, hlow⟩, hhigh⟩ := by simpa [fits, isBitVec_iff] using hfits
    have hhigh : high < width := by simpa [ha, SmtSort.width, SmtSort.width?] using hhigh
    exact .extract hlow hhigh (hoperand (by simp [operands]) ha)
  | rotate side step a =>
    obtain ⟨⟨width, ha⟩, hstep⟩ := by simpa [fits, isBitVec_iff] using hfits
    have hstep : step ≤ width := by simpa [ha, SmtSort.width, SmtSort.width?] using hstep
    simpa [Term.sort, ha] using HasSort.rotate side hstep (hoperand (by simp [operands]) ha)
  | widen bits extra a =>
    obtain ⟨width, ha⟩ := isBitVec_iff.mp hfits
    have h := HasSort.widen bits extra (hoperand (by simp [operands]) ha)
    simpa [Term.sort, ha, SmtSort.width, SmtSort.width?] using h
  | quantified q bound a =>
    have ha : a.sort = .bool := by simpa [fits, isBool] using hfits
    exact .quantified q bound (hoperand (by simp [operands]) ha)

theorem WellSorted.hasSort (h : t.WellSorted) : t.HasSort t.sort := by
  induction h with
  | node hfits _ ih => exact hasSort_of_fits hfits ih

theorem hasSort_iff_typed : t.HasSort sort ↔ t.Typed sort := by
  constructor
  · exact HasSort.typed
  · rintro ⟨hwell, rfl⟩
    exact hwell.hasSort

/-- The terms that occur in a term, which is one of them. -/
abbrev Subterm : Term → Term → Prop := Relation.ReflTransGen fun a t => a ∈ t.operands

/-- What occurs in a term is in every list that has the term and, with each term, its operands. -/
theorem Subterm.mem_of_closed {ts : List Term} (hu : u.Subterm t) (ht : t ∈ ts)
    (hclosed : ∀ v ∈ ts, ∀ a ∈ v.operands, a ∈ ts) : u ∈ ts := by
  induction hu using Relation.ReflTransGen.head_induction_on with
  | refl => exact ht
  | head ha _ ih => exact hclosed _ ih _ ha

/-- Whether every term that occurs in a term has a sort. -/
def Sorted (t : Term) : Prop := ∀ u : Term, u.Subterm t → ∃ sort, u.HasSort sort

theorem WellSorted.subterm (h : t.WellSorted) (hu : u.Subterm t) : u.WellSorted := by
  induction hu using Relation.ReflTransGen.head_induction_on with
  | refl => exact h
  | head ha _ ih => exact ih.operand ha

theorem WellSorted.sorted (h : t.WellSorted) : t.Sorted :=
  fun _ hu => ⟨_, (h.subterm hu).hasSort⟩

end Term

end SmtScript
