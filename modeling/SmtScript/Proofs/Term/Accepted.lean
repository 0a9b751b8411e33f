import SmtScript.Proofs.Operator
import SmtScript.Proofs.Standard.Meaning
import SmtScript.Proofs.Term.HasSort
import SmtScript.Proofs.Term.Told

/-!
What builders accept.

Where a function of `Term.Build` or `Operator` yields a term, its operands have the sorts that it
asks for, and the term has the sort that goes with them. Operands that are lifted where Int and Real
occur side by side have one sort afterwards, `Term.Unify`; a chain or a row of neighbours has it if
each step asks for it.
-/

namespace SmtScript

namespace Term

open Standard (IsNumeric)

variable {t u a b c : Term} {ts us : List Term} {sort : SmtSort}

/-! ### Nodes -/

theorem sort_mkNot (h : mkNot a = .ok u) (ha : a.WellSorted) : a.sort = .bool ∧ u.sort = .bool := by
  unfold mkNot at h
  split at h
  · rename_i body
    obtain rfl := Except.ok.inj h
    exact ⟨rfl, by simpa [fits, isBool] using ha.fits⟩
  · obtain ⟨hfits, rfl⟩ := checked_ok h
    exact ⟨by simpa [fits, isBool] using hfits, rfl⟩

theorem sort_mkAnd (h : mkAnd ts = .ok u) (hts : ∀ t ∈ ts, t.sort = .bool) : u.sort = .bool := by
  unfold mkAnd at h
  split at h
  · exact Except.ok.inj h ▸ rfl
  · exact Except.ok.inj h ▸ hts _ (by simp)
  · exact (checked_ok h).2 ▸ rfl

/-- The parts of a conjunction are only asked for their sorts if there are several. -/
theorem sorts_mkAnd (h : mkAnd ts = .ok u) (hts : 2 ≤ ts.length) :
    (∀ t ∈ ts, t.sort = .bool) ∧ u.sort = .bool := by
  unfold mkAnd at h
  split at h
  · cases hts
  · simp at hts
  · obtain ⟨hfits, rfl⟩ := checked_ok h
    exact ⟨by simpa [fits, isBool] using hfits, rfl⟩

theorem sorts_mkOr (h : mkOr ts = .ok u) (hts : 2 ≤ ts.length) :
    (∀ t ∈ ts, t.sort = .bool) ∧ u.sort = .bool := by
  unfold mkOr at h
  split at h
  · cases hts
  · simp at hts
  · obtain ⟨hfits, rfl⟩ := checked_ok h
    exact ⟨by simpa [fits, isBool] using hfits, rfl⟩

theorem sorts_mkIff (h : mkIff a b = .ok u) :
    a.sort = .bool ∧ b.sort = .bool ∧ u.sort = .bool := by
  obtain ⟨hfits, rfl⟩ := checked_ok h
  obtain ⟨ha, hb⟩ : a.sort = .bool ∧ b.sort = .bool := by simpa [fits, isBool] using hfits
  exact ⟨ha, hb, rfl⟩

theorem sorts_mkImplies (h : mkImplies a b = .ok u) :
    a.sort = .bool ∧ b.sort = .bool ∧ u.sort = .bool := by
  obtain ⟨hfits, rfl⟩ := checked_ok h
  obtain ⟨ha, hb⟩ : a.sort = .bool ∧ b.sort = .bool := by simpa [fits, isBool] using hfits
  exact ⟨ha, hb, rfl⟩

theorem sorts_mkSame (h : mkSame a b = .ok u) : a.sort = b.sort ∧ u.sort = .bool := by
  unfold mkSame at h
  split at h
  · obtain ⟨ha, hb, hu⟩ := sorts_mkIff h
    exact ⟨ha.trans hb.symm, hu⟩
  · obtain ⟨hfits, rfl⟩ := checked_ok h
    have hab : a.sort ≠ .bool ∧ a.sort = b.sort := by simpa [fits, isBool] using hfits
    exact ⟨hab.2, rfl⟩

/-- An equality or equivalence is no negation, so its negation does not cancel. -/
theorem sort_mkNot_mkSame {same : Term} (hsame : mkSame a b = .ok same) (h : mkNot same = .ok u) :
    u.sort = .bool := by
  unfold mkSame at hsame
  split at hsame <;>
  · obtain ⟨-, rfl⟩ := checked_ok hsame
    exact (checked_ok h).2 ▸ rfl

theorem sorts_mkXor (h : mkXor a b = .ok u) :
    a.sort = .bool ∧ b.sort = .bool ∧ u.sort = .bool := by
  obtain ⟨same, hsame, h⟩ := bind_ok h
  obtain ⟨ha, hb, -⟩ := sorts_mkIff hsame
  obtain ⟨-, rfl⟩ := checked_ok hsame
  exact ⟨ha, hb, (checked_ok h).2 ▸ rfl⟩

theorem sorts_differAll (h : differAll t ts = .ok us) :
    (∀ other ∈ ts, other.sort = t.sort) ∧ ∀ u ∈ us, u.sort = .bool := by
  induction ts generalizing us with
  | nil =>
    obtain rfl := Except.ok.inj h
    simp
  | cons other rest ih =>
    obtain ⟨same, hsame, h⟩ := bind_ok h
    obtain ⟨first, hfirst, h⟩ := bind_ok h
    obtain ⟨later, hlater, h⟩ := bind_ok h
    obtain rfl := Except.ok.inj h
    obtain ⟨hsorts, hresults⟩ := ih hlater
    exact ⟨List.forall_mem_cons.mpr ⟨(sorts_mkSame hsame).1.symm, hsorts⟩,
      List.forall_mem_cons.mpr ⟨sort_mkNot_mkSame hsame hfirst, hresults⟩⟩

theorem sort_differences (h : differences ts = .ok us) : ∀ u ∈ us, u.sort = .bool := by
  induction ts generalizing us with
  | nil =>
    obtain rfl := Except.ok.inj h
    simp
  | cons t rest ih =>
    obtain ⟨first, hfirst, h⟩ := bind_ok h
    obtain ⟨later, hlater, h⟩ := bind_ok h
    obtain rfl := Except.ok.inj h
    exact List.forall_mem_append.mpr ⟨(sorts_differAll hfirst).2, ih hlater⟩

/-- Terms that are to differ pairwise have one sort. -/
theorem sorts_mkDistinct (h : mkDistinct ts = .ok u) :
    (∃ sort, ∀ t ∈ ts, t.sort = sort) ∧ u.sort = .bool := by
  obtain ⟨parts, hparts, h⟩ := bind_ok h
  refine ⟨?_, sort_mkAnd h (sort_differences hparts)⟩
  cases ts with
  | nil => exact ⟨.bool, by simp⟩
  | cons t rest =>
    obtain ⟨first, hfirst, -⟩ := bind_ok hparts
    exact ⟨t.sort, List.forall_mem_cons.mpr ⟨rfl, (sorts_differAll hfirst).1⟩⟩

theorem sorts_mkIte (h : mkIte c a b = .ok u) :
    c.sort = .bool ∧ a.sort = u.sort ∧ b.sort = u.sort := by
  obtain ⟨hfits, rfl⟩ := checked_ok h
  obtain ⟨hc, hab⟩ : c.sort = .bool ∧ a.sort = b.sort := by simpa [fits, isBool] using hfits
  exact ⟨hc, rfl, hab.symm⟩

theorem sorts_mkArith {op : ArithOp} (h : mkArith op a b = .ok u) :
    IsNumeric u.sort ∧ a.sort = u.sort ∧ b.sort = u.sort := by
  have hnode {op : ArithOp} {right : Term} (h : checked (.arith op a right) = .ok u) :
      IsNumeric u.sort ∧ a.sort = u.sort ∧ right.sort = u.sort := by
    obtain ⟨hfits, rfl⟩ := checked_ok h
    obtain ⟨_, hsort, rfl, hb⟩ := isNumbers_iff.mp hfits
    exact ⟨hsort, rfl, hb⟩
  unfold mkArith at h
  split at h
  · split at h
    · exact hnode h
    · -- the reciprocal of a constant has the sort of the constant
      exact (hnode h :)
  · obtain ⟨_, _, h⟩ := bind_ok h
    exact hnode h
  · exact hnode h

theorem sorts_mkOrder {op : NumOrder} (h : mkOrder op a b = .ok u) :
    IsNumeric a.sort ∧ b.sort = a.sort ∧ u.sort = .bool := by
  obtain ⟨hfits, rfl⟩ := checked_ok h
  obtain ⟨_, hsort, rfl, hb⟩ := isNumbers_iff.mp hfits
  exact ⟨hsort, hb, rfl⟩

theorem sorts_mkComparison {comparison : Comparison} (h : mkComparison comparison a b = .ok u) :
    IsNumeric a.sort ∧ b.sort = a.sort ∧ u.sort = .bool := by
  have hswapped {op : NumOrder} (h : mkOrder op b a = .ok u) :
      IsNumeric a.sort ∧ b.sort = a.sort ∧ u.sort = .bool := by
    obtain ⟨hb, hab, hu⟩ := sorts_mkOrder h
    exact ⟨hab ▸ hb, hab.symm, hu⟩
  cases comparison with
  | le => exact sorts_mkOrder h
  | lt => exact sorts_mkOrder h
  | ge => exact hswapped h
  | gt => exact hswapped h

theorem sorts_mkToReal (h : mkToReal a = .ok u) : IsNumeric a.sort ∧ u.sort = .real := by
  unfold mkToReal at h
  split at h
  · rename_i hreal
    exact ⟨.inr hreal, Except.ok.inj h ▸ hreal⟩
  · exact ⟨.inl rfl, Except.ok.inj h ▸ rfl⟩
  · rename_i _ hint
    exact ⟨.inl hint, (checked_ok h).2 ▸ rfl⟩
  · cases h

theorem sorts_mkNegative (h : mkNegative a = .ok u) : IsNumeric a.sort ∧ u.sort = a.sort := by
  unfold mkNegative at h
  split at h
  · exact ⟨.inl rfl, Except.ok.inj h ▸ rfl⟩
  · exact ⟨.inr rfl, Except.ok.inj h ▸ rfl⟩
  · split at h
    · cases h
    · rename_i hint
      exact ⟨.inl hint, (sorts_mkArith (mapError_ok h)).2.2.symm⟩
    · rename_i hreal
      exact ⟨.inr hreal, (sorts_mkArith (mapError_ok h)).2.2.symm⟩
    · cases h

theorem sorts_mkMod (h : mkMod a b = .ok u) :
    a.sort = .int ∧ b.sort = .int ∧ u.sort = .int := by
  unfold mkMod at h
  split at h
  · rename_i hints
    obtain ⟨ha, hb⟩ : a.sort = .int ∧ b.sort = .int := by simpa [isInt] using hints
    obtain ⟨_, -, h⟩ := bind_ok h
    obtain ⟨_, -, h⟩ := bind_ok h
    exact ⟨ha, hb, (sorts_mkArith (ok_of_lift h)).2.1.symm.trans ha⟩
  · cases h

theorem sorts_mkAbs (h : mkAbs a = .ok u) : IsNumeric a.sort ∧ u.sort = a.sort := by
  have hcases {zero : Term} (h : (do
      mkIte (← mkComparison .ge a zero) a (← mkNegative a) : Except Refusal Term) = .ok u) :
      u.sort = a.sort := by
    obtain ⟨_, -, h⟩ := bind_ok h
    obtain ⟨_, -, h⟩ := bind_ok h
    exact (sorts_mkIte (ok_of_lift h)).2.1.symm
  unfold mkAbs at h
  split at h
  · exact ⟨.inl ‹_›, hcases h⟩
  · exact ⟨.inr ‹_›, hcases h⟩
  · cases h

theorem sorts_mkSelect (h : mkSelect a b = .ok u) : a.sort = .array b.sort u.sort := by
  obtain ⟨hfits, rfl⟩ := checked_ok h
  cases ha : a.sort with
  | array index element =>
    have hb : b.sort = index := by simpa [fits, ha] using hfits
    simp [Term.sort, ha, hb, SmtSort.element]
  | _ => simp [fits, ha] at hfits

theorem sorts_mkStore (h : mkStore a b c = .ok u) :
    a.sort = .array b.sort c.sort ∧ u.sort = a.sort := by
  obtain ⟨hfits, rfl⟩ := checked_ok h
  cases ha : a.sort with
  | array index element =>
    obtain ⟨hb, hc⟩ : b.sort = index ∧ c.sort = element := by simpa [fits, ha] using hfits
    simp [Term.sort, ha, hb, hc]
  | _ => simp [fits, ha] at hfits

/-! ### Nodes over bit-vectors -/

theorem sorts_mkBitUnary {op : BitUnary} (h : mkBitUnary op a = .ok u) :
    ∃ width, a.sort = .bitVec width ∧ u.sort = .bitVec width := by
  obtain ⟨_, -, h⟩ := bind_ok h
  obtain ⟨hfits, rfl⟩ := checked_ok h
  obtain ⟨width, ha⟩ := isBitVec_iff.mp hfits
  exact ⟨width, ha, ha⟩

theorem bitVecs_iff : (a.isBitVec && a.sort == b.sort) = true ↔
    ∃ width, a.sort = .bitVec width ∧ b.sort = .bitVec width := by
  rw [Bool.and_eq_true, isBitVec_iff, beq_iff_eq]
  constructor
  · rintro ⟨⟨width, ha⟩, hab⟩
    exact ⟨width, ha, hab ▸ ha⟩
  · rintro ⟨width, ha, hb⟩
    exact ⟨⟨width, ha⟩, ha.trans hb.symm⟩

theorem sorts_mkBitOp {op : BitOp} (h : mkBitOp op a b = .ok u) :
    ∃ width, a.sort = .bitVec width ∧ b.sort = .bitVec width ∧ u.sort = .bitVec width := by
  obtain ⟨_, -, h⟩ := bind_ok h
  obtain ⟨hfits, rfl⟩ := checked_ok h
  obtain ⟨width, ha, hb⟩ := bitVecs_iff.mp hfits
  exact ⟨width, ha, hb, ha⟩

theorem sorts_mkBitNegated {op : BitOp} (h : mkBitNegated op a b = .ok u) :
    ∃ width, a.sort = .bitVec width ∧ b.sort = .bitVec width ∧ u.sort = .bitVec width := by
  obtain ⟨positive, hpositive, h⟩ := bind_ok h
  obtain ⟨width, ha, hb, hsort⟩ := sorts_mkBitOp hpositive
  obtain ⟨_, hsame, hu⟩ := sorts_mkBitUnary h
  exact ⟨width, ha, hb, hu.trans (hsame.symm.trans hsort)⟩

theorem sorts_mkBitOrder {op : BitOrder} (h : mkBitOrder op a b = .ok u) :
    (∃ width, a.sort = .bitVec width ∧ b.sort = .bitVec width) ∧ u.sort = .bool := by
  obtain ⟨_, -, h⟩ := bind_ok h
  obtain ⟨hfits, rfl⟩ := checked_ok h
  exact ⟨bitVecs_iff.mp hfits, rfl⟩

theorem sorts_mkBitEqual (h : mkBitEqual a b = .ok u) :
    (∃ width, a.sort = .bitVec width ∧ b.sort = .bitVec width) ∧ u.sort = .bitVec 1 := by
  obtain ⟨hfits, rfl⟩ := checked_ok h
  exact ⟨bitVecs_iff.mp hfits, rfl⟩

theorem sorts_mkConcat (h : mkConcat a b = .ok u) :
    ∃ left right, a.sort = .bitVec left ∧ b.sort = .bitVec right ∧
      u.sort = .bitVec (left + right) := by
  obtain ⟨_, -, h⟩ := bind_ok h
  obtain ⟨_, -, h⟩ := bind_ok h
  obtain ⟨hfits, rfl⟩ := checked_ok h
  obtain ⟨⟨left, ha⟩, right, hb⟩ := by simpa [fits, isBitVec_iff] using hfits
  exact ⟨left, right, ha, hb, by simp [Term.sort, ha, hb, SmtSort.width, SmtSort.width?]⟩

theorem sorts_mkExtract {high low : Nat} (h : mkExtract high low a = .ok u) :
    low ≤ high ∧ high < a.sort.width ∧ u.sort = .bitVec (high - low + 1) := by
  obtain ⟨_, -, h⟩ := bind_ok h
  split at h
  · obtain ⟨hfits, rfl⟩ := checked_ok h
    obtain ⟨⟨-, hlow⟩, hhigh⟩ : (a.isBitVec = true ∧ low ≤ high) ∧ high < a.sort.width := by
      simpa [fits] using hfits
    exact ⟨hlow, hhigh, congrArg SmtSort.bitVec (Nat.sub_add_comm hlow)⟩
  · cases h

theorem sort_mkWiden {bits : Widening} {extra : Nat} (h : mkWiden bits extra a = .ok u) :
    u.sort = .bitVec (a.sort.width + extra) := by
  obtain ⟨_, -, h⟩ := bind_ok h
  exact (checked_ok h).2 ▸ rfl

theorem sort_mkRotate {side : Side} {step : Nat} (h : mkRotate side step a = .ok u) :
    u.sort = a.sort := by
  obtain ⟨_, -, h⟩ := bind_ok h
  exact (checked_ok h).2 ▸ rfl

theorem sort_mkCopies {copies width : Nat} (h : mkCopies a copies = .ok u)
    (ha : a.sort = .bitVec width) : u.sort = .bitVec ((copies + 1) * width) := by
  induction copies generalizing u with
  | zero =>
    obtain rfl := Except.ok.inj h
    rw [ha, Nat.zero_add, Nat.one_mul]
  | succ copies ih =>
    obtain ⟨fewer, hfewer, h⟩ := bind_ok h
    obtain ⟨left, right, hleft, hright, hu⟩ := sorts_mkConcat h
    obtain rfl := SmtSort.bitVec.inj (hleft.symm.trans (ih hfewer))
    obtain rfl := SmtSort.bitVec.inj (hright.symm.trans ha)
    rw [hu, ← Nat.succ_mul]

theorem sorts_mkSMod (h : mkSMod a b = .ok u) :
    ∃ width, a.sort = .bitVec width ∧ b.sort = .bitVec width ∧ u.sort = .bitVec width := by
  obtain ⟨_, -, h⟩ := bind_ok h
  obtain ⟨_, -, h⟩ := bind_ok h
  obtain ⟨_, -, h⟩ := bind_ok h
  obtain ⟨leftAbs, hleftAbs, h⟩ := bind_ok h
  obtain ⟨rightAbs, hrightAbs, h⟩ := bind_ok h
  obtain ⟨rest, hrest, h⟩ := bind_ok h
  obtain ⟨width, hl, hr, hsort⟩ := sorts_mkBitOp hrest
  -- the sort of the result is that of the first case, the remainder itself
  have hu : u.sort = rest.sort := by
    iterate 16 obtain ⟨_, -, h⟩ := bind_ok h
    exact (sorts_mkIte h).2.1.symm
  exact ⟨width, (sort_mkBitAbs hleftAbs).symm.trans hl, (sort_mkBitAbs hrightAbs).symm.trans hr,
    hu.trans hsort⟩

/-! ### Operands that are lifted -/

end Term

namespace SmtSort

/-- The sort that terms of a sort have once they are lifted to Real. -/
def raised : SmtSort → SmtSort
  | .int => .real
  | sort => sort

variable {sort : SmtSort}

theorem raised_of_ne (h : sort ≠ .int) : sort.raised = sort := by
  unfold raised
  split
  · exact absurd rfl h
  · rfl

theorem isNumeric_of_raised (h : sort.raised = .real) : Standard.IsNumeric sort := by
  by_cases hint : sort = .int
  · exact .inl hint
  · exact .inr ((raised_of_ne hint).symm.trans h)

theorem raised_ne_int : sort.raised ≠ .int := by
  cases sort <;> nofun

end SmtSort

namespace Term

open Standard (IsNumeric)

variable {t u a b c : Term} {ts us : List Term} {sort : SmtSort}

/-- Terms of one sort, once each Int goes over to Real if there is a Real among them. -/
inductive Unify (ts : List Term) : SmtSort → Prop where
  | same {sort : SmtSort} (h : ∀ t ∈ ts, t.sort = sort) : Unify ts sort
  | mixed (h : ∀ t ∈ ts, IsNumeric t.sort) (hreal : ∃ t ∈ ts, t.sort = .real) : Unify ts .real

theorem Unify.numeric (h : Unify ts sort) (hsort : IsNumeric sort) :
    ∀ t ∈ ts, IsNumeric t.sort := by
  cases h with
  | same h => exact fun t ht => h t ht ▸ hsort
  | mixed h => exact h

theorem sort_liftToReal (h : liftToReal t = .ok u) : u.sort = t.sort.raised := by
  unfold liftToReal at h
  split at h
  · rename_i hint
    have hint : t.sort = .int := by simpa [isInt] using hint
    rw [(sorts_mkToReal h).2, hint, SmtSort.raised]
  · rename_i hint
    have hne : t.sort ≠ .int := by simpa [isInt] using hint
    rw [← Except.ok.inj h, SmtSort.raised_of_ne hne]

theorem sorts_mapM_liftToReal (h : ts.mapM liftToReal = .ok us) :
    us.map Term.sort = ts.map fun t => t.sort.raised := by
  induction ts generalizing us with
  | nil => exact Except.ok.inj h ▸ rfl
  | cons t rest ih =>
    rw [List.mapM_cons] at h
    obtain ⟨first, hfirst, h⟩ := bind_ok h
    obtain ⟨later, hlater, h⟩ := bind_ok h
    obtain rfl := Except.ok.inj h
    simp [sort_liftToReal hfirst, ih hlater]

/-- Ints are lifted if there is a Real among the terms. -/
theorem sorts_liftMixed (h : liftMixed ts = .ok us) :
    us.map Term.sort = ts.map Term.sort ∨
      .real ∈ ts.map Term.sort ∧ us.map Term.sort = ts.map fun t => t.sort.raised := by
  unfold liftMixed at h
  split at h
  · rename_i hmixes
    have hreal : ∃ t ∈ ts, t.sort = .real := by
      simp only [mixesNumbers, isReal, Bool.and_eq_true, List.any_eq_true, beq_iff_eq] at hmixes
      exact hmixes.1
    exact .inr ⟨List.mem_map.mpr hreal, sorts_mapM_liftToReal h⟩
  · exact .inl (Except.ok.inj h ▸ rfl)

theorem unify_of_raised (h : ∀ t ∈ ts, t.sort.raised = sort) (hreal : .real ∈ ts.map Term.sort) :
    Unify ts sort := by
  obtain ⟨r, hr, hreal⟩ := List.mem_map.mp hreal
  obtain rfl : sort = .real := (h r hr).symm.trans (by rw [hreal]; rfl)
  exact .mixed (fun t ht => SmtSort.isNumeric_of_raised (h t ht)) ⟨r, hr, hreal⟩

/-- What has one sort after lifting had one but for the lifting. -/
theorem unify_of_liftMixed (h : liftMixed ts = .ok us) (hus : ∀ u ∈ us, u.sort = sort) :
    Unify ts sort := by
  have hall : ∀ s ∈ us.map Term.sort, s = sort := by simpa using hus
  rcases sorts_liftMixed h with hsorts | ⟨hreal, hsorts⟩ <;> rw [hsorts] at hall
  · exact .same (by simpa using hall)
  · exact unify_of_raised (by simpa using hall) hreal

/-- A node over two operands in the place of the first one: what it is joined with unifies with the
operands. -/
theorem Unify.fold {v : Term} (h : Unify [a, b] v.sort) (hrest : Unify (v :: ts) sort) :
    Unify (a :: b :: ts) sort := by
  generalize hv : v.sort = joint at h
  cases hrest with
  | same hrest =>
    obtain ⟨hsort, hts⟩ := List.forall_mem_cons.mp hrest
    cases h with
    | same h =>
      refine .same fun t ht => ?_
      rcases List.mem_append.mp (show t ∈ [a, b] ++ ts from ht) with ht | ht
      · exact (h t ht).trans (hv.symm.trans hsort)
      · exact hts t ht
    | mixed h hreal =>
      obtain rfl : sort = .real := hsort.symm.trans hv
      obtain ⟨r, hr, hreal⟩ := hreal
      refine .mixed (fun t ht => ?_) ⟨r, List.mem_append_left ts hr, hreal⟩
      rcases List.mem_append.mp (show t ∈ [a, b] ++ ts from ht) with ht | ht
      · exact h t ht
      · exact .inr (hts t ht)
  | mixed hrest hreal =>
    obtain ⟨hnumeric, hts⟩ := List.forall_mem_cons.mp hrest
    have hpair := h.numeric (hv ▸ hnumeric)
    refine .mixed (fun t ht => ?_) ?_
    · rcases List.mem_append.mp (show t ∈ [a, b] ++ ts from ht) with ht | ht
      · exact hpair t ht
      · exact hts t ht
    · obtain ⟨r, hr, hr'⟩ := hreal
      rcases List.mem_cons.mp hr with rfl | hr
      · cases h with
        | same h => exact ⟨a, by simp, (h a (by simp)).trans (hv.symm.trans hr')⟩
        | mixed _ hreal =>
          obtain ⟨r, hr, hr'⟩ := hreal
          exact ⟨r, List.mem_append_left ts hr, hr'⟩
      · exact ⟨r, List.mem_append_right [a, b] hr, hr'⟩

/-- Two rows of operands that share one. -/
theorem Unify.join {sort' : SmtSort} (h : Unify [a, b] sort) (hrest : Unify (b :: ts) sort') :
    ∃ joint, (joint = sort ∨ joint = sort') ∧ Unify (a :: b :: ts) joint := by
  cases hrest with
  | same hrest =>
    cases h with
    | same h =>
      have hsame : sort' = sort := (hrest b (by simp)).symm.trans (h b (by simp))
      exact ⟨sort', .inr rfl, .same (List.forall_mem_cons.mpr ⟨hsame ▸ h a (by simp), hrest⟩)⟩
    | mixed h hreal =>
      obtain ⟨r, hr, hr'⟩ := hreal
      have hb : IsNumeric sort' := hrest b (by simp) ▸ h b (by simp)
      have hall : ∀ t ∈ a :: b :: ts, IsNumeric t.sort :=
        List.forall_mem_cons.mpr ⟨h a (by simp), fun t ht => hrest t ht ▸ hb⟩
      exact ⟨.real, .inl rfl, .mixed hall ⟨r, List.mem_append_left ts hr, hr'⟩⟩
  | mixed hrest hreal =>
    obtain ⟨r, hr, hr'⟩ := hreal
    have ha : IsNumeric a.sort := by
      cases h with
      | same h => exact h a (by simp) ▸ h b (by simp) ▸ hrest b (by simp)
      | mixed h _ => exact h a (by simp)
    exact ⟨.real, .inr rfl, .mixed (List.forall_mem_cons.mpr ⟨ha, hrest⟩)
      ⟨r, List.mem_cons_of_mem a hr, hr'⟩⟩

/-! ### Chains and rows -/

/-- Whether a builder of binary nodes accepts only operands that unify at a sort that it asks for,
and what sort the node has then. -/
def Unifies (build : Term → Term → Except Fault Term) (asks : SmtSort → Prop)
    (gives : SmtSort → SmtSort) : Prop :=
  ∀ {a b u}, build a b = .ok u → ∃ sort, asks sort ∧ Unify [a, b] sort ∧ u.sort = gives sort

section

variable {build : Term → Term → Except Fault Term} {asks : SmtSort → Prop}
  {gives : SmtSort → SmtSort}

theorem unify_pair (ha : a.sort = sort) (hb : b.sort = sort) : Unify [a, b] sort :=
  .same (by simpa using ⟨ha, hb⟩)

/-- Where a builder asks for operands of one sort, it accepts others that are lifted to it. -/
theorem unifies_lifted (hbuild : ∀ {a b u}, build a b = .ok u →
      ∃ sort, asks sort ∧ a.sort = sort ∧ b.sort = sort ∧ u.sort = gives sort) :
    Unifies (lifted build) asks gives := by
  intro a b u h
  obtain ⟨us, hus, h⟩ := bind_ok h
  split at h
  · obtain ⟨sort, hasks, ha, hb, hu⟩ := hbuild h
    exact ⟨sort, hasks, unify_of_liftMixed hus (by simpa using ⟨ha, hb⟩), hu⟩
  · cases h

/-- A chain of nodes of the sort of their operands. -/
theorem unify_leftChain (hbuild : Unifies build asks id) (h : leftChain build a ts = .ok u)
    (hts : ts ≠ []) : asks u.sort ∧ Unify (a :: ts) u.sort := by
  induction ts generalizing a with
  | nil => exact absurd rfl hts
  | cons t rest ih =>
    obtain ⟨next, hnext, h⟩ := bind_ok h
    obtain ⟨sort, hasks, hpair, hsort⟩ := hbuild hnext
    obtain rfl : next.sort = sort := hsort
    cases rest with
    | nil =>
      obtain rfl := Except.ok.inj h
      exact ⟨hasks, hpair⟩
    | cons t' rest =>
      obtain ⟨hu, hrest⟩ := ih h (by simp)
      exact ⟨hu, hpair.fold hrest⟩

/-- A row of operands whose neighbours are related. -/
theorem unify_neighbours (hbuild : Unifies build asks fun _ => .bool)
    (h : neighbours build (a :: b :: ts) = .ok us) :
    (∃ sort, asks sort ∧ Unify (a :: b :: ts) sort) ∧ ∀ u ∈ us, u.sort = .bool := by
  induction ts generalizing a b us with
  | nil =>
    obtain ⟨first, hfirst, h⟩ := bind_ok h
    obtain ⟨later, hlater, h⟩ := bind_ok h
    obtain rfl := Except.ok.inj hlater
    obtain rfl := Except.ok.inj h
    obtain ⟨sort, hasks, hpair, hsort⟩ := hbuild hfirst
    exact ⟨⟨sort, hasks, hpair⟩, by simpa using hsort⟩
  | cons c rest ih =>
    obtain ⟨first, hfirst, h⟩ := bind_ok h
    obtain ⟨later, hlater, h⟩ := bind_ok h
    obtain rfl := Except.ok.inj h
    obtain ⟨sort, hasks, hpair, hsort⟩ := hbuild hfirst
    obtain ⟨⟨sort', hasks', hrest⟩, hsorts⟩ := ih hlater
    obtain ⟨joint, hjoint, hall⟩ := hpair.join hrest
    refine ⟨⟨joint, ?_, hall⟩, List.forall_mem_cons.mpr ⟨hsort, hsorts⟩⟩
    rcases hjoint with rfl | rfl
    · exact hasks
    · exact hasks'

theorem unify_chained (hbuild : Unifies build asks fun _ => .bool)
    (h : chained build (a :: b :: ts) = .ok u) :
    (∃ sort, asks sort ∧ Unify (a :: b :: ts) sort) ∧ u.sort = .bool := by
  obtain ⟨parts, hparts, h⟩ := bind_ok h
  obtain ⟨hrow, hsorts⟩ := unify_neighbours hbuild hparts
  exact ⟨hrow, sort_mkAnd h hsorts⟩

theorem sorts_impliesChain (h : impliesChain a ts = .ok u) (hts : ts ≠ []) :
    (∀ t ∈ a :: ts, t.sort = .bool) ∧ u.sort = .bool := by
  induction ts generalizing a u with
  | nil => exact absurd rfl hts
  | cons t rest ih =>
    obtain ⟨conclusion, hconclusion, h⟩ := bind_ok h
    obtain ⟨ha, hc, hu⟩ := sorts_mkImplies h
    refine ⟨List.forall_mem_cons.mpr ⟨ha, ?_⟩, hu⟩
    cases rest with
    | nil =>
      obtain rfl := Except.ok.inj hconclusion
      simpa using hc
    | cons t' rest => exact (ih hconclusion (by simp)).1

theorem sorts_concatChain {width : Nat} (h : leftChain mkConcat a ts = .ok u)
    (ha : a.sort = .bitVec width) :
    ∃ widths : List Nat, ts.map Term.sort = widths.map SmtSort.bitVec ∧
      u.sort = .bitVec (width + widths.sum) := by
  induction ts generalizing a width with
  | nil =>
    obtain rfl := Except.ok.inj h
    exact ⟨[], rfl, ha⟩
  | cons t rest ih =>
    obtain ⟨next, hnext, h⟩ := bind_ok h
    obtain ⟨left, right, hleft, hright, hsort⟩ := sorts_mkConcat hnext
    obtain rfl : left = width := SmtSort.bitVec.inj (hleft.symm.trans ha)
    obtain ⟨widths, hwidths, hu⟩ := ih h hsort
    refine ⟨right :: widths, by simp [hright, hwidths], hu.trans ?_⟩
    rw [List.sum_cons, Nat.add_assoc]

end

end Term

end SmtScript
