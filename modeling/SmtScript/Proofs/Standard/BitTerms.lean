import SmtScript.Proofs.Standard.BitVectors
import SmtScript.Proofs.Standard.Operators

/-!
The values of bit-vector terms.

The builders of bit-vector terms accept operands whose widths fit, and the values of the terms are
operations on the numbers that the operands write, `Standard.builds_mkBitOp` and so on. Most of them
yield one node. A repetition is a chain of concatenations, and the signed remainder that follows the
divisor is put together from the four cases of signs, `Standard.builds_mkSMod`.
-/

namespace SmtScript

namespace Term

variable {t : Term} {w : Nat} {I : Interpretation}

theorem Typed.eval_bitVec (h : t.Typed (.bitVec w)) (hI : I.WellSorted) :
    ∃ x : BitVec w, t.eval I = .bitVec w x := by
  have hv := hasSort_eval hI h.wellSorted
  rw [h.sort_eq] at hv
  exact Value.hasSort_bitVec.mp hv

theorem Typed.isBitVec (h : t.Typed (.bitVec w)) : t.isBitVec = true :=
  isBitVec_iff.mpr ⟨w, h.sort_eq⟩

theorem Typed.isBool_bitVec (h : t.Typed (.bitVec w)) : t.isBool = false := by
  rw [Term.isBool, h.sort_eq]
  rfl

theorem needWidth_eq (h : t.Typed (.bitVec w)) : needWidth t = .ok w := by
  rw [needWidth, width?, h.sort_eq]
  rfl

theorem typed_bitVec (x : BitVec w) : (Term.bitVec w x).Typed (.bitVec w) :=
  .node rfl (by simp [operands])

end Term

namespace Standard

open Term

variable {w v : Nat} {a b t sign sign' : Term} {sort : SmtSort} {I : Interpretation}

/-! ### Values -/

@[simp] theorem bits_value (a : Bits) : bits a.value = a := rfl

theorem value_ofBitVec (x : BitVec w) : (Bits.ofBitVec x).value = .bitVec w x := rfl

theorem bits_bitVec (x : BitVec w) : bits (.bitVec w x) = .ofBitVec x := rfl

/-- The value of a bit-vector term is a vector of its width. -/
theorem value_eval (h : t.Typed (.bitVec w)) (hI : I.WellSorted) :
    t.eval I = (bits (t.eval I)).value := by
  obtain ⟨x, hx⟩ := h.eval_bitVec hI
  rw [hx]
  rfl

theorem width_eval (h : t.Typed (.bitVec w)) (hI : I.WellSorted) :
    (bits (t.eval I)).width = w := by
  obtain ⟨x, hx⟩ := h.eval_bitVec hI
  rw [hx]
  rfl

/-- The operation that a node for two bit-vectors stands for. -/
def operation : BitOp → Bits → Bits → Bits
  | .and => Bits.and
  | .or => Bits.or
  | .xor => Bits.xor
  | .add => Bits.add
  | .sub => Bits.sub
  | .mul => Bits.mul
  | .udiv => Bits.udiv
  | .urem => Bits.urem
  | .sdiv => Bits.sdiv
  | .srem => Bits.srem
  | .shl => Bits.shl
  | .lshr => Bits.lshr
  | .ashr => Bits.ashr

/-- A shift by more than the width is one by the width. -/
theorem sshiftRight_min (x : BitVec w) (step : Nat) :
    x.sshiftRight (min step w) = x.sshiftRight step := by
  by_cases hstep : step < w
  · rw [Nat.min_eq_left (Nat.le_of_lt hstep)]
  · apply BitVec.eq_of_getLsbD_eq
    intro i hi
    rw [BitVec.getLsbD_sshiftRight, BitVec.getLsbD_sshiftRight, if_neg (by omega),
      if_neg (by omega)]

theorem operation_ofBitVec (op : BitOp) (x y : BitVec w) :
    operation op (.ofBitVec x) (.ofBitVec y) = .ofBitVec (Value.bitResult op x y) := by
  cases op with
  | shl =>
    by_cases hshift : y.toNat < w
    · simp [operation, Value.bitResult, hshift]
    · have hzero := BitVec.shiftLeft_eq_zero (x := x) (Nat.le_of_not_lt hshift)
      simp [operation, Value.bitResult, hshift, hzero]
  | lshr =>
    by_cases hshift : y.toNat < w
    · simp [operation, Value.bitResult, hshift]
    · have hzero := BitVec.ushiftRight_eq_zero (x := x) (Nat.le_of_not_lt hshift)
      simp [operation, Value.bitResult, hshift, hzero]
  | ashr => rw [Value.bitResult, sshiftRight_min, operation, Bits.ashr_ofBitVec]
  | _ => simp [operation, Value.bitResult]

/-! ### Nodes -/

/-- A node with the sort and the values that its operands give it. -/
theorem builds_node {value : Interpretation → Value} (hfits : t.fits = true)
    (hoperands : ∀ a ∈ t.operands, a.WellSorted) (hsort : t.sort = sort)
    (hvalue : ∀ I : Interpretation, I.WellSorted → t.eval I = value I) :
    Builds (checked t) sort value := by
  have h := builds_checked hfits hoperands
  rw [hsort] at h
  exact h.congr hvalue

/-- A step after one that has succeeded. -/
theorem builds_after {α ε : Type} {x : Except ε α} {c : α} {f : α → Except ε Term}
    {value : Interpretation → Value} (hx : x = .ok c) (h : Builds (f c) sort value) :
    Builds (x >>= f) sort value := by
  rw [hx]
  exact h

theorem builds_mkBitOp (op : BitOp) (ha : a.Typed (.bitVec w)) (hb : b.Typed (.bitVec w)) :
    Builds (mkBitOp op a b) (.bitVec w)
      fun I => (operation op (bits (a.eval I)) (bits (b.eval I))).value := by
  unfold mkBitOp
  rw [needWidth_eq ha]
  apply builds_node
  · simp [fits, ha.isBitVec, ha.sort_eq, hb.sort_eq]
  · simpa [operands] using ⟨ha.wellSorted, hb.wellSorted⟩
  · exact ha.sort_eq
  · intro I hI
    obtain ⟨x, hx⟩ := ha.eval_bitVec hI
    obtain ⟨y, hy⟩ := hb.eval_bitVec hI
    rw [eval, hx, hy, bits_bitVec, bits_bitVec, operation_ofBitVec, Value.bitOp,
      BitVec.setWidth_eq]
    rfl

/-- The node of an operator on one bit-vector. -/
def VectorUnary.node : VectorUnary → BitUnary
  | .not => .not
  | .neg => .neg

theorem builds_mkBitUnary (op : VectorUnary) (ha : a.Typed (.bitVec w)) :
    Builds (mkBitUnary op.node a) (.bitVec w) fun I => (op.apply (bits (a.eval I))).value := by
  unfold mkBitUnary
  rw [needWidth_eq ha]
  apply builds_node
  · exact ha.isBitVec
  · simpa [operands] using ha.wellSorted
  · exact ha.sort_eq
  · intro I hI
    obtain ⟨x, hx⟩ := ha.eval_bitVec hI
    rw [eval, hx, bits_bitVec]
    cases op with
    | not => rw [VectorUnary.apply, Bits.not_ofBitVec]; rfl
    | neg => rw [VectorUnary.apply, Bits.neg_ofBitVec]; rfl

/-- The negation of the operation of a node. -/
theorem builds_mkBitNegated (op : BitOp) (ha : a.Typed (.bitVec w)) (hb : b.Typed (.bitVec w)) :
    Builds (mkBitNegated op a b) (.bitVec w)
      fun I => (operation op (bits (a.eval I)) (bits (b.eval I))).not.value := by
  refine (builds_mkBitOp op ha hb).bind fun u hu huval => ?_
  refine (builds_mkBitUnary .not hu).congr fun I hI => ?_
  rw [huval I hI, bits_value]
  rfl

/-- The relation that a node for an order stands for. -/
def relation : BitOrder → Bits → Bits → Bool
  | .ult => Bits.ult
  | .ule => Bits.ule
  | .slt => Bits.slt
  | .sle => Bits.sle

theorem builds_mkBitOrder (op : BitOrder) (ha : a.Typed (.bitVec w)) (hb : b.Typed (.bitVec w)) :
    Builds (mkBitOrder op a b) .bool
      fun I => .bool (relation op (bits (a.eval I)) (bits (b.eval I))) := by
  unfold mkBitOrder
  rw [needWidth_eq ha]
  apply builds_node
  · simp [fits, ha.isBitVec, ha.sort_eq, hb.sort_eq]
  · simpa [operands] using ⟨ha.wellSorted, hb.wellSorted⟩
  · rfl
  · intro I hI
    obtain ⟨x, hx⟩ := ha.eval_bitVec hI
    obtain ⟨y, hy⟩ := hb.eval_bitVec hI
    rw [eval, hx, hy, bits_bitVec, bits_bitVec]
    simp only [Value.bitOrder, BitVec.setWidth_eq]
    cases op <;> simp [relation]

/-- Two bit-vector values are the same thing only if they are the same. -/
theorem equals_bitVec (x y : BitVec w) :
    Value.equals (.bitVec w x) (.bitVec w y) = decide (x = y) := by
  simp [Value.equals, Value.normal]

theorem builds_mkBitEqual (ha : a.Typed (.bitVec w)) (hb : b.Typed (.bitVec w)) :
    Builds (mkBitEqual a b) (.bitVec 1)
      fun I => ((bits (a.eval I)).comp (bits (b.eval I))).value := by
  unfold mkBitEqual
  apply builds_node
  · simp [fits, ha.isBitVec, ha.sort_eq, hb.sort_eq]
  · simpa [operands] using ⟨ha.wellSorted, hb.wellSorted⟩
  · rfl
  · intro I hI
    obtain ⟨x, hx⟩ := ha.eval_bitVec hI
    obtain ⟨y, hy⟩ := hb.eval_bitVec hI
    rw [eval, hx, hy, equals_bitVec, bits_bitVec, bits_bitVec, Bits.comp_ofBitVec, value_ofBitVec,
      Value.bit]
    simp

/-- Equality of two bit-vectors. -/
theorem builds_mkSame_bitVec (ha : a.Typed (.bitVec w)) (hb : b.Typed (.bitVec w)) :
    Builds (mkSame a b) .bool
      fun I => .bool (decide (bits (a.eval I) = bits (b.eval I))) := by
  unfold mkSame
  rw [ha.isBool_bitVec]
  apply builds_node
  · simp [fits, ha.isBool_bitVec, ha.sort_eq, hb.sort_eq]
  · simpa [operands] using ⟨ha.wellSorted, hb.wellSorted⟩
  · rfl
  · intro I hI
    obtain ⟨x, hx⟩ := ha.eval_bitVec hI
    obtain ⟨y, hy⟩ := hb.eval_bitVec hI
    rw [eval, hx, hy, equals_bitVec, bits_bitVec, bits_bitVec]
    simp only [Bits.ofBitVec_inj]

theorem builds_mkConcat (ha : a.Typed (.bitVec w)) (hb : b.Typed (.bitVec v)) :
    Builds (mkConcat a b) (.bitVec (w + v))
      fun I => ((bits (a.eval I)).concat (bits (b.eval I))).value := by
  unfold mkConcat
  rw [needWidth_eq ha, needWidth_eq hb]
  apply builds_node
  · simp [fits, ha.isBitVec, hb.isBitVec]
  · simpa [operands] using ⟨ha.wellSorted, hb.wellSorted⟩
  · rw [Term.sort, ha.sort_eq, hb.sort_eq]
    rfl
  · intro I hI
    obtain ⟨x, hx⟩ := ha.eval_bitVec hI
    obtain ⟨y, hy⟩ := hb.eval_bitVec hI
    rw [eval, hx, hy, bits_bitVec, bits_bitVec, Bits.concat_ofBitVec]
    rfl

theorem builds_mkExtract {high low : Nat} (hlow : low ≤ high) (hhigh : high < w)
    (ha : a.Typed (.bitVec w)) :
    Builds (mkExtract high low a) (.bitVec (high + 1 - low))
      fun I => ((bits (a.eval I)).extract high low).value := by
  have hwidth : a.sort.width = w := by rw [ha.sort_eq]; rfl
  have hcount : high + 1 - low ≤ w := by omega
  have hguard : (decide (high + 1 - low ≤ w) && decide (low ≤ high)) = true := by simp [*]
  unfold mkExtract
  rw [needWidth_eq ha]
  show Builds (if (decide (high + 1 - low ≤ w) && decide (low ≤ high)) = true then _ else _) _ _
  rw [if_pos hguard]
  apply builds_node
  · simp [fits, ha.isBitVec, hwidth, hlow, hhigh]
  · simpa [operands] using ha.wellSorted
  · rfl
  · intro I hI
    obtain ⟨x, hx⟩ := ha.eval_bitVec hI
    rw [eval, hx, bits_bitVec, Bits.extract_ofBitVec]
    rfl

theorem builds_mkRotate (side : Side) {step : Nat} (hstep : step ≤ w) (ha : a.Typed (.bitVec w)) :
    Builds (mkRotate side step a) (.bitVec w)
      fun I => ((bits (a.eval I)).rotate side step).value := by
  have hwidth : a.sort.width = w := by rw [ha.sort_eq]; rfl
  unfold mkRotate
  rw [needWidth_eq ha]
  apply builds_node
  · simp [fits, ha.isBitVec, hwidth, hstep]
  · simpa [operands] using ha.wellSorted
  · exact ha.sort_eq
  · intro I hI
    obtain ⟨x, hx⟩ := ha.eval_bitVec hI
    rw [eval, hx, bits_bitVec, Bits.rotate_ofBitVec]
    rfl

/-- A widening by zeros or by copies of the sign. -/
def widened (bits : Widening) (extra : Nat) (a : Bits) : Bits :=
  match bits with
  | .zeros => a.zeroExtend extra
  | .signs => a.signExtend extra

theorem builds_mkWiden (widening : Widening) (extra : Nat) (ha : a.Typed (.bitVec w)) :
    Builds (mkWiden widening extra a) (.bitVec (w + extra))
      fun I => (widened widening extra (bits (a.eval I))).value := by
  unfold mkWiden
  rw [needWidth_eq ha]
  apply builds_node
  · exact ha.isBitVec
  · simpa [operands] using ha.wellSorted
  · rw [Term.sort, ha.sort_eq]
    rfl
  · intro I hI
    obtain ⟨x, hx⟩ := ha.eval_bitVec hI
    rw [eval, hx, bits_bitVec]
    cases widening with
    | zeros => rw [widened, Bits.zeroExtend_ofBitVec]; rfl
    | signs => rw [widened, Bits.signExtend_ofBitVec]; rfl

/-! ### Repetition -/

theorem builds_mkCopies (copies : Nat) (ha : a.Typed (.bitVec w)) :
    Builds (mkCopies a copies) (.bitVec ((copies + 1) * w))
      fun I => ((bits (a.eval I)).repeated (copies + 1)).value := by
  induction copies with
  | zero =>
    rw [Nat.zero_add, Nat.one_mul]
    refine (Builds.ok ha).congr fun I hI => ?_
    rw [value_eval ha hI, Bits.repeated_one, bits_value]
  | succ copies ih =>
    have hwidth : (copies + 1) * w + w = (copies + 1 + 1) * w := (Nat.succ_mul _ _).symm
    rw [← hwidth]
    refine ih.bind fun u hu huval => ?_
    refine (builds_mkConcat hu ha).congr fun I hI => ?_
    rw [huval I hI, bits_value, ← Bits.repeated_succ]

theorem builds_mkRepeat {count : Nat} (hcount : 1 ≤ count) (ha : a.Typed (.bitVec w)) :
    Builds (mkRepeat count a) (.bitVec (count * w))
      fun I => ((bits (a.eval I)).repeated count).value := by
  have h := builds_mkCopies (count - 1) ha
  rw [Nat.sub_add_cancel hcount] at h
  exact h

/-! ### The remainder that follows the divisor -/

/-- Whether a term is the sign bit of another. -/
structure IsSign (sign a : Term) : Prop where
  typed : sign.Typed (.bitVec 1)
  value : ∀ I : Interpretation, I.WellSorted → bits (sign.eval I) = (bits (a.eval I)).signBit

theorem mkExtract_sign (hw : 1 ≤ w) (ha : a.Typed (.bitVec w)) :
    ∃ sign, mkExtract (w - 1) (w - 1) a = .ok sign ∧ IsSign sign a := by
  have hone : w - 1 + 1 - (w - 1) = 1 := by omega
  obtain ⟨sign, hsign, htyped, hvalue⟩ :=
    builds_mkExtract (Nat.le_refl (w - 1)) (by omega : w - 1 < w) ha
  refine ⟨sign, hsign, hone ▸ htyped, fun I hI => ?_⟩
  rw [hvalue I hI, bits_value, Bits.signBit, width_eval ha hI]

/-- A sign is asked whether it is a certain bit. -/
theorem IsSign.builds_mkSame (h : IsSign sign a) {x : BitVec 1} (bit : Bool)
    (hx : Bits.ofBitVec x = .ofNumber 1 bit.toNat) :
    Builds (mkSame sign (.bitVec 1 x)) .bool
      fun I => .bool (decide ((bits (a.eval I)).isNegative = bit)) := by
  refine (builds_mkSame_bitVec h.typed (typed_bitVec x)).congr fun I hI => ?_
  rw [h.value I hI, eval, bits_bitVec, hx]
  simp only [Bits.signBit_eq_iff]

theorem IsSign.builds_mkBitAbs (h : IsSign sign a) (ha : a.Typed (.bitVec w)) :
    Builds (mkBitAbs sign a) (.bitVec w) fun I => (bits (a.eval I)).abs.value := by
  refine (h.builds_mkSame (x := 0) false rfl).bind fun test htest htval => ?_
  refine (builds_mkBitUnary .neg ha).bind fun opposite hopposite hoval => ?_
  refine (builds_mkIte htest ha hopposite).congr fun I hI => ?_
  rw [htval I hI, hoval I hI, value_eval ha hI, bits_value, Bits.abs]
  cases (bits (a.eval I)).isNegative <;> rfl

/-- A step that goes on with whether two signs are certain bits. -/
theorem builds_signs {value : Interpretation → Value} {next : Term → Except Fault Term}
    (hls : IsSign sign a) (hrs : IsSign sign' b) {x y : BitVec 1} (left right : Bool)
    (hx : Bits.ofBitVec x = .ofNumber 1 left.toNat) (hy : Bits.ofBitVec y = .ofNumber 1 right.toNat)
    (h : ∀ both : Term, both.Typed .bool →
      (∀ I : Interpretation, I.WellSorted → both.eval I = .bool (decide
        ((bits (a.eval I)).isNegative = left ∧ (bits (b.eval I)).isNegative = right))) →
      Builds (next both) sort value) :
    Builds (do
      let p ← mkSame sign (.bitVec 1 x)
      let q ← mkSame sign' (.bitVec 1 y)
      let both ← mkAnd [p, q]
      next both) sort value := by
  refine (hls.builds_mkSame left hx).bind fun p hp hpval => ?_
  refine (hrs.builds_mkSame right hy).bind fun q hq hqval => ?_
  have htests : ∀ t ∈ [p, q], t.Typed .bool := by simpa using ⟨hp, hq⟩
  refine (builds_mkAnd htests).bind fun both hboth hval => ?_
  refine h both hboth fun I hI => ?_
  simp [hval I hI, hpval I hI, hqval I hI, Value.isTrue]

/-- The four cases of signs, and that of no remainder, are those of the standard. -/
theorem builds_mkSMod (hw : 1 ≤ w) (ha : a.Typed (.bitVec w)) (hb : b.Typed (.bitVec w)) :
    Builds (mkSMod a b) (.bitVec w)
      fun I => ((bits (a.eval I)).smod (bits (b.eval I))).value := by
  obtain ⟨leftSign, hleftSign, hls⟩ := mkExtract_sign hw ha
  obtain ⟨rightSign, hrightSign, hrs⟩ := mkExtract_sign hw hb
  unfold mkSMod
  refine builds_after (needWidth_eq ha) ?_
  refine builds_after hleftSign (builds_after hrightSign ?_)
  refine Builds.bind (hls.builds_mkBitAbs ha) fun leftAbs hleftAbs hlaval => ?_
  refine (hrs.builds_mkBitAbs hb).bind fun rightAbs hrightAbs hraval => ?_
  refine (builds_mkBitOp .urem hleftAbs hrightAbs).bind fun rest hrest hrestval => ?_
  refine (builds_mkBitUnary .neg hrest).bind fun negRest hnegRest hnegval => ?_
  -- The conditions: no remainder, or signs that leave it as it is; then the other cases of signs.
  refine (builds_mkSame_bitVec hrest (typed_bitVec 0)).bind fun isZero hisZero hzeroval => ?_
  refine builds_signs hls hrs false false rfl rfl fun positive hpositive hposval => ?_
  have htests : ∀ t ∈ [isZero, positive], t.Typed .bool := by simpa using ⟨hisZero, hpositive⟩
  refine (builds_mkOr htests).bind fun asIs hasIs hasIsval => ?_
  refine builds_signs hls hrs true false rfl rfl fun leftNeg hleftNeg hlnval => ?_
  refine builds_signs hls hrs false true rfl rfl fun rightNeg hrightNeg hrnval => ?_
  refine (builds_mkBitOp .add hnegRest hb).bind fun onLeft honLeft hlval => ?_
  refine (builds_mkBitOp .add hrest hb).bind fun onRight honRight hrval => ?_
  refine (builds_mkIte hrightNeg honRight hnegRest).bind fun second hsecond hsecval => ?_
  refine (builds_mkIte hleftNeg honLeft hsecond).bind fun first hfirst hfirstval => ?_
  refine (builds_mkIte hasIs hrest hfirst).congr fun I hI => ?_
  have hwidth := width_eval ha hI
  have hzero : (Term.bitVec w 0).eval I = (Bits.ofNumber w 0).value := by rw [eval]; rfl
  simp only [hasIsval I hI, hfirstval I hI, hsecval I hI, hlval I hI, hrval I hI, hnegval I hI,
    hrestval I hI, hlaval I hI, hraval I hI, hzeroval I hI, hposval I hI, hlnval I hI, hrnval I hI,
    hzero, bits_value, operation, VectorUnary.apply, Bits.smod, hwidth, Value.isTrue, List.any_cons,
    List.any_nil, Bool.or_false]
  generalize (bits (a.eval I)).abs.urem (bits (b.eval I)).abs = r
  by_cases hr : r = Bits.ofNumber w 0
  · simp [hr]
  · cases (bits (a.eval I)).isNegative <;> cases (bits (b.eval I)).isNegative <;> simp [hr]

end Standard

end SmtScript
