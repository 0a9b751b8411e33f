import SmtScript.Proofs.Standard.Bits

/-!
Operations on bit-vectors are what the standard says.

Each operation of the standard on the numbers of bit-vectors is one on the bit-vectors themselves,
`Standard.Bits.add_ofBitVec` and so on.
-/

namespace SmtScript

namespace Standard

namespace Bits

variable {w v : Nat} (x y : BitVec w) (z : BitVec v)

/-- Vectors of one width are the same if they write the same number. -/
theorem ofNumber_eq_ofBitVec {n : Nat} (h : n % 2 ^ w = x.toNat) : ofNumber w n = ofBitVec x :=
  Bits.ext rfl h

theorem ofNumber_toNat : ofNumber w x.toNat = ofBitVec x :=
  ofNumber_eq_ofBitVec x (Nat.mod_eq_of_lt x.isLt)

theorem ofBitVec_inj : ofBitVec x = ofBitVec y ↔ x = y := by
  constructor
  · intro h
    exact BitVec.eq_of_toNat_eq (congrArg Bits.number h)
  · intro h
    rw [h]

theorem eq_ofBitVec {a : Bits} (h : a.width = w) : ∃ x : BitVec w, a = ofBitVec x := by
  subst h
  exact ⟨.ofNatLT a.number a.number_lt, rfl⟩

/-! ### The theory -/

theorem number_append : (ofBitVec (x ++ z)).number = x.toNat * 2 ^ v + z.toNat := by
  show (x ++ z).toNat = _
  rw [BitVec.toNat_append, Nat.shiftLeft_eq, Nat.mul_comm, Nat.two_pow_add_eq_or_of_lt z.isLt]

@[simp] theorem concat_ofBitVec : (ofBitVec x).concat (ofBitVec z) = ofBitVec (x ++ z) := by
  show ofNumber (w + v) (x.toNat * 2 ^ v + z.toNat) = _
  rw [← number_append]
  exact ofNumber_toNat (x ++ z)

@[simp] theorem extract_ofBitVec (high low : Nat) :
    (ofBitVec x).extract high low = ofBitVec (x.extractLsb' low (high + 1 - low)) := by
  apply ofNumber_eq_ofBitVec
  rw [BitVec.extractLsb'_toNat, Nat.shiftRight_eq_div_pow]
  rfl

@[simp] theorem not_ofBitVec : (ofBitVec x).not = ofBitVec (~~~x) := by
  show ofNumber w (2 ^ w - 1 - x.toNat) = _
  rw [← BitVec.toNat_not, ofNumber_toNat]

@[simp] theorem and_ofBitVec : (ofBitVec x).and (ofBitVec y) = ofBitVec (x &&& y) := by
  show ofNumber w (x.toNat &&& y.toNat) = _
  rw [← BitVec.toNat_and, ofNumber_toNat]

@[simp] theorem or_ofBitVec : (ofBitVec x).or (ofBitVec y) = ofBitVec (x ||| y) := by
  show ofNumber w (x.toNat ||| y.toNat) = _
  rw [← BitVec.toNat_or, ofNumber_toNat]

@[simp] theorem neg_ofBitVec : (ofBitVec x).neg = ofBitVec (-x) :=
  ofNumber_eq_ofBitVec _ (BitVec.toNat_neg x).symm

@[simp] theorem add_ofBitVec : (ofBitVec x).add (ofBitVec y) = ofBitVec (x + y) :=
  ofNumber_eq_ofBitVec _ (BitVec.toNat_add x y).symm

@[simp] theorem mul_ofBitVec : (ofBitVec x).mul (ofBitVec y) = ofBitVec (x * y) :=
  ofNumber_eq_ofBitVec _ (BitVec.toNat_mul x y).symm

@[simp] theorem udiv_ofBitVec : (ofBitVec x).udiv (ofBitVec y) = ofBitVec (x.smtUDiv y) := by
  have hzero : y = 0#w ↔ y.toNat = 0 := BitVec.toNat_eq
  show ofNumber w (if y.toNat = 0 then 2 ^ w - 1 else x.toNat / y.toNat) = _
  rw [BitVec.smtUDiv_eq]
  split
  · rw [if_pos (hzero.mpr ‹_›), ← BitVec.toNat_allOnes, ofNumber_toNat]
  · rw [if_neg (hzero.not.mpr ‹_›), ← BitVec.toNat_udiv, ofNumber_toNat]

@[simp] theorem urem_ofBitVec : (ofBitVec x).urem (ofBitVec y) = ofBitVec (x % y) := by
  show ofNumber w (if y.toNat = 0 then x.toNat else x.toNat % y.toNat) = _
  have hnumber : (if y.toNat = 0 then x.toNat else x.toNat % y.toNat) = (x % y).toNat := by
    rw [BitVec.toNat_umod]
    split
    · rw [‹y.toNat = 0›, Nat.mod_zero]
    · rfl
  rw [hnumber, ofNumber_toNat]

/-- A shift by the width or more leaves nothing. -/
@[simp] theorem shl_ofBitVec : (ofBitVec x).shl (ofBitVec y) = ofBitVec (x <<< y.toNat) := by
  have hnumber : x.toNat * 2 ^ y.toNat % 2 ^ w = (x <<< y.toNat).toNat := by
    rw [BitVec.toNat_shiftLeft, Nat.shiftLeft_eq]
  exact ofNumber_eq_ofBitVec _ hnumber

@[simp] theorem lshr_ofBitVec : (ofBitVec x).lshr (ofBitVec y) = ofBitVec (x >>> y.toNat) := by
  show ofNumber w (x.toNat / 2 ^ y.toNat) = _
  rw [← Nat.shiftRight_eq_div_pow, ← BitVec.toNat_ushiftRight, ofNumber_toNat]

@[simp] theorem ult_ofBitVec : (ofBitVec x).ult (ofBitVec y) = x.ult y := rfl

/-! ### Abbreviations -/

theorem signBit_ofBitVec : (ofBitVec x).signBit = ofNumber 1 x.msb.toNat := by
  have hwidth : w - 1 + 1 - (w - 1) = 1 := by omega
  have hnumber : x.toNat / 2 ^ (w - 1) % 2 = x.msb.toNat % 2 := by
    rw [BitVec.msb_eq_getLsbD_last, BitVec.getLsbD, Nat.toNat_testBit, Nat.mod_mod]
  show ofNumber (w - 1 + 1 - (w - 1)) (x.toNat / 2 ^ (w - 1)) = _
  rw [hwidth]
  exact Bits.ext rfl hnumber

@[simp] theorem isNegative_ofBitVec : (ofBitVec x).isNegative = x.msb := by
  rw [isNegative, signBit_ofBitVec x]
  cases x.msb <;> decide

/-- The sign bit says whether a vector is negative. -/
theorem signBit_eq_iff (a : Bits) (bit : Bool) :
    a.signBit = ofNumber 1 bit.toNat ↔ a.isNegative = bit := by
  obtain ⟨w, hw⟩ : ∃ w, a.width = w := ⟨_, rfl⟩
  obtain ⟨x, rfl⟩ := eq_ofBitVec hw
  rw [signBit_ofBitVec, isNegative_ofBitVec]
  cases x.msb <;> cases bit <;> decide

@[simp] theorem nand_ofBitVec : (ofBitVec x).nand (ofBitVec y) = ofBitVec (~~~(x &&& y)) := by
  simp [nand]

@[simp] theorem nor_ofBitVec : (ofBitVec x).nor (ofBitVec y) = ofBitVec (~~~(x ||| y)) := by
  simp [nor]

@[simp] theorem xor_ofBitVec : (ofBitVec x).xor (ofBitVec y) = ofBitVec (x ^^^ y) := by
  have h : x &&& ~~~y ||| ~~~x &&& y = x ^^^ y := by
    ext i
    simp only [BitVec.getElem_or, BitVec.getElem_and, BitVec.getElem_not, BitVec.getElem_xor]
    cases x[i] <;> cases y[i] <;> rfl
  simp [xor, h]

@[simp] theorem xnor_ofBitVec : (ofBitVec x).xnor (ofBitVec y) = ofBitVec (~~~(x ^^^ y)) := by
  have h : x &&& y ||| ~~~x &&& ~~~y = ~~~(x ^^^ y) := by
    ext i
    simp only [BitVec.getElem_or, BitVec.getElem_and, BitVec.getElem_not, BitVec.getElem_xor]
    cases x[i] <;> cases y[i] <;> rfl
  simp [xnor, h]

theorem not_xor {a b : Bits} (h : a.width = b.width) : (a.xor b).not = a.xnor b := by
  obtain ⟨w, hw⟩ : ∃ w, b.width = w := ⟨_, rfl⟩
  obtain ⟨x, rfl⟩ := eq_ofBitVec (h.trans hw)
  obtain ⟨y, rfl⟩ := eq_ofBitVec hw
  rw [xor_ofBitVec, not_ofBitVec, xnor_ofBitVec]

@[simp] theorem sub_ofBitVec : (ofBitVec x).sub (ofBitVec y) = ofBitVec (x - y) := by
  rw [sub, neg_ofBitVec, add_ofBitVec, ← BitVec.sub_eq_add_neg]

@[simp] theorem comp_ofBitVec :
    (ofBitVec x).comp (ofBitVec y) = ofBitVec (if x = y then 1#1 else 0#1) := by
  simp only [comp, ofBitVec_inj]
  split <;> rfl

@[simp] theorem abs_ofBitVec : (ofBitVec x).abs = ofBitVec x.abs := by
  rw [abs, isNegative_ofBitVec, BitVec.abs]
  split <;> simp

@[simp] theorem sdiv_ofBitVec : (ofBitVec x).sdiv (ofBitVec y) = ofBitVec (x.smtSDiv y) := by
  rw [sdiv, isNegative_ofBitVec, isNegative_ofBitVec, BitVec.smtSDiv_eq]
  cases x.msb <;> cases y.msb <;> simp

@[simp] theorem srem_ofBitVec : (ofBitVec x).srem (ofBitVec y) = ofBitVec (x.srem y) := by
  rw [srem, isNegative_ofBitVec, isNegative_ofBitVec, BitVec.srem_eq]
  cases x.msb <;> cases y.msb <;> simp

/-- The remainders of the absolute values are those of the four cases of signs. -/
@[simp] theorem smod_ofBitVec : (ofBitVec x).smod (ofBitVec y) = ofBitVec (x.smod y) := by
  have hzero (r : BitVec w) : ofBitVec r = ofNumber w 0 ↔ r = 0#w := ofBitVec_inj r 0#w
  have hwidth : (ofBitVec x).width = w := rfl
  rw [smod, abs_ofBitVec, abs_ofBitVec, urem_ofBitVec, isNegative_ofBitVec, isNegative_ofBitVec,
    BitVec.smod_eq]
  simp only [hwidth, hzero, BitVec.abs_eq, BitVec.umod_eq]
  cases x.msb <;> cases y.msb <;> simp only [Bool.false_eq_true, if_true, if_false]
  · split <;> rfl
  · split <;> simp
  · split
    · rfl
    · rw [neg_ofBitVec, add_ofBitVec, BitVec.add_comm, ← BitVec.sub_eq_add_neg]
  · split
    · rw [‹-x % -y = 0#w›, BitVec.neg_zero]
    · rw [neg_ofBitVec]

@[simp] theorem ashr_ofBitVec :
    (ofBitVec x).ashr (ofBitVec y) = ofBitVec (x.sshiftRight y.toNat) := by
  rw [ashr, isNegative_ofBitVec]
  cases hmsb : x.msb with
  | false => simp [BitVec.sshiftRight_eq_of_msb_false hmsb]
  | true => simp [BitVec.sshiftRight_eq_of_msb_true hmsb]

@[simp] theorem ule_ofBitVec : (ofBitVec x).ule (ofBitVec y) = x.ule y := by
  rw [ule, ult_ofBitVec, Bool.eq_iff_iff]
  simp only [ofBitVec_inj, Bool.or_eq_true, decide_eq_true_eq, BitVec.ult, BitVec.ule,
    ← BitVec.toNat_inj]
  omega

@[simp] theorem slt_ofBitVec : (ofBitVec x).slt (ofBitVec y) = x.slt y := by
  rw [slt, isNegative_ofBitVec, isNegative_ofBitVec, ult_ofBitVec]
  by_cases h : x.msb = y.msb
  · simp [h, BitVec.slt_eq_ult_of_msb_eq h]
  · rw [BitVec.slt_eq_not_ult_of_msb_neq h, BitVec.ult_eq_msb_of_msb_neq h]
    cases hx : x.msb <;> cases hy : y.msb <;> simp_all

@[simp] theorem sle_ofBitVec : (ofBitVec x).sle (ofBitVec y) = x.sle y := by
  rw [sle, isNegative_ofBitVec, isNegative_ofBitVec, ule_ofBitVec]
  by_cases h : x.msb = y.msb
  · simp [h, BitVec.sle_eq_ule_of_msb_eq h]
  · rw [BitVec.sle_eq_ule, BitVec.ule_eq_not_ult, BitVec.ult_eq_msb_of_msb_neq (Ne.symm h)]
    cases hx : x.msb <;> cases hy : y.msb <;> simp_all

/-! ### Shapes -/

/-- Vectors are the same if they have the same bits. -/
theorem ofBitVec_eq_of_getLsbD (hwidth : w = v)
    (h : ∀ i < v, x.getLsbD i = z.getLsbD i) : ofBitVec x = ofBitVec z := by
  subst hwidth
  rw [ofBitVec_inj]
  exact BitVec.eq_of_getLsbD_eq h

theorem number_concat (a b : Bits) : (a.concat b).number = a.number * 2 ^ b.width + b.number := by
  obtain ⟨w, hw⟩ : ∃ w, a.width = w := ⟨_, rfl⟩
  obtain ⟨v, hv⟩ : ∃ v, b.width = v := ⟨_, rfl⟩
  obtain ⟨x, rfl⟩ := eq_ofBitVec hw
  obtain ⟨z, rfl⟩ := eq_ofBitVec hv
  rw [concat_ofBitVec]
  exact number_append x z

theorem concat_assoc (a b c : Bits) : (a.concat b).concat c = a.concat (b.concat c) := by
  apply Bits.ext
  · exact Nat.add_assoc a.width b.width c.width
  · simp only [number_concat]
    have hwidth : (b.concat c).width = b.width + c.width := rfl
    rw [hwidth, Nat.pow_add, Nat.add_mul, Nat.mul_assoc, Nat.add_assoc]

theorem repeated_one (a : Bits) : a.repeated 1 = a := by
  apply Bits.ext
  · exact Nat.add_zero a.width
  · simp [repeated, number_concat, ofNumber]

/-- Copies may as well be put behind each other from the left. -/
theorem repeated_succ (a : Bits) (count : Nat) :
    a.repeated (count + 1) = (a.repeated count).concat a := by
  induction count with
  | zero =>
    apply Bits.ext
    · exact Nat.add_comm a.width 0
    · simp [repeated, number_concat, ofNumber]
  | succ count ih =>
    calc a.repeated (count + 2)
      _ = a.concat ((a.repeated count).concat a) := by rw [← ih]; rfl
      _ = (a.repeated (count + 1)).concat a := by rw [← concat_assoc]; rfl

/-- Copies of one bit. -/
theorem repeated_bit (bit : Bool) (count : Nat) :
    (ofNumber 1 bit.toNat).repeated count =
      ofBitVec (if bit then BitVec.allOnes count else 0) := by
  induction count with
  | zero => cases bit <;> rfl
  | succ count ih =>
    have hbit : (ofNumber 1 bit.toNat).number = bit.toNat := by cases bit <;> rfl
    rw [repeated, ih]
    apply Bits.ext
    · exact Nat.add_comm 1 count
    · rw [number_concat, hbit]
      cases bit
      · simp [ofBitVec]
      · have hpos := Nat.two_pow_pos count
        simp only [ofBitVec, Bool.toNat_true, if_true, BitVec.toNat_allOnes, Nat.pow_succ]
        omega

@[simp] theorem zeroExtend_ofBitVec (extra : Nat) :
    (ofBitVec x).zeroExtend extra = ofBitVec (x.setWidth (w + extra)) := by
  have hzeros := repeated_bit false extra
  rw [Bool.toNat_false] at hzeros
  rw [zeroExtend, hzeros]
  apply Bits.ext
  · exact Nat.add_comm extra w
  · rw [number_concat]
    simp [ofBitVec, -BitVec.toNat_setWidth, BitVec.toNat_setWidth_of_le]

@[simp] theorem signExtend_ofBitVec (extra : Nat) :
    (ofBitVec x).signExtend extra = ofBitVec (x.signExtend (w + extra)) := by
  rw [signExtend, signBit_ofBitVec, repeated_bit]
  apply Bits.ext
  · exact Nat.add_comm extra w
  · rw [number_concat]
    simp only [ofBitVec, BitVec.toNat_signExtend,
      BitVec.toNat_setWidth_of_le (Nat.le_add_right w extra)]
    cases x.msb
    · simp
    · have hle : 2 ^ w ≤ 2 ^ (w + extra) := Nat.pow_le_pow_right Nat.two_pos (Nat.le_add_right _ _)
      simp only [if_true, BitVec.toNat_allOnes, Nat.sub_mul, Nat.one_mul, ← Nat.pow_add,
        Nat.add_comm extra w]
      omega

/-! ### Rotations -/

def rotated (side : Side) (x : BitVec w) (step : Nat) : BitVec w :=
  match side with
  | .left => x.rotateLeft step
  | .right => x.rotateRight step

/-- The place from which a rotation by fewer steps than there are bits takes a bit. -/
def source (side : Side) (width step i : Nat) : Nat :=
  match side with
  | .left => if i < step then width - step + i else i - step
  | .right => if i < width - step then step + i else i - (width - step)

variable (side : Side)

theorem getLsbD_rotated {i : Nat} (step : Nat) (hi : i < w) :
    (rotated side x step).getLsbD i = x.getLsbD (source side w (step % w) i) := by
  cases side with
  | left =>
    rw [rotated, BitVec.getLsbD_rotateLeft, source]
    split <;> simp [*]
  | right =>
    rw [rotated, BitVec.getLsbD_rotateRight, source]
    split <;> simp [*]

theorem source_zero {i : Nat} (hi : i < w) : source side w 0 i = i := by
  cases side with
  | left => rfl
  | right => simp [source, hi]

theorem source_lt {step i : Nat} (hstep : step < w) (hi : i < w) : source side w step i < w := by
  cases side <;> rw [source] <;> split <;> omega

/-- One step after some others is one more. -/
theorem source_one_source {step i : Nat} (hstep : step < w) (hi : i < w) :
    source side w 1 (source side w step i) =
      source side w (if step + 1 = w then 0 else step + 1) i := by
  cases side <;> simp only [source] <;> grind

/-- The remainder of the next number. -/
theorem succ_mod (step : Nat) (hw : 1 < w) :
    (step + 1) % w = if step % w + 1 = w then 0 else step % w + 1 := by
  have hlt := Nat.mod_lt step (by omega : 0 < w)
  rw [Nat.add_mod, Nat.mod_eq_of_lt hw]
  split
  · rw [‹step % w + 1 = w›, Nat.mod_self]
  · exact Nat.mod_eq_of_lt (by omega)

theorem rotated_zero : rotated side x 0 = x := by
  apply BitVec.eq_of_getLsbD_eq
  intro i hi
  rw [getLsbD_rotated x side 0 hi, Nat.zero_mod, source_zero side hi]

/-- A vector of at most one bit is the same however it is rotated. -/
theorem rotated_of_le_one (hw : w ≤ 1) (step : Nat) : rotated side x step = x := by
  apply BitVec.eq_of_getLsbD_eq
  intro i hi
  obtain rfl : w = 1 := by omega
  rw [getLsbD_rotated x side step hi, Nat.mod_one, source_zero side hi]

theorem rotated_rotated (step : Nat) :
    rotated side (rotated side x 1) step = rotated side x (step + 1) := by
  by_cases hw : 1 < w
  · apply BitVec.eq_of_getLsbD_eq
    intro i hi
    have hlt := Nat.mod_lt step (by omega : 0 < w)
    rw [getLsbD_rotated _ side step hi, getLsbD_rotated x side 1 (source_lt side hlt hi),
      getLsbD_rotated x side _ hi, succ_mod step hw, Nat.mod_eq_of_lt hw,
      source_one_source side hlt hi]
  · have hw : w ≤ 1 := Nat.le_of_not_lt hw
    simp only [rotated_of_le_one _ side hw]

theorem rotateOnce_ofBitVec : (ofBitVec x).rotateOnce side = ofBitVec (rotated side x 1) := by
  have hw : (ofBitVec x).width = w := rfl
  rw [rotateOnce.eq_def, hw]
  split
  · rw [rotated_of_le_one x side ‹w ≤ 1›]
  · have hwidth : 1 < w := Nat.lt_of_not_le ‹¬w ≤ 1›
    cases side with
    | left =>
      simp only [extract_ofBitVec, concat_ofBitVec]
      apply ofBitVec_eq_of_getLsbD
      · omega
      · intro i hi
        rw [getLsbD_rotated x .left 1 hi, Nat.mod_eq_of_lt hwidth, BitVec.getLsbD_append]
        simp only [BitVec.getLsbD_extractLsb', source]
        grind
    | right =>
      simp only [extract_ofBitVec, concat_ofBitVec]
      apply ofBitVec_eq_of_getLsbD
      · omega
      · intro i hi
        rw [getLsbD_rotated x .right 1 hi, Nat.mod_eq_of_lt hwidth, BitVec.getLsbD_append]
        simp only [BitVec.getLsbD_extractLsb', source]
        by_cases hmoved : i < w - 1
        · simp [hmoved]
        · obtain rfl : i = w - 1 := by omega
          simp

@[simp] theorem rotate_ofBitVec (step : Nat) :
    (ofBitVec x).rotate side step = ofBitVec (rotated side x step) := by
  induction step generalizing x with
  | zero => rw [rotate, rotated_zero]
  | succ step ih => rw [rotate, rotateOnce_ofBitVec, ih, rotated_rotated]

/-! ### Signed numbers -/

theorem signed_ofBitVec : (ofBitVec x).signed = x.toInt := by
  rw [signed, isNegative_ofBitVec, BitVec.toInt_eq_msb_cond]
  split <;> simp [ofBitVec]

theorem isModulo_smod {a b : Bits} (h : a.width = b.width) : IsModulo a b (a.smod b) := by
  obtain ⟨w, hw⟩ : ∃ w, b.width = w := ⟨_, rfl⟩
  obtain ⟨x, rfl⟩ := eq_ofBitVec (h.trans hw)
  obtain ⟨y, rfl⟩ := eq_ofBitVec hw
  have hfmod : ((ofBitVec x).smod (ofBitVec y)).signed = x.toInt.fmod y.toInt := by
    rw [smod_ofBitVec, signed_ofBitVec, BitVec.toInt_smod]
  constructor <;> rw [hfmod]
  · rw [signed_ofBitVec, signed_ofBitVec]
    have hsplit := Int.fmod_add_mul_fdiv x.toInt y.toInt
    exact ⟨x.toInt.fdiv y.toInt, by omega⟩
  · rw [signed_ofBitVec]
    intro hpos
    exact ⟨Int.fmod_nonneg_of_pos _ hpos, Int.fmod_lt_of_pos _ hpos⟩
  · rw [signed_ofBitVec]
    intro hneg
    have hpos : 0 < -y.toInt := by omega
    have hopposite := Int.neg_fmod_neg x.toInt y.toInt
    have hnonneg := Int.fmod_nonneg_of_pos (-x.toInt) hpos
    have hlt := Int.fmod_lt_of_pos (-x.toInt) hpos
    omega

end Bits

end Standard

end SmtScript
