import SmtScript.Proofs.Literal
import SmtScript.Proofs.SortTable
import SmtScript.Term.Printer

/-!
Constants are read from what they are printed as.

Numbers are printed without a sign here; a sign is an operator of its own. The bits of a bit-vector
are printed from the most significant one on, `Literal.positional_bits`.
-/

namespace SmtScript

namespace Literal

theorem allDigits_toString (n : Nat) : AllDigits (toString n).toList :=
  fun _ => isDigit_of_mem_toString

theorem number_toString (n : Nat) : number (toString n).toList = n := by
  rw [← decimal_eq_number, decimal_toString]

theorem read_toString (n : Nat) : read (toString n) = .ok (.int n) := by
  have h := Denotes.int .none (toList_toString_ne_nil n) (allDigits_toString n)
  rw [number_toString, one_mul, List.nil_append] at h
  exact read_of_denotes h

theorem number_append_zero (digits : List Char) :
    number (digits ++ ['0']) = 10 * number digits := by
  have hzero : digitValue '0' = 0 := by decide
  simp [number, Nat.ofDigits_cons, hzero]

theorem read_point (n : Nat) : read (toString n ++ ".0") = .ok (.real n) := by
  have hzero : AllDigits ['0'] := by simp [AllDigits]
  have h := Denotes.point .none (allDigits_toString n) hzero (by simp) .none
  have htext :
      (toString n ++ ".0").toList = [] ++ ((toString n).toList ++ '.' :: (['0'] ++ [])) := by
    simp
  rw [← htext] at h
  rw [read_of_denotes h, number_append_zero, number_toString]
  norm_num
  ring

/-- The bits of a number, the most significant first. -/
theorem positional_bits {width : Nat} (v : BitVec width) (k : Nat) (hk : k ≤ width) :
    positional 2 ((List.range k).map fun i => (v.getMsbD i).toNat) = v.toNat / 2 ^ (width - k) := by
  induction k with
  | zero =>
    rw [Nat.sub_zero, Nat.div_eq_of_lt v.isLt]
    rfl
  | succ k ih =>
    rw [List.range_succ, List.map_append, List.map_singleton, positional_append_singleton,
      ih (by omega)]
    obtain ⟨j, hj⟩ : ∃ j, width - k = j + 1 := ⟨width - k - 1, by omega⟩
    have hbit : v.getMsbD k = decide (v.toNat / 2 ^ j % 2 = 1) := by
      rw [BitVec.getMsbD, BitVec.getLsbD, Nat.testBit_eq_decide_div_mod_eq]
      simp [show width - 1 - k = j by omega, show k < width by omega]
    rw [hbit, hj, show width - (k + 1) = j by omega, Nat.pow_succ, ← Nat.div_div_eq_div_mul]
    by_cases hodd : v.toNat / 2 ^ j % 2 = 1
    · simp [hodd]; omega
    · simp [hodd]; omega

theorem mapM_bitValue? {width : Nat} (v : BitVec width) (indices : List Nat) :
    (indices.map fun i => if v.getMsbD i then '1' else '0').mapM bitValue? =
      some (indices.map fun i => (v.getMsbD i).toNat) := by
  induction indices with
  | nil => rfl
  | cons i rest ih =>
    rw [List.map_cons, List.map_cons, List.mapM_cons, ih]
    cases v.getMsbD i <;> rfl

/-- Bits denote a bit-vector of their number. -/
theorem bitVec_eq {width width' : Nat} {v : BitVec width} {v' : BitVec width'}
    (hwidth : width' = width) (hv : v'.toNat = v.toNat) :
    Literal.bitVec width' v' = .bitVec width v := by
  subst hwidth
  rw [BitVec.eq_of_toNat_eq hv]

/-- A bit-vector that has bits is read from them. -/
theorem read_bitsText {width : Nat} (hwidth : 0 < width) (v : BitVec width) :
    read (bitsText v) = .ok (.bitVec width v) := by
  let digits := (List.range width).map fun i => if v.getMsbD i then '1' else '0'
  have hchars : (bitsText v).toList = '#' :: 'b' :: digits := by simp [bitsText, digits]
  have hlength : digits.length = width := by simp [digits]
  have hne (word : String) (hword : word.toList.head? ≠ some '#') : bitsText v ≠ word := by
    rintro rfl
    simp [hchars] at hword
  have hbits : bits? 1 bitValue? digits = some (.bitVec width v) := by
    have hnil : digits.isEmpty = false := by
      rw [List.isEmpty_eq_false_iff, ← List.length_pos_iff, hlength]
      exact hwidth
    have hvalue := positional_bits v width (Nat.le_refl _)
    rw [Nat.sub_self, Nat.pow_zero, Nat.div_one] at hvalue
    rw [bits?, hnil, if_neg Bool.false_ne_true, mapM_bitValue?, Option.map_some]
    refine congrArg some (bitVec_eq (by rw [hlength, Nat.one_mul]) ?_)
    show (BitVec.ofNat _ (positional 2 _)).toNat = _
    rw [hvalue, BitVec.toNat_ofNat, hlength, Nat.one_mul, Nat.mod_eq_of_lt v.isLt]
  unfold read
  rw [if_neg (hne "true" (by decide)), if_neg (hne "false" (by decide)), hchars]
  simp only [hbits]

end Literal

end SmtScript
