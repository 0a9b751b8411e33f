import Mathlib.Algebra.Field.Rat
import Mathlib.Algebra.Order.Ring.Rat
import Mathlib.Data.List.Induction
import Mathlib.Data.Nat.Digits.Defs
import Mathlib.Tactic.FieldSimp
import Mathlib.Tactic.NormNum
import SmtScript.Literal

/-!
What Boolean and numeric literals denote.

`Literal.Denotes` gives the literals by a grammar: a sign, digits, a quotient of digits, or a
decimal with an optional point and exponent. `Literal.read_of_denotes` says that such a text is
read as the number that it denotes, whatever its size.
-/

namespace SmtScript

namespace Literal

/-- An optional sign, and the factor that it stands for. -/
inductive Sign : List Char → Int → Prop where
  | none : Sign [] 1
  | plus : Sign ['+'] 1
  | minus : Sign ['-'] (-1)

/-- Whether all characters are ASCII digits. -/
def AllDigits (chars : List Char) : Prop := ∀ c ∈ chars, c.isDigit = true

/-- The number that digits denote, of which the last one counts ones. -/
def number (digits : List Char) : Nat := Nat.ofDigits 10 (digits.reverse.map digitValue)

/-- An optional exponent, and the power of ten that it stands for. -/
inductive Exponent : List Char → Int → Prop where
  | none : Exponent [] 0
  | some {letter sign digits factor} (hletter : letter = 'e' ∨ letter = 'E')
      (hsign : Sign sign factor) (hne : digits ≠ []) (hdigits : AllDigits digits) :
      Exponent (letter :: (sign ++ digits)) (factor * number digits)

/-- The Boolean or number that a text denotes. -/
inductive Denotes : List Char → Literal → Prop where
  | true : Denotes ['t', 'r', 'u', 'e'] (.bool true)
  | false : Denotes ['f', 'a', 'l', 's', 'e'] (.bool false)
  | int {sign digits factor} (hsign : Sign sign factor) (hne : digits ≠ [])
      (hdigits : AllDigits digits) : Denotes (sign ++ digits) (.int (factor * number digits))
  | quotient {sign top bottom factor} (hsign : Sign sign factor) (htop : top ≠ [])
      (hbottom : bottom ≠ []) (htopDigits : AllDigits top) (hbottomDigits : AllDigits bottom)
      (hzero : number bottom ≠ 0) :
      Denotes (sign ++ (top ++ '/' :: bottom)) (.real (factor * number top / number bottom))
  | point {sign whole part exponent factor power} (hsign : Sign sign factor)
      (hwhole : AllDigits whole) (hpart : AllDigits part) (hne : whole ++ part ≠ [])
      (hexponent : Exponent exponent power) :
      Denotes (sign ++ (whole ++ '.' :: (part ++ exponent)))
        (.real (factor * number (whole ++ part) * 10 ^ (power - part.length)))
  | scientific {sign whole exponent factor power} (hsign : Sign sign factor)
      (hwhole : AllDigits whole) (hne : whole ≠ []) (hexponent : Exponent exponent power)
      (hmarked : exponent ≠ []) :
      Denotes (sign ++ (whole ++ exponent)) (.real (factor * number whole * 10 ^ power))

/-! ### Digits -/

theorem positional_eq_ofDigits (base : Nat) (digits : List Nat) :
    positional base digits = Nat.ofDigits base digits.reverse := by
  induction digits using List.reverseRecOn with
  | nil => rfl
  | append_singleton digits d ih =>
    rw [positional_append_singleton, ih, List.reverse_append, List.reverse_singleton,
      List.singleton_append, Nat.ofDigits_cons]
    ring

theorem decimal_eq_number (digits : List Char) : decimal digits = number digits := by
  rw [decimal, positional_eq_ofDigits, number, List.map_reverse]

theorem splitDigits_append {digits rest : List Char} (hdigits : AllDigits digits)
    (hrest : ∀ c ∈ rest.head?, c.isDigit = false) :
    splitDigits (digits ++ rest) = (digits, rest) := by
  have htake : (digits ++ rest).takeWhile Char.isDigit = digits := by
    rw [List.takeWhile_append_of_pos hdigits]
    cases rest with
    | nil => simp
    | cons c cs => simp [hrest c rfl]
  have hdrop : (digits ++ rest).dropWhile Char.isDigit = rest := by
    rw [List.dropWhile_append_of_pos hdigits]
    cases rest with
    | nil => rfl
    | cons c cs => simp [hrest c rfl]
  rw [splitDigits, htake, hdrop]

/-- Texts that start with neither a sign nor anything else that a number cannot start with. -/
def Unsigned (chars : List Char) : Prop := ∀ c ∈ chars.head?, c.isDigit = true ∨ c = '.'

theorem splitSign_append {sign chars : List Char} {factor : Int} (hsign : Sign sign factor)
    (hchars : Unsigned chars) : splitSign (sign ++ chars) = (decide (factor < 0), chars) := by
  cases hsign with
  | plus => rfl
  | minus => rfl
  | none =>
    cases chars with
    | nil => rfl
    | cons c cs =>
      have hc := hchars c rfl
      have hminus : c ≠ '-' := by rintro rfl; revert hc; decide
      have hplus : c ≠ '+' := by rintro rfl; revert hc; decide
      simp [splitSign, hminus, hplus]

theorem withSign_eq {sign : List Char} {factor : Int} (hsign : Sign sign factor) (n : Nat) :
    withSign (decide (factor < 0)) n = factor * n := by
  cases hsign <;> simp [withSign]

theorem isDigits_of_allDigits {digits : List Char} (hne : digits ≠ [])
    (hdigits : AllDigits digits) : isDigits digits = true := by
  simp only [isDigits, Bool.and_eq_true, Bool.not_eq_true', List.isEmpty_eq_false_iff,
    List.all_eq_true]
  exact ⟨hne, hdigits⟩

theorem unsigned_of_allDigits {digits rest : List Char} (hdigits : AllDigits digits)
    (hrest : Unsigned rest) : Unsigned (digits ++ rest) := by
  cases digits with
  | nil => exact hrest
  | cons c cs =>
    intro x hx
    obtain rfl : c = x := by simpa using hx
    exact .inl (hdigits c List.mem_cons_self)

theorem unsigned_append_of_ne {digits rest : List Char} (hne : digits ≠ [])
    (hdigits : AllDigits digits) : Unsigned (digits ++ rest) := by
  obtain ⟨c, cs, rfl⟩ := List.exists_cons_of_ne_nil hne
  intro x hx
  obtain rfl : c = x := by simpa using hx
  exact .inl (hdigits c List.mem_cons_self)

/-! ### Decimals -/

theorem scaled_eq (n power : Int) : scaled n power = n * 10 ^ power := by
  unfold scaled
  split
  · rename_i h
    obtain ⟨k, rfl⟩ := Int.eq_ofNat_of_zero_le h
    simp only [Int.toNat_natCast, zpow_natCast]
    show ((n * (10 : Int) ^ k : Int) : Rat) = _
    push_cast
    rfl
  · rename_i h
    obtain ⟨k, rfl⟩ : ∃ k : Nat, power = -(k : Int) := ⟨(-power).toNat, by omega⟩
    simp only [neg_neg, Int.toNat_natCast, zpow_neg, zpow_natCast]
    show mkRat n (10 ^ k) = _
    rw [Rat.mkRat_eq_div]
    push_cast
    rw [div_eq_mul_inv]

theorem exponent?_eq {chars : List Char} {power : Int} (h : Exponent chars power) :
    exponent? chars = some power := by
  cases h with
  | none => rfl
  | some hletter hsign hne hdigits =>
    rename_i letter sign digits factor
    have hunsigned : Unsigned digits := by
      exact List.append_nil digits ▸ unsigned_append_of_ne hne hdigits
    simp only [exponent?, splitSign_append hsign hunsigned, isDigits_of_allDigits hne hdigits,
      withSign_eq hsign, decimal_eq_number]
    rcases hletter with rfl | rfl <;> simp

theorem exponent_head {chars : List Char} {power : Int} (h : Exponent chars power) :
    ∀ c ∈ chars.head?, c.isDigit = false ∧ c ≠ '.' ∧ c ≠ '/' := by
  cases h with
  | none => simp
  | some hletter _ _ _ =>
    intro c hc
    obtain rfl := Option.some.inj hc
    rcases hletter with rfl | rfl <;> decide

theorem decimal?_point {whole part chars : List Char} {power : Int} (negative : Bool)
    (hpart : AllDigits part) (hne : whole ++ part ≠ []) (hexp : Exponent chars power) :
    decimal? negative whole ('.' :: (part ++ chars)) =
      some ((withSign negative (number (whole ++ part)) : Rat) * 10 ^ (power - part.length)) := by
  have hsplit := splitDigits_append hpart fun c hc => (exponent_head hexp c hc).1
  have hsome : (whole.isEmpty && part.isEmpty) = false := by
    simpa [List.append_eq_nil_iff, List.isEmpty_iff] using hne
  simp only [decimal?, hsplit, hsome, exponent?_eq hexp, scaled_eq, decimal_eq_number,
    Option.map_some, Bool.false_eq_true, if_false]

theorem decimal?_scientific {whole chars : List Char} {power : Int} (negative : Bool)
    (hne : whole ≠ []) (hexp : Exponent chars power) :
    decimal? negative whole chars =
      some ((withSign negative (number whole) : Rat) * 10 ^ power) := by
  have hsome : whole.isEmpty = false := by simpa using hne
  have hhead := exponent_head hexp
  cases chars with
  | nil =>
    simp [decimal?, hsome, exponent?_eq hexp, scaled_eq, decimal_eq_number]
  | cons c cs =>
    have hpoint : c ≠ '.' := (hhead c rfl).2.1
    simp [decimal?, hpoint, hsome, exponent?_eq hexp, scaled_eq, decimal_eq_number]

/-! ### Reading -/

/-- A text that starts like a number is read as a number or not at all. -/
theorem read_ofList_of_start {sign chars : List Char} {factor : Int} {l : Literal}
    (hsign : Sign sign factor) (hchars : Unsigned chars) (hne : chars ≠ [])
    (h : number? (String.ofList (sign ++ chars)) = .ok (some l)) :
    read (String.ofList (sign ++ chars)) = .ok l := by
  obtain ⟨c, cs, rfl⟩ := List.exists_cons_of_ne_nil hne
  have hc : c.isDigit = true ∨ c = '.' := hchars c rfl
  obtain ⟨x, xs, hxs, hx⟩ : ∃ x xs, sign ++ c :: cs = x :: xs ∧ x ≠ 't' ∧ x ≠ 'f' ∧ x ≠ '#' := by
    cases hsign with
    | none =>
      refine ⟨c, cs, rfl, ?_⟩
      refine ⟨?_, ?_, ?_⟩ <;>
      · rintro rfl
        revert hc
        decide
    | plus => exact ⟨'+', c :: cs, rfl, by decide⟩
    | minus => exact ⟨'-', c :: cs, rfl, by decide⟩
  rw [hxs] at h ⊢
  have htrue : String.ofList (x :: xs) ≠ "true" := by
    intro he
    have hl := congrArg String.toList he
    simp only [String.toList_ofList] at hl
    exact hx.1 (List.cons.inj hl).1
  have hfalse : String.ofList (x :: xs) ≠ "false" := by
    intro he
    have hl := congrArg String.toList he
    simp only [String.toList_ofList] at hl
    exact hx.2.1 (List.cons.inj hl).1
  unfold read
  rw [if_neg htrue, if_neg hfalse]
  split
  · rename_i heq
    exact absurd (List.cons.inj (by simpa using heq)).1 hx.2.2
  · rename_i heq
    exact absurd (List.cons.inj (by simpa using heq)).1 hx.2.2
  · rw [h]

theorem read_ofList_of_denotes {chars : List Char} {l : Literal} (h : Denotes chars l) :
    read (String.ofList chars) = .ok l := by
  cases h with
  | true => rfl
  | false => rfl
  | int hsign hne hdigits =>
    rename_i sign digits factor
    have hunsigned : Unsigned digits := by
      exact List.append_nil digits ▸ unsigned_append_of_ne hne hdigits
    have hsplit : splitDigits digits = (digits, []) := by
      have happend : splitDigits (digits ++ []) = (digits, []) :=
        splitDigits_append hdigits (by simp)
      rwa [List.append_nil] at happend
    refine read_ofList_of_start hsign hunsigned hne ?_
    have hsome : digits.isEmpty = false := by simpa using hne
    simp only [number?, String.toList_ofList, splitSign_append hsign hunsigned, hsplit, hsome,
      withSign_eq hsign, decimal_eq_number]
  | quotient hsign htop hbottom htopDigits hbottomDigits hzero =>
    rename_i sign top bottom factor
    have hunsigned : Unsigned (top ++ '/' :: bottom) := unsigned_append_of_ne htop htopDigits
    have hsplit : splitDigits (top ++ '/' :: bottom) = (top, '/' :: bottom) :=
      splitDigits_append htopDigits (by simp)
    refine read_ofList_of_start hsign hunsigned (by simp) ?_
    have hsome : top.isEmpty = false := by simpa using htop
    simp only [number?, String.toList_ofList, splitSign_append hsign hunsigned, hsplit, hsome,
      isDigits_of_allDigits hbottom hbottomDigits, withSign_eq hsign, decimal_eq_number, hzero,
      Rat.mkRat_eq_div]
    push_cast
    simp
  | point hsign hwhole hpart hne hexponent =>
    rename_i sign whole part exponent factor power
    have hunsigned : Unsigned (whole ++ '.' :: (part ++ exponent)) :=
      unsigned_of_allDigits hwhole (by simp [Unsigned])
    have hsplit : splitDigits (whole ++ '.' :: (part ++ exponent)) =
        (whole, '.' :: (part ++ exponent)) :=
      splitDigits_append hwhole (by simp)
    refine read_ofList_of_start hsign hunsigned (by simp) ?_
    simp only [number?, String.toList_ofList, splitSign_append hsign hunsigned, hsplit,
      decimal?_point _ hpart hne hexponent, withSign_eq hsign]
    cases whole.isEmpty <;> simp
  | scientific hsign hwhole hne hexponent hmarked =>
    rename_i sign whole exponent factor power
    have hunsigned : Unsigned (whole ++ exponent) := unsigned_append_of_ne hne hwhole
    have hhead := exponent_head hexponent
    have hsplit : splitDigits (whole ++ exponent) = (whole, exponent) :=
      splitDigits_append hwhole fun c hc => (hhead c hc).1
    refine read_ofList_of_start hsign hunsigned (by simp [hne]) ?_
    have hsome : whole.isEmpty = false := by simpa using hne
    obtain ⟨c, cs, rfl⟩ := List.exists_cons_of_ne_nil hmarked
    have hslash : c ≠ '/' := (hhead c rfl).2.2
    simp only [number?, String.toList_ofList, splitSign_append hsign hunsigned, hsplit, hsome]
    split
    · rename_i heq
      simp at heq
    · rename_i heq
      exact absurd (List.cons.inj heq).1 hslash
    · rw [decimal?_scientific _ hne hexponent, withSign_eq hsign]
      simp

/-- A text that denotes a Boolean or a number is read as that. -/
theorem read_of_denotes {text : String} {l : Literal} (h : Denotes text.toList l) :
    read text = .ok l := by
  have hread := read_ofList_of_denotes h
  rwa [String.ofList_toList] at hread

end Literal

end SmtScript
