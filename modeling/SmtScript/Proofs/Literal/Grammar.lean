import Mathlib.Data.List.TakeWhile
import Mathlib.Data.Nat.Digits.Defs
import SmtScript.Proofs.Literal
import SmtScript.Translate

/-!
The grammar of all literals, bit-vectors included.

`Literal.Spells` adds the digits of bit-vectors to the Booleans and numbers of `Literal.Denotes`.
It is exact in both directions: what is spelled is read as its value, and only what is spelled is
read (`Literal.read_eq_ok_iff`). An atom that is bound to nothing is translated by this grammar
alone, and is refused as unrecognized otherwise (`translate_free_atom`).
-/

namespace SmtScript

namespace Literal

/-- The digits of the bases up to sixteen, in the order of their values. -/
def digitChars : List Char :=
  ['0', '1', '2', '3', '4', '5', '6', '7', '8', '9', 'a', 'b', 'c', 'd', 'e', 'f']

/-- A digit of a base; a letter may be of either case. -/
def IsDigitOf (base : Nat) (c : Char) : Prop := c.toLower ∈ digitChars.take base

instance (base : Nat) (c : Char) : Decidable (IsDigitOf base c) :=
  inferInstanceAs (Decidable (_ ∈ _))

/-- The value of a digit. -/
def digitRank (c : Char) : Nat := digitChars.idxOf c.toLower

/-- The number that digits of a base denote, of which the last one counts ones. -/
def numberOf (base : Nat) (digits : List Char) : Nat :=
  Nat.ofDigits base (digits.reverse.map digitRank)

/-- The bit-vector that digits denote, of which each one stands for `count` bits. -/
inductive Bits (count : Nat) (digits : List Char) : Literal → Prop where
  | mk {value : BitVec (count * digits.length)} (hne : digits ≠ [])
      (hdigits : ∀ c ∈ digits, IsDigitOf (2 ^ count) c)
      (hvalue : value.toNat = numberOf (2 ^ count) digits) :
      Bits count digits (.bitVec (count * digits.length) value)

/-- The literal that a text spells. -/
inductive Spells : List Char → Literal → Prop where
  | denoted {chars l} (h : Denotes chars l) : Spells chars l
  | binary {digits l} (h : Bits 1 digits l) : Spells ('#' :: 'b' :: digits) l
  | hexadecimal {digits l} (h : Bits 4 digits l) : Spells ('#' :: 'x' :: digits) l

/-! ### Digits of bit-vectors -/

/-- What holds of the ASCII characters, which can be tried out, and of all others. -/
theorem ascii_cases {P : Char → Prop} (hascii : ∀ n < 128, P (Char.ofNat n))
    (hrest : ∀ c : Char, 128 ≤ c.toNat → P c) (c : Char) : P c := by
  rcases Nat.lt_or_ge c.toNat 128 with hc | hc
  · exact Char.ofNat_toNat c ▸ hascii c.toNat hc
  · exact hrest c hc

theorem lt_of_mem_digitChars {c : Char} (hc : c ∈ digitChars) : c.toNat < 128 := by
  have hall : digitChars.all (·.toNat < 128) = true := by decide
  exact of_decide_eq_true (List.all_eq_true.mp hall c hc)

theorem not_isDigitOf {base : Nat} {c : Char} (hc : 128 ≤ c.toNat) : ¬ IsDigitOf base c := by
  have hupper : ¬ c.val ≤ 'Z'.val := fun h => absurd (Nat.le_trans hc h) (by decide)
  have hlower : c.toLower = c := dif_neg fun h => hupper h.2
  intro h
  rw [IsDigitOf, hlower] at h
  exact absurd (lt_of_mem_digitChars (List.mem_of_mem_take h)) (by omega)

theorem bitValue?_eq (c : Char) :
    bitValue? c = if IsDigitOf 2 c then some (digitRank c) else none := by
  induction c using ascii_cases with
  | hascii n hn => revert n; decide
  | hrest c hc =>
    have hzero : c ≠ '0' := by rintro rfl; revert hc; decide
    have hone : c ≠ '1' := by rintro rfl; revert hc; decide
    rw [bitValue?, if_neg hzero, if_neg hone, if_neg (not_isDigitOf hc)]

theorem hexValue?_eq (c : Char) :
    hexValue? c = if IsDigitOf 16 c then some (digitRank c) else none := by
  induction c using ascii_cases with
  | hascii n hn => revert n; decide
  | hrest c hc =>
    have hdigit : c.isDigit = false := by
      rw [← Bool.not_eq_true, Char.isDigit, Bool.and_eq_true, decide_eq_true_eq, decide_eq_true_eq]
      exact fun h => absurd (Nat.le_trans hc h.2) (by decide)
    have hlower : ¬ c ≤ 'f' := fun h => absurd (Nat.le_trans hc h) (by decide)
    have hupper : ¬ c ≤ 'F' := fun h => absurd (Nat.le_trans hc h) (by decide)
    simp [hexValue?, hdigit, hlower, hupper, not_isDigitOf hc]

theorem digitRank_lt {base : Nat} {c : Char} (hc : IsDigitOf base c) : digitRank c < base :=
  (List.mem_take_iff_idxOf_lt (List.mem_of_mem_take hc)).mp hc

/-- Digits of a base denote a number below the power of the base that they can write. -/
theorem numberOf_lt {base : Nat} {digits : List Char} (hbase : 1 < base)
    (hdigits : ∀ c ∈ digits, IsDigitOf base c) : numberOf base digits < base ^ digits.length := by
  have hlt : ∀ d ∈ digits.reverse.map digitRank, d < base := by
    intro d hd
    obtain ⟨c, hc, rfl⟩ := List.mem_map.mp hd
    exact digitRank_lt (hdigits c (List.mem_reverse.mp hc))
  simpa [numberOf] using Nat.ofDigits_lt_base_pow_length hbase hlt

section Bits

variable {count : Nat} {value? : Char → Option Nat} {digits : List Char} {l : Literal}

theorem mapM_digits_eq_some
    (hvalue? : ∀ c, value? c = if IsDigitOf (2 ^ count) c then some (digitRank c) else none)
    {values : List Nat} : digits.mapM value? = some values ↔
      (∀ c ∈ digits, IsDigitOf (2 ^ count) c) ∧ values = digits.map digitRank := by
  induction digits generalizing values with
  | nil => simp [eq_comm]
  | cons c cs ih =>
    by_cases hc : IsDigitOf (2 ^ count) c
    · have hvalue : value? c = some (digitRank c) := by rw [hvalue?, if_pos hc]
      simp only [List.mapM_cons, hvalue, Option.bind_eq_bind, Option.bind_some,
        Option.bind_eq_some_iff, ih, Option.pure_def, List.forall_mem_cons, hc, true_and]
      constructor
      · rintro ⟨_, ⟨hcs, rfl⟩, hvalues⟩
        exact ⟨hcs, (Option.some.inj hvalues).symm⟩
      · rintro ⟨hcs, rfl⟩
        exact ⟨_, ⟨hcs, rfl⟩, rfl⟩
    · simp [hvalue?, hc]

/-- A run of digits is read as the bits that it denotes; none of them is cut off. -/
theorem bits?_eq_some_iff (hcount : count ≠ 0)
    (hvalue? : ∀ c, value? c = if IsDigitOf (2 ^ count) c then some (digitRank c) else none) :
    bits? count value? digits = some l ↔ Bits count digits l := by
  have hpositional : positional (Nat.pow 2 count) (digits.map digitRank) =
      numberOf (2 ^ count) digits := by
    rw [positional_eq_ofDigits, numberOf, List.map_reverse, Nat.pow_eq]
  have hfits (hdigits : ∀ c ∈ digits, IsDigitOf (2 ^ count) c) :
      numberOf (2 ^ count) digits < 2 ^ (count * digits.length) := by
    rw [pow_mul]
    exact numberOf_lt (Nat.one_lt_two_pow hcount) hdigits
  constructor
  · intro h
    unfold bits? at h
    split at h
    · cases h
    · rename_i hne
      obtain ⟨values, hvalues, rfl⟩ := Option.map_eq_some_iff.mp h
      obtain ⟨hdigits, rfl⟩ := (mapM_digits_eq_some hvalue?).mp hvalues
      refine .mk (fun hnil => hne (List.isEmpty_iff.mpr hnil)) hdigits ?_
      rw [hpositional, BitVec.toNat_ofNat, Nat.mod_eq_of_lt (hfits hdigits)]
  · rintro ⟨hne, hdigits, hvalue⟩
    have hsome : digits.isEmpty = false := by simpa using hne
    have hmap := (mapM_digits_eq_some hvalue?).mpr ⟨hdigits, rfl⟩
    simp only [bits?, hsome, hmap, Bool.false_eq_true, if_false, Option.map_some,
      hpositional, ← hvalue, BitVec.ofNat_toNat, BitVec.setWidth_eq]

end Bits

/-! ### Parts of numbers -/

/-- Every text starts with an optional sign. -/
theorem sign_of_splitSign (chars : List Char) : ∃ sign factor, Sign sign factor ∧
    chars = sign ++ (splitSign chars).2 ∧ (splitSign chars).1 = decide (factor < 0) := by
  unfold splitSign
  split
  · exact ⟨['-'], -1, .minus, rfl, rfl⟩
  · exact ⟨['+'], 1, .plus, rfl, rfl⟩
  · exact ⟨[], 1, .none, rfl, rfl⟩

/-- Every text starts with a run of digits. -/
theorem splitDigits_spec {chars digits rest : List Char} (h : splitDigits chars = (digits, rest)) :
    chars = digits ++ rest ∧ AllDigits digits := by
  obtain ⟨rfl, rfl⟩ := Prod.mk.inj h
  exact ⟨List.takeWhile_append_dropWhile.symm, fun c hc => List.mem_takeWhile_imp hc⟩

theorem allDigits_of_isDigits {digits : List Char} (h : isDigits digits = true) :
    digits ≠ [] ∧ AllDigits digits := by
  simpa [isDigits, AllDigits] using h

theorem exponent_of_exponent? {chars : List Char} {power : Int}
    (h : exponent? chars = some power) : Exponent chars power := by
  unfold exponent? at h
  split at h
  · obtain rfl := Option.some.inj h
    exact .none
  · rename_i c rest
    obtain ⟨sign, factor, hsign, hrest, hnegative⟩ := sign_of_splitSign rest
    dsimp only at h
    split at h
    · rename_i hmarked
      obtain ⟨hletter, hdigits⟩ := Bool.and_eq_true_iff.mp hmarked
      obtain ⟨hne, hall⟩ := allDigits_of_isDigits hdigits
      obtain rfl := Option.some.inj h
      rw [hnegative, withSign_eq hsign, decimal_eq_number]
      conv => left; rw [hrest]
      exact .some (by simpa using hletter) hsign hne hall
    · cases h

/-! ### Numbers -/

/-- What is read as a decimal is one: it has a point, or else digits and an exponent. -/
theorem denotes_of_decimal? {sign whole rest : List Char} {factor : Int} {q : Rat}
    (hsign : Sign sign factor) (hwhole : AllDigits whole)
    (h : decimal? (decide (factor < 0)) whole rest = some q) (hrest : rest = [] → whole = []) :
    Denotes (sign ++ (whole ++ rest)) (.real q) := by
  unfold decimal? at h
  split at h
  rename_i fraction exponent hsplit
  split at h
  · cases h
  · rename_i hne
    obtain ⟨power, hpower, rfl⟩ := Option.map_eq_some_iff.mp h
    have hexponent := exponent_of_exponent? hpower
    rw [scaled_eq, withSign_eq hsign, decimal_eq_number]
    push_cast
    split at hsplit
    · rename_i chars
      obtain ⟨rfl, hpart⟩ := splitDigits_spec hsplit
      exact .point hsign hwhole hpart (by simpa using hne) hexponent
    · obtain ⟨rfl, rfl⟩ := Prod.mk.inj hsplit
      have hne : whole ≠ [] := by simpa using hne
      simpa using Denotes.scientific hsign hwhole hne hexponent fun hnil => hne (hrest hnil)

/-- What is read as a number is one. -/
theorem denotes_of_number? {text : String} {l : Literal} (h : number? text = .ok (some l)) :
    Denotes text.toList l := by
  obtain ⟨sign, factor, hsign, htext, hnegative⟩ := sign_of_splitSign text.toList
  generalize hdigits : splitDigits (splitSign text.toList).2 = split at htext
  obtain ⟨whole, rest⟩ := split
  obtain ⟨hchars, hwhole⟩ := splitDigits_spec hdigits
  rw [htext, hchars]
  simp only [number?, hdigits, hnegative] at h
  split at h
  · rename_i hsome
    obtain rfl := Option.some.inj (Except.ok.inj h)
    rw [withSign_eq hsign, decimal_eq_number, List.append_nil]
    exact .int hsign (by simpa using hsome) hwhole
  · rename_i bottom hsome
    split at h
    · cases h
    · rename_i hbottom
      split at h
      · cases h
      · rename_i hzero
        obtain rfl := Option.some.inj (Except.ok.inj h)
        obtain ⟨hne, hall⟩ := allDigits_of_isDigits (by simpa using hbottom)
        rw [decimal_eq_number] at hzero
        rw [withSign_eq hsign, decimal_eq_number, decimal_eq_number, Rat.mkRat_eq_div]
        push_cast
        exact .quotient hsign (by simpa using hsome) hne hwhole hall hzero
  · rename_i hint hquotient
    obtain ⟨q, hq, rfl⟩ := Option.map_eq_some_iff.mp (Except.ok.inj h)
    refine denotes_of_decimal? hsign hwhole hq ?_
    rintro rfl
    simpa using hint

theorem spells_of_read {text : String} {l : Literal} (h : read text = .ok l) :
    Spells text.toList l := by
  unfold read at h
  split at h
  · rename_i htrue
    obtain rfl := Except.ok.inj h
    exact htrue ▸ .denoted .true
  · split at h
    · rename_i hfalse
      obtain rfl := Except.ok.inj h
      exact hfalse ▸ .denoted .false
    · split at h
      · rename_i digits htext
        split at h
        · rename_i hbits
          obtain rfl := Except.ok.inj h
          exact htext ▸ .binary ((bits?_eq_some_iff (by decide) bitValue?_eq).mp hbits)
        · cases h
      · rename_i digits htext
        split at h
        · rename_i hbits
          obtain rfl := Except.ok.inj h
          exact htext ▸ .hexadecimal ((bits?_eq_some_iff (by decide) hexValue?_eq).mp hbits)
        · cases h
      · split at h
        · rename_i hnumber
          obtain rfl := Except.ok.inj h
          exact .denoted (denotes_of_number? hnumber)
        · cases h
        · cases h

theorem read_of_spells {text : String} {l : Literal} (h : Spells text.toList l) :
    read text = .ok l := by
  generalize htext : text.toList = chars at h
  have hne (word : String) (c : Char) (hc : chars.head? = some c)
      (hword : word.toList.head? ≠ some c) : text ≠ word := by
    rintro rfl
    exact hword (htext ▸ hc)
  cases h with
  | denoted hdenotes => exact read_of_denotes (htext ▸ hdenotes)
  | binary hbits =>
    have hread := (bits?_eq_some_iff (by decide) bitValue?_eq).mpr hbits
    rw [read, if_neg (hne _ '#' rfl (by decide)), if_neg (hne _ '#' rfl (by decide))]
    simp only [htext, hread]
  | hexadecimal hbits =>
    have hread := (bits?_eq_some_iff (by decide) hexValue?_eq).mpr hbits
    rw [read, if_neg (hne _ '#' rfl (by decide)), if_neg (hne _ '#' rfl (by decide))]
    simp only [htext, hread]

/-- A text is read as a literal if and only if it spells that literal. -/
theorem read_eq_ok_iff {text : String} {l : Literal} :
    read text = .ok l ↔ Spells text.toList l :=
  ⟨spells_of_read, read_of_spells⟩

theorem error_of_number? {text : String} {e : Error} (h : number? text = .error e) :
    e = .zeroDenominator text := by
  unfold number? at h
  dsimp only at h
  split at h
  · cases h
  · split at h
    · cases h
    · split at h
      · exact (Except.error.inj h).symm
      · cases h
  · cases h

/-- What is not a literal is reported as an atom that is not recognized. -/
theorem report_of_read {text : String} {e : Error} (h : read text = .error e) :
    ∃ report, e.report = some report ∧ report.kind = .unrecognizedAtom := by
  unfold read at h
  split at h
  · cases h
  · split at h
    · cases h
    · split at h <;> split at h <;> cases h
      · exact ⟨_, rfl, rfl⟩
      · exact ⟨_, rfl, rfl⟩
      · exact ⟨_, rfl, rfl⟩
      · rename_i hnumber
        obtain rfl := error_of_number? hnumber
        exact ⟨_, rfl, rfl⟩

end Literal

/-- An atom that is bound to nothing stands for the literal that it spells, exactly. It is refused
as unrecognized if it spells none, and the state of the translation stays the same either way. -/
theorem translate_free_atom {sorts : SortTable} {names : Names} {atom : String} (T : TermState)
    (hfree : names.find? atom = none) :
    ∃ r, (translate sorts names (.atom atom)).run T = (r, T) ∧
      (∀ u, r = .ok u ↔ ∃ l, Literal.Spells atom.toList l ∧ u = l.term) ∧
      ∀ e, r = .error e → ∃ report, e.report = some report ∧ report.kind = .unrecognizedAtom := by
  refine ⟨(Literal.read atom).map Literal.term, ?_, fun u => ?_, fun e he => ?_⟩
  · rw [translate, translateAtom, hfree]
    rfl
  · cases hread : Literal.read atom with
    | ok l =>
      constructor
      · intro h
        exact ⟨l, Literal.read_eq_ok_iff.mp hread, (Except.ok.inj h).symm⟩
      · rintro ⟨l', hl', rfl⟩
        obtain rfl := Except.ok.inj (hread.symm.trans (Literal.read_eq_ok_iff.mpr hl'))
        rfl
    | error e =>
      refine ⟨nofun, ?_⟩
      rintro ⟨l, hl, -⟩
      exact nomatch hread.symm.trans (Literal.read_eq_ok_iff.mpr hl)
  · cases hread : Literal.read atom with
    | ok l => exact nomatch hread ▸ he
    | error e' =>
      obtain rfl : e' = e := Except.error.inj (hread ▸ he)
      exact Literal.report_of_read hread

/-- Hexadecimal digits of both cases, beside a name that is bound. -/
theorem translate_free_atom_hexadecimal :
    ∃ names : Names, names.contains "f" = true ∧ names.find? "#xfF0" = none ∧
      (translate .empty names (.atom "#xfF0")).run .empty =
        (.ok (.bitVec 12 4080#12), .empty) := by
  let names : Names := ⟨.empty, [("f", .term (.bool true))]⟩
  have hfree : names.find? "#xfF0" = none := rfl
  obtain ⟨r, hrun, hok, -⟩ := @translate_free_atom .empty names "#xfF0" .empty hfree
  refine ⟨names, rfl, hfree, hrun.trans (congrArg (·, _) ((hok _).mpr ?_))⟩
  have hdigits : ∀ c ∈ ['f', 'F', '0'], Literal.IsDigitOf (2 ^ 4) c := by
    simp only [List.forall_mem_cons]
    exact ⟨by decide, by decide, by decide, nofun⟩
  exact ⟨.bitVec 12 4080#12, .hexadecimal (.mk (by decide) hdigits (by decide)), rfl⟩

end SmtScript
