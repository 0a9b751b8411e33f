import SmtScript.Error
import SmtScript.Text.Numeral

/-!
Literals.

An atom that is bound to nothing can only be a literal: `true` or `false`, the bits or hexadecimal
digits of a bit-vector, an integer, a quotient of integers, or a decimal number. Numbers are read
exactly, whatever their size. Only ASCII digits count here.
-/

namespace SmtScript

inductive Literal where
  | bool (value : Bool)
  | int (value : Int)
  | real (value : Rat)
  | bitVec (width : Nat) (value : BitVec width)
  deriving Repr

namespace Literal

/-- The value of an ASCII decimal digit. -/
def digitValue (c : Char) : Nat := c.toNat - '0'.toNat

/-- The value of a run of ASCII decimal digits. -/
def decimal (digits : List Char) : Nat :=
  positional 10 (digits.map digitValue)

/-- The value of a hexadecimal digit. -/
def hexValue? (c : Char) : Option Nat :=
  if c.isDigit then some (digitValue c)
  else if 'a' ≤ c && c ≤ 'f' then some (c.toNat - 'a'.toNat + 10)
  else if 'A' ≤ c && c ≤ 'F' then some (c.toNat - 'A'.toNat + 10)
  else none

/-- The value of a binary digit. -/
def bitValue? (c : Char) : Option Nat :=
  if c = '0' then some 0 else if c = '1' then some 1 else none

/-- A non-empty run of ASCII digits. -/
def isDigits (chars : List Char) : Bool :=
  !chars.isEmpty && chars.all Char.isDigit

/-- Takes a sign off the front: whether it is a minus, and the rest. -/
def splitSign : List Char → Bool × List Char
  | '-' :: rest => (true, rest)
  | '+' :: rest => (false, rest)
  | rest => (false, rest)

/-- Takes the digits off the front. -/
def splitDigits (chars : List Char) : List Char × List Char :=
  (chars.takeWhile Char.isDigit, chars.dropWhile Char.isDigit)

/-- A number with a sign. -/
def withSign (negative : Bool) (n : Nat) : Int :=
  if negative then -(n : Int) else n

/-- A whole number times a power of ten. -/
def scaled (n : Int) (exponent : Int) : Rat :=
  if 0 ≤ exponent then ((n * Int.pow 10 exponent.toNat : Int) : Rat)
  else mkRat n (Nat.pow 10 (-exponent).toNat)

/-- The exponent of a decimal: nothing, or a letter and a number with an optional sign. -/
def exponent? : List Char → Option Int
  | [] => some 0
  | c :: rest =>
    let (negative, digits) := splitSign rest
    if (c = 'e' || c = 'E') && isDigits digits then some (withSign negative (decimal digits))
    else none

/-- A decimal number: digits, of which some may stand after a point, and an exponent. -/
def decimal? (negative : Bool) (whole rest : List Char) : Option Rat :=
  let (fraction, rest) := match rest with
    | '.' :: rest => splitDigits rest
    | rest => ([], rest)
  if whole.isEmpty && fraction.isEmpty then none
  else (exponent? rest).map fun exponent =>
    scaled (withSign negative (decimal (whole ++ fraction))) (exponent - fraction.length)

/-- The number that an atom denotes, or `none` if it is not the text of a number. -/
def number? (atom : String) : Except Error (Option Literal) :=
  let (negative, chars) := splitSign atom.toList
  let (whole, rest) := splitDigits chars
  match whole.isEmpty, rest with
  | false, [] => .ok (some (.int (withSign negative (decimal whole))))
  | false, '/' :: denominator =>
    if !isDigits denominator then .ok none
    else if decimal denominator = 0 then .error (.zeroDenominator atom)
    else .ok (some (.real (mkRat (withSign negative (decimal whole)) (decimal denominator))))
  | _, _ => .ok ((decimal? negative whole rest).map .real)

/-- The bit-vector that a run of digits denotes, each of which stands for several bits. -/
def bits? (bitsPerDigit : Nat) (value? : Char → Option Nat) (chars : List Char) :
    Option Literal :=
  if chars.isEmpty then none
  else (chars.mapM value?).map fun digits =>
    let width := bitsPerDigit * chars.length
    .bitVec width (BitVec.ofNat width (positional (Nat.pow 2 bitsPerDigit) digits))

/-- Reads an atom as a literal. -/
def read (atom : String) : Except Error Literal :=
  if atom = "true" then .ok (.bool true)
  else if atom = "false" then .ok (.bool false)
  else match atom.toList with
    | '#' :: 'b' :: digits =>
      match bits? 1 bitValue? digits with
      | some literal => .ok literal
      | none => .error (.malformedBinary atom)
    | '#' :: 'x' :: digits =>
      match bits? 4 hexValue? digits with
      | some literal => .ok literal
      | none => .error (.malformedHexadecimal atom)
    | _ =>
      match number? atom with
      | .ok (some literal) => .ok literal
      | .ok none => .error (.unrecognizedAtom atom)
      | .error e => .error e

end Literal

end SmtScript
