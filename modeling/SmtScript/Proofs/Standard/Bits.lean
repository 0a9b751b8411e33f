import SmtScript.Proofs.Standard.Meaning

/-!
The standard meaning of operators on bit-vectors.

A bit-vector is a width and the number that its bits write in binary, `Standard.Bits`. SMT-LIB gives
the operators of the theory FixedSizeBitVectors by arithmetic on these numbers, and the others of
the logic QF_BV as abbreviations; both are here as they stand there. `Standard.VectorOp` lists the
operators with their signatures and their values. What a signed remainder is to be is said apart
from the abbreviation that computes it, `Standard.Bits.IsModulo`.
-/

namespace SmtScript

namespace Standard

/-- A bit-vector: its width, and the number that its bits write in binary. -/
@[ext] structure Bits where
  width : Nat
  number : Nat
  number_lt : number < 2 ^ width
  deriving DecidableEq, Repr

namespace Bits

/-- The vector of a width that writes a number, of which only the last digits are kept. -/
def ofNumber (width number : Nat) : Bits :=
  ⟨width, number % 2 ^ width, Nat.mod_lt number (Nat.two_pow_pos width)⟩

instance : Inhabited Bits := ⟨ofNumber 0 0⟩

def ofBitVec {width : Nat} (b : BitVec width) : Bits := ⟨width, b.toNat, b.isLt⟩

variable (a b : Bits)

/-! ### The theory -/

def concat : Bits := ofNumber (a.width + b.width) (a.number * 2 ^ b.width + b.number)

/-- The bits from one place down to another; the lowest place is zero. -/
def extract (high low : Nat) : Bits := ofNumber (high + 1 - low) (a.number / 2 ^ low)

def not : Bits := ofNumber a.width (2 ^ a.width - 1 - a.number)

def and : Bits := ofNumber a.width (a.number &&& b.number)

def or : Bits := ofNumber a.width (a.number ||| b.number)

def neg : Bits := ofNumber a.width (2 ^ a.width - a.number)

def add : Bits := ofNumber a.width (a.number + b.number)

def mul : Bits := ofNumber a.width (a.number * b.number)

/-- The quotient; all bits of a quotient by zero are set. -/
def udiv : Bits :=
  ofNumber a.width (if b.number = 0 then 2 ^ a.width - 1 else a.number / b.number)

/-- The remainder; a remainder by zero is the dividend. -/
def urem : Bits := ofNumber a.width (if b.number = 0 then a.number else a.number % b.number)

def shl : Bits := ofNumber a.width (a.number * 2 ^ b.number)

def lshr : Bits := ofNumber a.width (a.number / 2 ^ b.number)

def ult : Bool := decide (a.number < b.number)

/-! ### Abbreviations -/

/-- The bit in the highest place, as a vector of width one. -/
def signBit : Bits := a.extract (a.width - 1) (a.width - 1)

def isNegative : Bool := decide (a.signBit = ofNumber 1 1)

def nand : Bits := (a.and b).not

def nor : Bits := (a.or b).not

def xor : Bits := (a.and b.not).or (a.not.and b)

def xnor : Bits := (a.and b).or (a.not.and b.not)

def sub : Bits := a.add b.neg

/-- One bit that says whether two vectors are equal. -/
def comp : Bits := ofNumber 1 (if a = b then 1 else 0)

def abs : Bits := if a.isNegative then a.neg else a

/-- The quotient of the absolute values, negative if one of the operands is. -/
def sdiv : Bits :=
  match a.isNegative, b.isNegative with
  | false, false => a.udiv b
  | true, false => (a.neg.udiv b).neg
  | false, true => (a.udiv b.neg).neg
  | true, true => a.neg.udiv b.neg

/-- The remainder of the absolute values, with the sign of the dividend. -/
def srem : Bits :=
  match a.isNegative, b.isNegative with
  | false, false => a.urem b
  | true, false => (a.neg.urem b).neg
  | false, true => a.urem b.neg
  | true, true => (a.neg.urem b.neg).neg

/-- The remainder of the absolute values, corrected to have the sign of the divisor. -/
def smod : Bits :=
  let rest := a.abs.urem b.abs
  if rest = ofNumber a.width 0 then rest
  else match a.isNegative, b.isNegative with
    | false, false => rest
    | true, false => rest.neg.add b
    | false, true => rest.add b
    | true, true => rest.neg

/-- A shift to the right that repeats the sign. -/
def ashr : Bits := if a.isNegative then (a.not.lshr b).not else a.lshr b

def ule : Bool := a.ult b || decide (a = b)

def slt : Bool :=
  a.isNegative && !b.isNegative || decide (a.isNegative = b.isNegative) && a.ult b

def sle : Bool :=
  a.isNegative && !b.isNegative || decide (a.isNegative = b.isNegative) && a.ule b

/-- Copies of a vector, one after the other. -/
def repeated : Nat → Bits
  | 0 => ofNumber 0 0
  | count + 1 => a.concat (repeated count)

def zeroExtend (extra : Nat) : Bits := ((ofNumber 1 0).repeated extra).concat a

def signExtend (extra : Nat) : Bits := (a.signBit.repeated extra).concat a

/-- The bit at one end is moved to the other: the highest one in a rotation to the left. -/
def rotateOnce (side : Side) : Bits :=
  if a.width ≤ 1 then a
  else match side with
    | .left => (a.extract (a.width - 2) 0).concat (a.extract (a.width - 1) (a.width - 1))
    | .right => (a.extract 0 0).concat (a.extract (a.width - 1) 1)

def rotate (side : Side) : Bits → Nat → Bits
  | a, 0 => a
  | a, step + 1 => rotate side (a.rotateOnce side) step

/-! ### Signed numbers -/

/-- The number that a vector writes in two's complement. -/
def signed : Int := if a.isNegative then (a.number : Int) - 2 ^ a.width else a.number

/-- Whether a vector is the remainder of a division that is congruent to the dividend, smaller than
the divisor, and zero or of the sign of the divisor. -/
structure IsModulo (dividend divisor rest : Bits) : Prop where
  congruent : divisor.signed ∣ dividend.signed - rest.signed
  of_pos : 0 < divisor.signed → 0 ≤ rest.signed ∧ rest.signed < divisor.signed
  of_neg : divisor.signed < 0 → divisor.signed < rest.signed ∧ rest.signed ≤ 0

end Bits

/-- The vector that a value is. -/
def bits : Value → Bits
  | .bitVec _ b => .ofBitVec b
  | _ => default

/-- The value that a vector is. -/
def Bits.value (a : Bits) : Value := .bitVec a.width (BitVec.ofNatLT a.number a.number_lt)

/-! ### Operators -/

inductive VectorUnary where
  | not | neg
  deriving DecidableEq, Repr

/-- Operators on vectors of one width that yield a vector of this width. -/
inductive VectorBinary where
  | and | or | xor | add | mul
  | nand | nor | xnor | sub | udiv | urem | sdiv | srem | smod | shl | lshr | ashr
  deriving DecidableEq, Repr

inductive VectorOrder where
  | ult | ule | ugt | uge | slt | sle | sgt | sge
  deriving DecidableEq, Repr

/-- Operators with indices, which take one vector. -/
inductive VectorShape where
  | extract (high low : Nat)
  | repeated (count : Nat)
  | zeroExtend (extra : Nat)
  | signExtend (extra : Nat)
  | rotate (side : Side) (step : Nat)
  deriving DecidableEq, Repr

inductive VectorOp where
  | concat
  | unary (op : VectorUnary)
  | binary (op : VectorBinary)
  | comp
  | order (op : VectorOrder)
  | shape (op : VectorShape)
  deriving DecidableEq, Repr

/-- Whether an operator takes more than two operands, from the left. -/
def VectorBinary.isChain : VectorBinary → Bool
  | .and | .or | .xor | .add | .mul => true
  | _ => false

/-- The widths that an indexed operator takes and yields. -/
inductive VectorShape.Reshapes : VectorShape → Nat → Nat → Prop where
  | extract {high low width} (hlow : low ≤ high) (hhigh : high < width) :
      Reshapes (.extract high low) width (high + 1 - low)
  | repeated {count width} (hcount : 1 ≤ count) : Reshapes (.repeated count) width (count * width)
  | zeroExtend {extra width} : Reshapes (.zeroExtend extra) width (width + extra)
  | signExtend {extra width} : Reshapes (.signExtend extra) width (width + extra)
  | rotate {side step width} (hstep : step ≤ width) : Reshapes (.rotate side step) width width

/-- The signatures of the operators. -/
inductive VectorOp.Takes : VectorOp → List SmtSort → SmtSort → Prop where
  | concat {widths : List Nat} (hlen : 2 ≤ widths.length) (hpos : ∀ width ∈ widths, 1 ≤ width) :
      Takes .concat (widths.map .bitVec) (.bitVec widths.sum)
  | unary {op width} (hpos : 1 ≤ width) : Takes (.unary op) [.bitVec width] (.bitVec width)
  | binary {op width count} (hpos : 1 ≤ width) (hcount : 2 ≤ count)
      (htwo : op.isChain = true ∨ count = 2) :
      Takes (.binary op) (List.replicate count (.bitVec width)) (.bitVec width)
  | comp {width} (hpos : 1 ≤ width) : Takes .comp [.bitVec width, .bitVec width] (.bitVec 1)
  | order {op width} (hpos : 1 ≤ width) :
      Takes (.order op) [.bitVec width, .bitVec width] .bool
  | shape {op width width'} (hpos : 1 ≤ width) (h : op.Reshapes width width') :
      Takes (.shape op) [.bitVec width] (.bitVec width')

def VectorUnary.name : VectorUnary → String
  | .not => "bvnot"
  | .neg => "bvneg"

def VectorBinary.name : VectorBinary → String
  | .and => "bvand"
  | .or => "bvor"
  | .xor => "bvxor"
  | .add => "bvadd"
  | .mul => "bvmul"
  | .nand => "bvnand"
  | .nor => "bvnor"
  | .xnor => "bvxnor"
  | .sub => "bvsub"
  | .udiv => "bvudiv"
  | .urem => "bvurem"
  | .sdiv => "bvsdiv"
  | .srem => "bvsrem"
  | .smod => "bvsmod"
  | .shl => "bvshl"
  | .lshr => "bvlshr"
  | .ashr => "bvashr"

def VectorOrder.name : VectorOrder → String
  | .ult => "bvult"
  | .ule => "bvule"
  | .ugt => "bvugt"
  | .uge => "bvuge"
  | .slt => "bvslt"
  | .sle => "bvsle"
  | .sgt => "bvsgt"
  | .sge => "bvsge"

def VectorShape.name : VectorShape → String
  | .extract _ _ => "extract"
  | .repeated _ => "repeat"
  | .zeroExtend _ => "zero_extend"
  | .signExtend _ => "sign_extend"
  | .rotate .left _ => "rotate_left"
  | .rotate .right _ => "rotate_right"

def VectorShape.indices : VectorShape → List Nat
  | .extract high low => [high, low]
  | .repeated count => [count]
  | .zeroExtend extra => [extra]
  | .signExtend extra => [extra]
  | .rotate _ step => [step]

def VectorOp.name : VectorOp → String
  | .concat => "concat"
  | .unary op => op.name
  | .binary op => op.name
  | .comp => "bvcomp"
  | .order op => op.name
  | .shape op => op.name

/-- What stands for an operator at the head of an application. -/
def VectorOp.head : VectorOp → SExpr
  | .shape op =>
    .list (.atom "_" :: .atom op.name :: op.indices.map fun index => .atom (toString index))
  | op => .atom op.name

def VectorUnary.apply : VectorUnary → Bits → Bits
  | .not => Bits.not
  | .neg => Bits.neg

def VectorBinary.apply : VectorBinary → Bits → Bits → Bits
  | .and => Bits.and
  | .or => Bits.or
  | .xor => Bits.xor
  | .add => Bits.add
  | .mul => Bits.mul
  | .nand => Bits.nand
  | .nor => Bits.nor
  | .xnor => Bits.xnor
  | .sub => Bits.sub
  | .udiv => Bits.udiv
  | .urem => Bits.urem
  | .sdiv => Bits.sdiv
  | .srem => Bits.srem
  | .smod => Bits.smod
  | .shl => Bits.shl
  | .lshr => Bits.lshr
  | .ashr => Bits.ashr

def VectorOrder.holds : VectorOrder → Bits → Bits → Bool
  | .ult, a, b => a.ult b
  | .ule, a, b => a.ule b
  | .ugt, a, b => b.ult a
  | .uge, a, b => b.ule a
  | .slt, a, b => a.slt b
  | .sle, a, b => a.sle b
  | .sgt, a, b => b.slt a
  | .sge, a, b => b.sle a

def VectorShape.apply : VectorShape → Bits → Bits
  | .extract high low, a => a.extract high low
  | .repeated count, a => a.repeated count
  | .zeroExtend extra, a => a.zeroExtend extra
  | .signExtend extra, a => a.signExtend extra
  | .rotate side step, a => a.rotate side step

/-- The value of an application. -/
def VectorOp.value (op : VectorOp) (vs : List Value) : Value :=
  match op, vs with
  | .concat, vs => (fromLeft Bits.concat (vs.map bits)).value
  | .unary op, [v] => (op.apply (bits v)).value
  | .binary op, vs => (fromLeft op.apply (vs.map bits)).value
  | .comp, [v, w] => ((bits v).comp (bits w)).value
  | .order op, [v, w] => .bool (op.holds (bits v) (bits w))
  | .shape op, [v] => (op.apply (bits v)).value
  | _, _ => default

/-- With two bits, minus two shifted to the right by one place is minus one. -/
example : (Bits.ofNumber 2 2).ashr (.ofNumber 2 1) = .ofNumber 2 3 := by decide

end Standard

end SmtScript
