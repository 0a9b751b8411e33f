import SmtScript.Fault

/-!
Putting terms together.

The functions of this module build a node from its operands and refuse operands that do not fit.
Some of them simplify: a conjunction, disjunction, sum or product of one operand is that operand,
double negation cancels, a comparison with the larger side first is turned around, and a division
by a constant other than zero is a multiplication. Operators on bit-vectors that have no node of
their own are expressed by others.
-/

namespace SmtScript

namespace Term

/-- A node, if its operands fit. -/
def checked (t : Term) : Except Fault Term :=
  if t.fits then .ok t
  else match t with
    | .equal a _ => if a.isBool then .error (.boolEquality t) else .error (.illFormed t)
    | _ => .error (.illFormed t)

/-- Asks for a bit-vector. Where a node takes its width from an operand that has none, the node
cannot be built at all. -/
def needWidth (t : Term) : Except Fault Nat :=
  match t.width? with
  | some width => .ok width
  | none => .error .broken

def mkNot : Term → Except Fault Term
  | .not body => .ok body
  | body => checked (.not body)

def mkAnd : List Term → Except Fault Term
  | [] => .ok (.bool true)
  | [part] => .ok part
  | parts => checked (.and parts)

def mkOr : List Term → Except Fault Term
  | [] => .ok (.bool false)
  | [part] => .ok part
  | parts => checked (.or parts)

def mkImplies (premise conclusion : Term) : Except Fault Term :=
  checked (.implies premise conclusion)

def mkIff (left right : Term) : Except Fault Term :=
  checked (.iff left right)

/-- Equality of Booleans or of other terms, as the left operand demands. -/
def mkSame (left right : Term) : Except Fault Term :=
  if left.isBool then checked (.iff left right) else checked (.equal left right)

def mkXor (left right : Term) : Except Fault Term := do
  mkNot (← mkIff left right)

/-- For a term and each of several others, that the two differ. -/
def differAll (t : Term) : List Term → Except Fault (List Term)
  | [] => .ok []
  | other :: rest => do
    let first ← mkNot (← mkSame t other)
    let later ← differAll t rest
    return first :: later

/-- That each two of several terms differ. -/
def differences : List Term → Except Fault (List Term)
  | [] => .ok []
  | t :: rest => do
    let first ← differAll t rest
    let later ← differences rest
    return first ++ later

def mkDistinct (ts : List Term) : Except Fault Term := do
  mkAnd (← differences ts)

def mkIte (condition whenTrue whenFalse : Term) : Except Fault Term :=
  checked (.ite condition whenTrue whenFalse)

/-- Whether a term is a literal, or an array that holds one everywhere. -/
def isConstant : Term → Bool
  | .bool _ | .int _ | .real _ | .bitVec _ _ => true
  | .constArray _ v => v.isConstant
  | _ => false

/-- Asks whether a term is a certain number. This cannot be asked of a constant array. -/
def askForNumber : Term → Except Fault Unit
  | .constArray _ v => if v.isConstant then .error .arrayForNumber else .ok ()
  | _ => .ok ()

def mkArith (op : ArithOp) (left right : Term) : Except Fault Term :=
  match op, right with
  | .div, .real q =>
    if q = 0 then checked (.arith .div left right)
    else checked (.arith .mul left (.real (1 / q)))
  | .div, right => do
    askForNumber right
    checked (.arith .div left right)
  | op, right => checked (.arith op left right)

def mkOrder (op : NumOrder) (left right : Term) : Except Fault Term :=
  checked (.order op left right)

/-- The same number as a Real term. -/
def mkToReal (body : Term) : Except Fault Term :=
  match body.sort, body with
  | .real, body => .ok body
  | .int, .int value => .ok (.real value)
  | .int, body => checked (.toReal body)
  | sort, _ => .error (.notInteger sort)

def mkApply (f : Symbol) (args : List Term) : Except Fault Term :=
  if args.isEmpty then .ok (.symbol f) else checked (.apply f args)

def mkSelect (array index : Term) : Except Fault Term :=
  checked (.select array index)

def mkStore (array index value : Term) : Except Fault Term :=
  checked (.store array index value)

def mkConstArray (index : SmtSort) (value : Term) : Except Fault Term :=
  checked (.constArray index value)

/-- A bit-vector constant, if the value fits in its width. -/
def mkBits (width value : Nat) : Except Fault Term :=
  if value < Nat.pow 2 width then .ok (.bitVec width (BitVec.ofNat width value))
  else .error (.doesNotFit value width)

def mkBitUnary (op : BitUnary) (body : Term) : Except Fault Term := do
  let _ ← needWidth body
  checked (.bitUnary op body)

def mkBitOp (op : BitOp) (left right : Term) : Except Fault Term := do
  let _ ← needWidth left
  checked (.bitOp op left right)

/-- The negation of a bit-wise operator. -/
def mkBitNegated (op : BitOp) (left right : Term) : Except Fault Term := do
  mkBitUnary .not (← mkBitOp op left right)

def mkBitOrder (op : BitOrder) (left right : Term) : Except Fault Term := do
  let _ ← needWidth left
  checked (.bitOrder op left right)

def mkBitEqual (left right : Term) : Except Fault Term :=
  checked (.bitEqual left right)

def mkConcat (left right : Term) : Except Fault Term := do
  let _ ← needWidth left
  let _ ← needWidth right
  checked (.concat left right)

def mkExtract (high low : Nat) (body : Term) : Except Fault Term := do
  let width ← needWidth body
  if high + 1 - low ≤ width && low ≤ high then checked (.extract high low body)
  else .error .broken

def mkRotate (side : Side) (step : Nat) (body : Term) : Except Fault Term := do
  let _ ← needWidth body
  checked (.rotate side step body)

def mkWiden (bits : Widening) (extra : Nat) (body : Term) : Except Fault Term := do
  let _ ← needWidth body
  checked (.widen bits extra body)

/-- A term followed by copies of it. -/
def mkCopies (body : Term) : Nat → Except Fault Term
  | 0 => .ok body
  | copies + 1 => do mkConcat (← mkCopies body copies) body

/-- A term repeated; repeated not at all or once, it stays as it is. -/
def mkRepeat (count : Nat) (body : Term) : Except Fault Term :=
  mkCopies body (count - 1)

/-- The absolute value of a bit-vector whose sign bit is given. -/
def mkBitAbs (signBit body : Term) : Except Fault Term := do
  mkIte (← mkSame signBit (.bitVec 1 0)) body (← mkBitUnary .neg body)

/-- The signed remainder whose sign follows the divisor, by cases on the two sign bits. -/
def mkSMod (left right : Term) : Except Fault Term := do
  let width ← needWidth left
  let leftSign ← mkExtract (width - 1) (width - 1) left
  let rightSign ← mkExtract (width - 1) (width - 1) right
  let leftAbs ← mkBitAbs leftSign left
  let rightAbs ← mkBitAbs rightSign right
  let rest ← mkBitOp .urem leftAbs rightAbs
  let negRest ← mkBitUnary .neg rest
  let positive (t : Term) := mkSame t (.bitVec 1 0)
  let negative (t : Term) := mkSame t (.bitVec 1 1)
  let asIs ← mkOr
    [← mkSame rest (.bitVec width 0), ← mkAnd [← positive leftSign, ← positive rightSign]]
  let leftNegative ← mkAnd [← negative leftSign, ← positive rightSign]
  let rightNegative ← mkAnd [← positive leftSign, ← negative rightSign]
  mkIte asIs rest
    (← mkIte leftNegative (← mkBitOp .add negRest right)
      (← mkIte rightNegative (← mkBitOp .add rest right) negRest))

def mkQuantified (q : Quantifier) (bound : List Symbol) (body : Term) : Except Fault Term :=
  if bound.isEmpty then .ok body else checked (.quantified q bound body)

end Term

end SmtScript
