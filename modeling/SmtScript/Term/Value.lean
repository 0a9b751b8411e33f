import SmtScript.Term.Basic

/-!
Values of terms.

The value of an array is a constant array with updates, of which the newest stands outermost and
no two have the same key. An array shows in which order it was updated, so different values may
stand for the same array. `Value.normal` forgets the order: two values stand for the same thing
exactly if their normal forms are the same.
-/

namespace SmtScript

inductive Value where
  | bool (value : Bool)
  | int (value : Int)
  | real (value : Rat)
  | bitVec (width : Nat) (value : BitVec width)
  /-- One of the elements of an uninterpreted sort, which are numbered from zero. -/
  | element (sort : String) (number : Nat)
  | constArray (index : SmtSort) (default : Value)
  | update (array key value : Value)
  deriving DecidableEq, Repr, Inhabited

namespace Value

/-- The value that is taken where nothing is asked for. -/
def default : SmtSort → Value
  | .bool => .bool false
  | .int => .int 0
  | .real => .real 0
  | .bitVec width => .bitVec width 0
  | .user name => .element name 0
  | .array index values => .constArray index (default values)
  | .arrow _ codomain => default codomain

/-- The sort of a value. -/
def sort : Value → SmtSort
  | .bool _ => .bool
  | .int _ => .int
  | .real _ => .real
  | .bitVec width _ => .bitVec width
  | .element sort _ => .user sort
  | .constArray index default => .array index default.sort
  | .update array _ _ => array.sort

/-- The symbol that stands for an element of an uninterpreted sort. -/
def elementSymbol (sort : String) (number : Nat) : Symbol :=
  ⟨sort ++ "!val!" ++ toString number, .user sort⟩

/-- The term that denotes a value. -/
def term : Value → Term
  | .bool value => .bool value
  | .int value => .int value
  | .real value => .real value
  | .bitVec width value => .bitVec width value
  | .element sort number => .symbol (elementSymbol sort number)
  | .constArray index default => .constArray index default.term
  | .update array key value => .store array.term key.term value.term

/-- The truth of a Boolean value. -/
def isTrue : Value → Bool
  | .bool value => value
  | _ => false

/-- What an array holds wherever it is not updated. -/
def arrayDefault : Value → Value
  | .constArray _ default => default
  | .update array _ _ => array.arrayDefault
  | other => other

/-! ### Normal forms -/

/-- The text by which the keys of an array are sorted. -/
def keyText : Value → String
  | .bool value => toString value
  | .int value => toString value
  | .real value => toString value
  | .bitVec _ value => toString value.toNat
  | .element _ number => toString number
  | .constArray _ default => "(" ++ default.keyText ++ ")"
  | .update array key value =>
    "(" ++ array.keyText ++ " " ++ key.keyText ++ " " ++ value.keyText ++ ")"

/-- Puts an update into an array whose updates are sorted by their keys and none of which repeats
the default. -/
def insertSorted (array key value : Value) : Value :=
  match array with
  | .update rest key' value' =>
    if key = key' then extend rest key value
    else if keyText key' < keyText key then extend array key value
    else .update (insertSorted rest key value) key' value'
  | array => extend array key value
where
  extend (array key value : Value) : Value :=
    if value = array.arrayDefault then array else .update array key value

/-- The values of a sort, the least one first, if they are few. -/
def few? : SmtSort → Option (List Value)
  | .bool => some [.bool false, .bool true]
  | .bitVec width =>
    if width ≤ 8 then
      some ((List.range (Nat.pow 2 width)).map fun n => .bitVec width (BitVec.ofNat width n))
    else none
  | _ => none

/-- The element at a key of an array in normal form. -/
def normalElement : Value → Value → Value
  | .constArray _ default, _ => default
  | .update array key value, index => if index = key then value else array.normalElement index
  | other, _ => other

/-- The array with the same elements whose default is the element at the least index. Which
default an array has shows only if the indices are too many for all of them to be updated. -/
def withLeastDefault (array : Value) : Value :=
  match array.sort with
  | .array index _ =>
    match few? index with
    | some (least :: others) =>
      let default := array.normalElement least
      if default = array.arrayDefault then array
      else others.foldl (fun built key => built.insertSorted key (array.normalElement key))
        (.constArray index default)
    | _ => array
  | _ => array

/-- The value that is the same for all values that stand for the same thing. -/
def normal : Value → Value
  | .constArray index default => .constArray index default.normal
  | .update array key value =>
    (array.normal.insertSorted key.normal value.normal).withLeastDefault
  | other => other

/-- Whether two values stand for the same thing. -/
def equals (v w : Value) : Bool := decide (v.normal = w.normal)

/-! ### Arrays -/

/-- The element of an array at an index. -/
def select : Value → Value → Value
  | .constArray _ default, _ => default
  | .update array key value, index =>
    if index.equals key then value else array.select index
  | other, _ => other

/-- The updates of an array, newest first. -/
def updates : Value → List (Value × Value)
  | .update array key value => (key, value) :: array.updates
  | _ => []

/-- An array without its updates. -/
def withoutUpdates : Value → Value
  | .update array _ _ => array.withoutUpdates
  | other => other

/-- What is left of updates when the one at a key is taken out from among them. A single one that is
left goes too if it repeats the default. -/
def withoutKey (default key : Value) (updates : List (Value × Value)) : List (Value × Value) :=
  match updates.filter fun update => !key.equals update.1 with
  | [(k, v)] => if v.equals default then [] else [(k, v)]
  | kept => kept

/-- Replaces the element of an array at an index. An earlier update at the same key is dropped. An
update that would be the only one is left out if it repeats the default, unless it takes the place
of the newest update. -/
def store (array index value : Value) : Value :=
  let default := array.arrayDefault
  let build (updates : List (Value × Value)) : Value :=
    updates.foldr (fun (k, v) built => .update built k v) array.withoutUpdates
  let put (updates : List (Value × Value)) : Value :=
    if updates.isEmpty && value.equals default then build []
    else build ((index, value) :: updates)
  match array.updates with
  | [] => put []
  | (newest, v) :: older =>
    if index.equals newest then build ((index, value) :: older)
    else if older.any fun update => index.equals update.1 then
      put (withoutKey default index ((newest, v) :: older))
    else build ((index, value) :: (newest, v) :: older)

/-- The value of an arithmetic operation on two numbers of one sort. Division of integers leaves
a remainder that is not negative. -/
def arith (op : ArithOp) : Value → Value → Value
  | .int a, .int b =>
    .int <| match op with
      | .add => a + b
      | .sub => a - b
      | .mul => a * b
      | .div => a / b
  | .real a, .real b =>
    .real <| match op with
      | .add => a + b
      | .sub => a - b
      | .mul => a * b
      | .div => a / b
  | a, _ => a

/-- Whether two numbers of one sort are in order. -/
def order (op : NumOrder) : Value → Value → Bool
  | .int a, .int b =>
    match op with
    | .le => a ≤ b
    | .lt => a < b
  | .real a, .real b =>
    match op with
    | .le => a ≤ b
    | .lt => a < b
  | _, _ => false

/-- A number as a real number. -/
def toReal : Value → Value
  | .int n => .real n
  | other => other

def bitUnary (op : BitUnary) : Value → Value
  | .bitVec width a =>
    .bitVec width <| match op with
      | .not => ~~~a
      | .neg => -a
  | other => other

/-- The result of a bit-vector operation. A division by zero has all bits set or, signed, is one
or minus one; the remainder of it is the dividend. A shift by the width or more leaves no bit of
the shifted vector but its sign. -/
def bitResult (op : BitOp) {width : Nat} (a b : BitVec width) : BitVec width :=
  match op with
  | .and => a &&& b
  | .or => a ||| b
  | .xor => a ^^^ b
  | .add => a + b
  | .sub => a - b
  | .mul => a * b
  | .udiv => a.smtUDiv b
  | .urem => a % b
  | .sdiv => a.smtSDiv b
  | .srem => a.srem b
  | .shl => if b.toNat < width then a <<< b else 0
  | .lshr => if b.toNat < width then a >>> b else 0
  | .ashr => a.sshiftRight (min b.toNat width)

def bitOp (op : BitOp) : Value → Value → Value
  | .bitVec width a, .bitVec _ b => .bitVec width (bitResult op a (b.setWidth width))
  | a, _ => a

def bitOrder (op : BitOrder) : Value → Value → Bool
  | .bitVec width a, .bitVec _ b =>
    let b := b.setWidth width
    match op with
    | .ult => a.ult b
    | .ule => a.ule b
    | .slt => a.slt b
    | .sle => a.sle b
  | _, _ => false

def concat : Value → Value → Value
  | .bitVec width a, .bitVec width' b => .bitVec (width + width') (a ++ b)
  | a, _ => a

def extract (high low : Nat) : Value → Value
  | .bitVec _ a => .bitVec (high + 1 - low) (a.extractLsb' low (high + 1 - low))
  | other => other

def rotate (side : Side) (step : Nat) : Value → Value
  | .bitVec width a =>
    .bitVec width <| match side with
      | .left => a.rotateLeft step
      | .right => a.rotateRight step
  | other => other

def widen (bits : Widening) (extra : Nat) : Value → Value
  | .bitVec width a =>
    .bitVec (width + extra) <| match bits with
      | .zeros => a.setWidth (width + extra)
      | .signs => a.signExtend (width + extra)
  | other => other

/-- One bit that says whether a statement holds. -/
def bit (holds : Bool) : Value :=
  .bitVec 1 (if holds then 1 else 0)

end Value

end SmtScript
