import SmtScript.Symbol

/-!
Terms.

A term is a tree of the kinds of node listed in `Term`. Every kind of node says which sorts its
operands must have, `Term.fits`; the sort of the node itself follows from its operands by
`Term.sort`, which looks at no more operands than it needs. The functions of `Term.Build` put
nodes together and refuse those that do not fit.
-/

namespace SmtScript

inductive ArithOp where
  | add | sub | mul | div
  deriving DecidableEq, Repr, Hashable

/-- An order of numbers. -/
inductive NumOrder where
  | le | lt
  deriving DecidableEq, Repr, Hashable

inductive BitUnary where
  | not | neg
  deriving DecidableEq, Repr, Hashable

/-- Operators on two bit-vectors of one width that yield a bit-vector of this width. -/
inductive BitOp where
  | and | or | xor | add | sub | mul | udiv | urem | sdiv | srem | shl | lshr | ashr
  deriving DecidableEq, Repr, Hashable

/-- An order of bit-vectors. -/
inductive BitOrder where
  | ult | ule | slt | sle
  deriving DecidableEq, Repr, Hashable

inductive Side where
  | left | right
  deriving DecidableEq, Repr, Hashable

/-- The bits that a widening puts in front. -/
inductive Widening where
  | zeros | signs
  deriving DecidableEq, Repr, Hashable

inductive Quantifier where
  | universal | existential
  deriving DecidableEq, Repr, Hashable

inductive Term where
  | bool (value : Bool)
  | int (value : Int)
  | real (value : Rat)
  | bitVec (width : Nat) (value : BitVec width)
  | symbol (symbol : Symbol)
  | apply (function : Symbol) (args : List Term)
  | not (body : Term)
  | and (parts : List Term)
  | or (parts : List Term)
  | implies (premise conclusion : Term)
  /-- Equality of two Booleans. -/
  | iff (left right : Term)
  /-- Equality of two terms that are not Boolean. -/
  | equal (left right : Term)
  | ite (condition whenTrue whenFalse : Term)
  | arith (op : ArithOp) (left right : Term)
  | order (op : NumOrder) (left right : Term)
  | toReal (body : Term)
  | select (array index : Term)
  | store (array index value : Term)
  /-- The array with one value everywhere. -/
  | constArray (index : SmtSort) (value : Term)
  | bitUnary (op : BitUnary) (body : Term)
  | bitOp (op : BitOp) (left right : Term)
  | bitOrder (op : BitOrder) (left right : Term)
  /-- One bit that says whether two bit-vectors are equal. -/
  | bitEqual (left right : Term)
  | concat (left right : Term)
  | extract (high low : Nat) (body : Term)
  | rotate (side : Side) (step : Nat) (body : Term)
  | widen (bits : Widening) (extra : Nat) (body : Term)
  | quantified (quantifier : Quantifier) (bound : List Symbol) (body : Term)
  deriving Repr, Inhabited

namespace Term

/-- The sort of a term. -/
def sort : Term → SmtSort
  | .bool _ => .bool
  | .int _ => .int
  | .real _ => .real
  | .bitVec width _ => .bitVec width
  | .symbol s => s.sort
  | .apply f args => f.sort.afterArguments args.length
  | .not _ => .bool
  | .and _ => .bool
  | .or _ => .bool
  | .implies _ _ => .bool
  | .iff _ _ => .bool
  | .equal _ _ => .bool
  | .ite _ a _ => a.sort
  | .arith _ a _ => a.sort
  | .order _ _ _ => .bool
  | .toReal _ => .real
  | .select a _ => a.sort.element
  | .store a _ _ => a.sort
  | .constArray index value => .array index value.sort
  | .bitUnary _ a => a.sort
  | .bitOp _ a _ => a.sort
  | .bitOrder _ _ _ => .bool
  | .bitEqual _ _ => .bitVec 1
  | .concat a b => .bitVec (a.sort.width + b.sort.width)
  | .extract high low _ => .bitVec (high + 1 - low)
  | .rotate _ _ a => a.sort
  | .widen _ extra a => .bitVec (a.sort.width + extra)
  | .quantified _ _ _ => .bool

/-- The width of a term of bit-vector sort. -/
def width? (t : Term) : Option Nat := t.sort.width?

def isBool (t : Term) : Bool := t.sort == .bool

def isInt (t : Term) : Bool := t.sort == .int

def isReal (t : Term) : Bool := t.sort == .real

def isBitVec (t : Term) : Bool := t.width?.isSome

/-- Whether the operands of a term's root have the sorts that this kind of node asks for. -/
def fits : Term → Bool
  | .bool _ | .int _ | .real _ | .bitVec _ _ | .symbol _ => true
  | .apply f args => f.sort.domains == args.map sort
  | .not a => a.isBool
  | .and ts | .or ts => ts.all isBool
  | .implies a b | .iff a b => a.isBool && b.isBool
  | .equal a b => !a.isBool && a.sort == b.sort
  | .ite c a b => c.isBool && a.sort == b.sort
  | .arith _ a b => (a.isInt && b.isInt) || (a.isReal && b.isReal)
  | .order _ a b => (a.isInt && b.isInt) || (a.isReal && b.isReal)
  | .toReal a => a.isInt
  | .select a i =>
    match a.sort with
    | .array index _ => i.sort == index
    | _ => false
  | .store a i v =>
    match a.sort with
    | .array index element => i.sort == index && v.sort == element
    | _ => false
  | .constArray _ _ => true
  | .bitUnary _ a => a.isBitVec
  | .bitOp _ a b | .bitOrder _ a b | .bitEqual a b => a.isBitVec && a.sort == b.sort
  | .concat a b => a.isBitVec && b.isBitVec
  | .extract high low a => a.isBitVec && low ≤ high && high < a.sort.width
  | .rotate _ step a => a.isBitVec && step ≤ a.sort.width
  | .widen _ _ a => a.isBitVec
  | .quantified _ _ a => a.isBool

/-- The elements of two lists, those of the first one first and none of the second one twice. -/
def joined {α : Type} [BEq α] (as bs : List α) : List α :=
  as ++ bs.filter fun b => !as.contains b

mutual

/-- The symbols, functions included, that occur free in a term. -/
def freeSymbols : Term → List Symbol
  | .bool _ | .int _ | .real _ | .bitVec _ _ => []
  | .symbol s => [s]
  | .apply f args => joined [f] (freeSymbolsAll args)
  | .not a | .toReal a | .bitUnary _ a | .extract _ _ a | .rotate _ _ a | .widen _ _ a
  | .constArray _ a => a.freeSymbols
  | .and ts | .or ts => freeSymbolsAll ts
  | .implies a b | .iff a b | .equal a b | .arith _ a b | .order _ a b | .select a b
  | .bitOp _ a b | .bitOrder _ a b | .bitEqual a b | .concat a b =>
    joined a.freeSymbols b.freeSymbols
  | .ite a b c | .store a b c => joined a.freeSymbols (joined b.freeSymbols c.freeSymbols)
  | .quantified _ bound a => a.freeSymbols.filter fun s => !bound.contains s

/-- The symbols that occur free in some of the terms. -/
def freeSymbolsAll : List Term → List Symbol
  | [] => []
  | t :: rest => joined t.freeSymbols (freeSymbolsAll rest)

end

@[simp] theorem mem_joined {α : Type} [BEq α] [LawfulBEq α] {as bs : List α} {x : α} :
    x ∈ joined as bs ↔ x ∈ as ∨ x ∈ bs := by
  by_cases h : x ∈ as <;> simp [joined, h]

end Term

end SmtScript
