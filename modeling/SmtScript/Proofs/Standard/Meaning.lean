import SmtScript.Environment
import SmtScript.Proofs.Literal
import SmtScript.Term.Value

/-!
The standard meaning of S-expressions over Booleans and numbers.

`Standard.Means` relates an S-expression to its sort and its meaning, by the signatures and the
semantics that SMT-LIB gives the operators of Core, Ints and Reals. The one liberty is that an Int
operand may stand where its siblings are Real; it stands for the same number. Nothing here knows
of terms: the operators have names, signatures and values of their own.
-/

namespace SmtScript

namespace Standard

inductive Op where
  | not | implies | and | or | xor | equal | distinct | ite
  | add | sub | mul | realDiv | intDiv | mod | abs | toReal
  | le | lt | ge | gt
  deriving DecidableEq, Repr

/-- The names of the operators. -/
def Op.names : List (String × Op) :=
  [("not", .not), ("=>", .implies), ("and", .and), ("or", .or), ("xor", .xor), ("=", .equal),
   ("distinct", .distinct), ("ite", .ite), ("+", .add), ("-", .sub), ("*", .mul),
   ("/", .realDiv), ("div", .intDiv), ("mod", .mod), ("abs", .abs), ("to_real", .toReal),
   ("<=", .le), ("<", .lt), (">=", .ge), (">", .gt)]

def Op.ofName? (name : String) : Option Op := Op.names.lookup name

/-! ### Signatures -/

def IsNumeric (sort : SmtSort) : Prop := sort = .int ∨ sort = .real

/-- Numbers, and the sort that they have together: Real if one of them is Real. -/
inductive Numeric : List SmtSort → SmtSort → Prop where
  | int {sorts} (h : ∀ sort ∈ sorts, sort = .int) : Numeric sorts .int
  | real {sorts} (h : ∀ sort ∈ sorts, IsNumeric sort) (hreal : SmtSort.real ∈ sorts) :
      Numeric sorts .real

/-- Operands that go together: all Boolean, or numbers. -/
inductive Common : List SmtSort → SmtSort → Prop where
  | bool {sorts} (h : ∀ sort ∈ sorts, sort = .bool) : Common sorts .bool
  | numeric {sorts sort} (h : Numeric sorts sort) : Common sorts sort

/-- The signatures of the operators. -/
inductive Op.Takes : Op → List SmtSort → SmtSort → Prop where
  | not : Op.Takes .not [.bool] .bool
  | implies {sorts} (hlen : 2 ≤ sorts.length) (h : ∀ sort ∈ sorts, sort = .bool) :
      Op.Takes .implies sorts .bool
  | and {sorts} (hlen : 2 ≤ sorts.length) (h : ∀ sort ∈ sorts, sort = .bool) :
      Op.Takes .and sorts .bool
  | or {sorts} (hlen : 2 ≤ sorts.length) (h : ∀ sort ∈ sorts, sort = .bool) :
      Op.Takes .or sorts .bool
  | xor {sorts} (hlen : 2 ≤ sorts.length) (h : ∀ sort ∈ sorts, sort = .bool) :
      Op.Takes .xor sorts .bool
  | equal {sorts sort} (hlen : 2 ≤ sorts.length) (h : Common sorts sort) :
      Op.Takes .equal sorts .bool
  | distinct {sorts sort} (hlen : 2 ≤ sorts.length) (h : Common sorts sort) :
      Op.Takes .distinct sorts .bool
  | ite {left right sort} (h : Common [left, right] sort) :
      Op.Takes .ite [.bool, left, right] sort
  | add {sorts sort} (hlen : 2 ≤ sorts.length) (h : Numeric sorts sort) : Op.Takes .add sorts sort
  | sub {sorts sort} (hlen : 1 ≤ sorts.length) (h : Numeric sorts sort) : Op.Takes .sub sorts sort
  | mul {sorts sort} (hlen : 2 ≤ sorts.length) (h : Numeric sorts sort) : Op.Takes .mul sorts sort
  | realDiv {sorts sort} (hlen : 2 ≤ sorts.length) (h : Numeric sorts sort) :
      Op.Takes .realDiv sorts .real
  | intDiv {sorts} (hlen : 2 ≤ sorts.length) (h : ∀ sort ∈ sorts, sort = .int) :
      Op.Takes .intDiv sorts .int
  | mod : Op.Takes .mod [.int, .int] .int
  | abs : Op.Takes .abs [.int] .int
  | toReal : Op.Takes .toReal [.int] .real
  | le {sorts sort} (hlen : 2 ≤ sorts.length) (h : Numeric sorts sort) : Op.Takes .le sorts .bool
  | lt {sorts sort} (hlen : 2 ≤ sorts.length) (h : Numeric sorts sort) : Op.Takes .lt sorts .bool
  | ge {sorts sort} (hlen : 2 ≤ sorts.length) (h : Numeric sorts sort) : Op.Takes .ge sorts .bool
  | gt {sorts sort} (hlen : 2 ≤ sorts.length) (h : Numeric sorts sort) : Op.Takes .gt sorts .bool

/-! ### Values -/

/-- The integer that a value is. -/
def integer : Value → Int
  | .int n => n
  | _ => 0

/-- The number that a value is, of either sort. -/
def number : Value → Rat
  | .int n => n
  | .real q => q
  | _ => 0

def isReal : Value → Bool
  | .real _ => true
  | _ => false

/-- The values as numbers of one sort, if there are numbers of both among them. -/
def unified (vs : List Value) : List Value :=
  if vs.any isReal then vs.map fun v => .real (number v) else vs

/-- Combines the elements of a list from the left. -/
def fromLeft {α : Type} [Inhabited α] (f : α → α → α) : List α → α
  | [] => default
  | first :: rest => rest.foldl f first

/-- Combines the elements of a list from the right. -/
def fromRight {α : Type} [Inhabited α] (f : α → α → α) : List α → α
  | [] => default
  | [last] => last
  | first :: rest => f first (fromRight f rest)

/-- Integers are combined as integers; where there is a Real, all numbers are combined as reals. -/
def combined (onInt : Int → Int → Int) (onReal : Rat → Rat → Rat) (vs : List Value) : Value :=
  if vs.any isReal then .real (fromLeft onReal (vs.map number))
  else .int (fromLeft onInt (vs.map integer))

/-- What division by zero yields, which the standard leaves open. -/
structure ZeroDivision where
  real : Rat → Rat
  quotient : Int → Int
  remainder : Int → Int

variable (z : ZeroDivision)

def ZeroDivision.divReal (a b : Rat) : Rat :=
  if b = 0 then z.real a else a / b

/-- The integer quotient that leaves a remainder that is not negative. -/
def ZeroDivision.divInt (a b : Int) : Int :=
  if b = 0 then z.quotient a else Int.ediv a b

def ZeroDivision.modInt (a b : Int) : Int :=
  if b = 0 then z.remainder a else Int.emod a b

/-- The value of an application. -/
def Op.value (op : Op) (vs : List Value) : Value :=
  match op, vs with
  | .not, [a] => .bool !a.isTrue
  | .implies, vs => .bool (fromRight (fun a b => !a || b) (vs.map Value.isTrue))
  | .and, vs => .bool (vs.all Value.isTrue)
  | .or, vs => .bool (vs.any Value.isTrue)
  | .xor, vs => .bool (fromLeft Bool.xor (vs.map Value.isTrue))
  | .equal, vs => .bool (decide ((unified vs).IsChain (· = ·)))
  | .distinct, vs => .bool (decide ((unified vs).Pairwise (· ≠ ·)))
  | .ite, [c, a, b] =>
    match unified [a, b] with
    | [a, b] => if c.isTrue then a else b
    | _ => default
  | .add, vs => combined (· + ·) (· + ·) vs
  | .sub, [a] => if isReal a then .real (-number a) else .int (-integer a)
  | .sub, vs => combined (· - ·) (· - ·) vs
  | .mul, vs => combined (· * ·) (· * ·) vs
  | .realDiv, vs => .real (fromLeft z.divReal (vs.map number))
  | .intDiv, vs => .int (fromLeft z.divInt (vs.map integer))
  | .mod, [a, b] => .int (z.modInt (integer a) (integer b))
  | .abs, [a] => .int (integer a).natAbs
  | .toReal, [a] => .real (integer a)
  | .le, vs => .bool (decide ((vs.map number).IsChain (· ≤ ·)))
  | .lt, vs => .bool (decide ((vs.map number).IsChain (· < ·)))
  | .ge, vs => .bool (decide ((vs.map number).IsChain (· ≥ ·)))
  | .gt, vs => .bool (decide ((vs.map number).IsChain (· > ·)))
  | _, _ => default

/-- The numbers that an application divides by. -/
def Op.divisors (op : Op) (vs : List Value) : List Rat :=
  match op with
  | .realDiv => vs.tail.map number
  | .intDiv | .mod => vs.tail.map fun v => (integer v : Rat)
  | _ => []

/-! ### Meanings -/

/-- Values of the names that are in scope. -/
abbrev Assignment := String → Value

/-- A value for each assignment, and for which assignments it is settled because no divisor is
zero. -/
structure Meaning where
  value : Assignment → Value
  defined : Assignment → Prop

def Meaning.settled (value : Assignment → Value) : Meaning := ⟨value, fun _ => True⟩

/-- The meaning of an application. -/
def Op.meaning (op : Op) (operands : List Meaning) : Meaning where
  value ρ := op.value z (operands.map fun m => m.value ρ)
  defined ρ :=
    (∀ m ∈ operands, m.defined ρ) ∧
      ∀ d ∈ op.divisors (operands.map fun m => m.value ρ), d ≠ 0

/-- The value of a Boolean or numeric literal. -/
def literalValue : Literal → Value
  | .bool b => .bool b
  | .int n => .int n
  | .real q => .real q
  | .bitVec width b => .bitVec width b

/-- Names that are in the way of neither operators nor literals. -/
def Plain (name : String) : Prop :=
  Op.ofName? name = none ∧ ∀ literal, ¬ Literal.Denotes name.toList literal

/-- The sorts of the names that are in scope. -/
abbrev Context := String → Option SmtSort

/-- An S-expression with its sort and its meaning. -/
structure Part where
  sexpr : SExpr
  sort : SmtSort
  meaning : Meaning

/-- What a name is bound to. -/
structure Bound extends Part where
  name : String

def Bound.binding (b : Bound) : SExpr := .list [.atom b.name, b.toPart.sexpr]

/-- What bindings add to a scope; of two with one name the later counts. -/
def lookupBound (bound : List Bound) (name : String) : Option Bound :=
  bound.reverse.find? (·.name == name)

def Context.bind (Γ : Context) (bound : List Bound) : Context := fun name =>
  match lookupBound bound name with
  | some b => some b.sort
  | none => Γ name

/-- All bindings take their values outside of the scope that they make. -/
def Assignment.bind (ρ : Assignment) (bound : List Bound) : Assignment := fun name =>
  match lookupBound bound name with
  | some b => b.meaning.value ρ
  | none => ρ name

/-- The meaning of a body inside of bindings. -/
def Meaning.within (bound : List Bound) (body : Meaning) : Meaning where
  value ρ := body.value (ρ.bind bound)
  defined ρ := (∀ b ∈ bound, b.meaning.defined ρ) ∧ body.defined (ρ.bind bound)

/-- The sort and the meaning of an S-expression, in a context. -/
inductive Means : Context → SExpr → SmtSort → Meaning → Prop where
  | literal {Γ text literal} (h : Literal.Denotes text.toList literal) :
      Means Γ (.atom text) (literalValue literal).sort (.settled fun _ => literalValue literal)
  | name {Γ name sort} (h : Γ name = some sort) :
      Means Γ (.atom name) sort (.settled fun ρ => ρ name)
  | apply {Γ head op sort} {parts : List Part} (hop : Op.ofName? head = some op)
      (hparts : ∀ p ∈ parts, Means Γ p.sexpr p.sort p.meaning)
      (hsorts : op.Takes (parts.map Part.sort) sort) :
      Means Γ (.list (.atom head :: parts.map Part.sexpr)) sort
        (op.meaning z (parts.map Part.meaning))
  | bind {Γ body sort meaning} {bound : List Bound} (hne : bound ≠ [])
      (hplain : ∀ b ∈ bound, Plain b.name)
      (hbound : ∀ b ∈ bound, Means Γ b.toPart.sexpr b.sort b.meaning)
      (hbody : Means (Γ.bind bound) body sort meaning) :
      Means Γ (.list [.atom "let", .list (bound.map Bound.binding), body]) sort
        (meaning.within bound)

end Standard

end SmtScript
