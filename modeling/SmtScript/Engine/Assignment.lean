import SmtScript.Term.Eval

/-!
Partial assignments.

An assignment gives values to locations: to constants, to the results of functions at given
arguments, and to the elements of either at given indices, if they are arrays. What it leaves open
can be completed: `Completion.interpretation` takes a default wherever nothing is said.
Quantifiers range over finitely many values, which lie around zero.
-/

namespace SmtScript

namespace Engine

/-- The symbol that stands for all symbols which the engine does not tell apart: it reads names up
to the first character of code zero. -/
def plain (s : Symbol) : Symbol :=
  if s.name.toList.contains '\x00' then
    { s with name := String.ofList (s.name.toList.takeWhile (· ≠ '\x00')) }
  else s

/-- A value at which a function or an array is looked at, as it was met first and in normal form.
Only the normal form tells arguments apart. -/
structure Argument where
  shown : Value
  key : Value
  deriving Repr

namespace Argument

instance : BEq Argument := ⟨fun a b => a.key == b.key⟩

def ofValue (v : Value) : Argument := ⟨v, v.normal⟩

end Argument

/-- A place that holds a value of its own. -/
inductive Location where
  | constant (symbol : Symbol)
  | result (function : Symbol) (args : List Argument)
  /-- The element of an array that is a location itself. -/
  | element (array : Location) (index : Argument)
  deriving BEq, Repr

namespace Location

/-- The sort of the values of a location. -/
def sort : Location → SmtSort
  | .constant s => s.sort
  | .result f _ => f.sort.target
  | .element array _ => array.sort.element

/-- The symbol that a location belongs to. -/
def symbol : Location → Symbol
  | .constant s => s
  | .result f _ => f
  | .element array _ => array.symbol

/-- The index under which a location lies in an array, directly or deeper down. -/
def indexIn (array : Location) : Location → Option Argument
  | .element other index => if other == array then some index else indexIn array other
  | _ => none

end Location

/-- Values of locations, newest first. -/
abbrev Assignment := List (Location × Value)

namespace Assignment

def value? (σ : Assignment) (place : Location) : Option Value :=
  σ.lookup place

/-- The values that a function is known to take, oldest first, with their arguments. -/
def entries (σ : Assignment) (f : Symbol) : List (List Value × Value) :=
  σ.reverse.filterMap fun (place, v) =>
    match place with
    | .result g args => if g = plain f then some (args.map Argument.shown, v) else none
    | _ => none

/-- The indices under which something is known of an array, oldest first. -/
def indices (σ : Assignment) (array : Location) : List Argument :=
  (σ.reverse.filterMap fun (place, _) => Location.indexIn array place).eraseDups

/-- A value of a sort for a location, made from what is known of its elements. -/
def build (σ : Assignment) : SmtSort → Location → Value
  | .array index values, array =>
    (σ.indices array).foldl (fun built i =>
      let place : Location := .element array i
      built.store i.shown ((σ.value? place).getD (build σ values place)))
      (.default (.array index values))
  | sort, _ => .default sort

/-- The value of a location, or one that agrees with what is known of its elements. -/
def valueAt (σ : Assignment) (place : Location) : Value :=
  (σ.value? place).getD (σ.build place.sort place)

/-- The value of a constant, or one that agrees with what is known of its elements. -/
def constantValue (σ : Assignment) (s : Symbol) : Value :=
  σ.valueAt (.constant (plain s))

/-- How many elements of an uninterpreted sort a value mentions, counted from the first. -/
def elementsUpTo (sort : String) : Value → Nat
  | .element other number => if other = sort then number + 1 else 0
  | .update array key value =>
    max (elementsUpTo sort array) (max (elementsUpTo sort key) (elementsUpTo sort value))
  | .constArray _ value => elementsUpTo sort value
  | _ => 0

/-- How many elements of an uninterpreted sort are in use. -/
def population (σ : Assignment) (sort : String) : Nat :=
  (σ.map fun (_, v) => elementsUpTo sort v).foldl max 0

end Assignment

/-- The farthest integers from zero that are looked at where nothing bounds a number. -/
def reach : Nat := 64

/-- The integers from one to another. -/
def intsFrom (low high : Int) : List Int :=
  (List.range (high + 1 - low).toNat).map fun (i : Nat) => low + i

/-- The quarters from one to another, which are given as multiples of a quarter. -/
def quartersFrom (low high : Int) : List Rat :=
  (intsFrom low high).map fun n => mkRat n 4

/-- All bit-vectors of a width. -/
def allBits (width : Nat) : List Value :=
  (List.range (Nat.pow 2 width)).map fun n => .bitVec width (BitVec.ofNat width n)

/-- The greatest width of which all bit-vectors are looked at; of others, only small ones are. -/
def widestRange : Nat := 16

/-- The bit-vectors of a width that are looked at. -/
def someBits (width : Nat) : List Value :=
  if width ≤ widestRange then allBits width
  else (List.range (4 * reach)).map fun n => .bitVec width (BitVec.ofNat width n)

namespace Assignment

/-- The integers next to the numbers that are in use. -/
def nearbyInts (σ : Assignment) : List Int :=
  σ.filterMap fun (_, v) =>
    match v with
    | .int n => some n
    | .real q => some q.floor
    | _ => none

/-- The values that a quantifier ranges over. Fewer numbers are looked at if other quantifiers go
through their values for each of them. -/
def range (σ : Assignment) (isNested : Bool) : SmtSort → List Value
  | .bool => [.bool false, .bool true]
  | .int =>
    let far : Nat := if isNested then reach / 2 else reach
    (intsFrom (-far) far ++ σ.nearbyInts).map .int
  | .real =>
    let far : Nat := if isNested then reach / 8 else reach
    (quartersFrom (-4 * far) (4 * far)).map .real
  | .bitVec width => someBits width
  | .user name =>
    (List.range (max 1 (σ.population name))).map (.element name)
  | sort => [.default sort]

end Assignment

/-- An assignment that is to be completed. -/
structure Completion where
  assignment : Assignment
  /-- Whether a function has the default of its sort wherever nothing is known of it. Otherwise it
  has the value there that it was found to have first. -/
  plainElse : Bool

namespace Completion

/-- The value of a function where nothing is known of it. -/
def elseValue (model : Completion) (f : Symbol) : Value :=
  match model.plainElse, model.assignment.entries f with
  | false, (_, v) :: _ => v
  | _, _ => .default f.sort.target

/-- The value of a function at some arguments. -/
def resultValue (model : Completion) (f : Symbol) (args : List Value) : Value :=
  (model.assignment.value? (.result (plain f) (args.map .ofValue))).getD (model.elseValue f)

/-- The interpretation that completes an assignment. -/
def interpretation (model : Completion) : Interpretation where
  symbol := model.assignment.constantValue
  apply := model.resultValue
  holdsOfAll := fun sort property => (model.assignment.range false sort).all property

end Completion

end Engine

end SmtScript
