import SmtScript.Error
import SmtScript.Text.Numeral

/-!
Sorts in scripts.

A table of sorts holds the names that the script declares. Where a declared name is also that of a
built-in sort, it stands for the declared one.
-/

namespace SmtScript

/-- The sort names that a script declares, newest first. -/
structure SortTable where
  declared : List String
  deriving DecidableEq, Repr, Inhabited

namespace SortTable

def empty : SortTable := ⟨[]⟩

def contains (table : SortTable) (name : String) : Bool :=
  table.declared.contains name

/-- Declares an uninterpreted sort. Sorts with parameters are refused. -/
def declare (table : SortTable) (name : String) (arity : Int) :
    Except Error (SmtSort × SortTable) :=
  if arity = 0 then .ok (.user name, ⟨name :: table.declared⟩)
  else .error (.sortWithParameters name arity)

/-- The sort that a name stands for. -/
def ofName (table : SortTable) (name : String) : Except Error SmtSort :=
  if table.contains name then .ok (.user name)
  else if name = "Bool" then .ok .bool
  else if name = "Int" then .ok .int
  else if name = "Real" then .ok .real
  else .error (.unknownSort name)

/-- The bit-vector sort whose width is written as a numeral. -/
def ofWidth (sexpr : SExpr) (width : String) : Except Error SmtSort :=
  match Numeral.read width with
  | .value 0 => .error (.badWidth sexpr)
  | .value n => .ok (.bitVec n)
  | .absent => .error (.badWidth sexpr)
  | .unreadable => .error .defect

/-- The sort that an S-expression stands for. -/
def parse (table : SortTable) : SExpr → Except Error SmtSort
  | .atom name => table.ofName name
  | .list [.atom "Array", index, element] => do
    let index ← table.parse index
    let element ← table.parse element
    return .array index element
  | .list [.atom "_", .atom "BitVec", .atom width] =>
    ofWidth (.list [.atom "_", .atom "BitVec", .atom width]) width
  | .list items => .error (.unsupportedSort (.list items))

end SortTable

end SmtScript
