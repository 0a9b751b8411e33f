/-!
Sorts of terms.

Functions have curried sorts: a function of two arguments maps the first domain to a function of
the second. No script can write such a sort, it only arises from declarations with arguments.
A sort has two written forms: `SmtSort.text` is the one that scripts use, `SmtSort.name` the one
that messages use. A declared sort may have the empty name and then has neither of them, nor has a
sort of functions that take or yield it: `SmtSort.isNamed` tells.
-/

namespace SmtScript

inductive SmtSort where
  | bool
  | int
  | real
  | bitVec (width : Nat)
  | array (index element : SmtSort)
  /-- An uninterpreted sort that the script declares. -/
  | user (name : String)
  | arrow (domain codomain : SmtSort)
  deriving DecidableEq, Repr, Inhabited, Hashable

namespace SmtSort

/-- The sort of functions with the given argument sorts. -/
def function (domains : List SmtSort) (codomain : SmtSort) : SmtSort :=
  domains.foldr arrow codomain

/-- The argument sorts of a function sort. -/
def domains : SmtSort → List SmtSort
  | .arrow domain codomain => domain :: codomain.domains
  | _ => []

/-- What a function of this sort yields when all arguments are given. -/
def target : SmtSort → SmtSort
  | .arrow _ codomain => codomain.target
  | sort => sort

/-- What is left of a function sort after some arguments. -/
def afterArguments : Nat → SmtSort → SmtSort
  | count + 1, .arrow _ codomain => codomain.afterArguments count
  | _, sort => sort

def isFunction : SmtSort → Bool
  | .arrow _ _ => true
  | _ => false

def isUser : SmtSort → Bool
  | .user _ => true
  | _ => false

/-- The width of a bit-vector sort. -/
def width? : SmtSort → Option Nat
  | .bitVec width => some width
  | _ => none

/-- The width of a bit-vector sort, zero for any other sort. -/
def width (sort : SmtSort) : Nat :=
  sort.width?.getD 0

/-- The element sort of an array sort; any other sort is its own element sort. -/
def element : SmtSort → SmtSort
  | .array _ element => element
  | sort => sort

/-- Whether no sort without a name occurs in a sort. -/
def isNamed : SmtSort → Bool
  | .user name => !name.isEmpty
  | .array index element => index.isNamed && element.isNamed
  | .arrow domain codomain => domain.isNamed && codomain.isNamed
  | _ => true

/-- The form of a sort in scripts. -/
def text : SmtSort → String
  | .bool => "Bool"
  | .int => "Int"
  | .real => "Real"
  | .bitVec width => "(_ BitVec " ++ toString width ++ ")"
  | .array index element => "(Array " ++ index.text ++ " " ++ element.text ++ ")"
  | .user name => if name.isEmpty then "None" else name
  | .arrow domain codomain => domain.text ++ " -> " ++ codomain.text

/-- The form of a sort in messages. -/
def name : SmtSort → String
  | .bool => "Bool"
  | .int => "Int"
  | .real => "Real"
  | .bitVec width => "BV\x7b" ++ toString width ++ "\x7d"
  | .array index element => "Array\x7b" ++ index.name ++ ", " ++ element.name ++ "\x7d"
  | .user name => name
  | .arrow domain codomain => domain.name ++ " -> " ++ codomain.name

/-- The form of a sort in messages, if it has one. -/
def name? (sort : SmtSort) : Option String :=
  if sort.isNamed then some sort.name else none

theorem domains_function (domains : List SmtSort) (codomain : SmtSort)
    (h : codomain.isFunction = false) : (function domains codomain).domains = domains := by
  induction domains with
  | nil => cases codomain <;> simp_all [function, SmtSort.domains, isFunction]
  | cons d ds ih => simpa [function, SmtSort.domains] using ih

theorem target_function (domains : List SmtSort) (codomain : SmtSort)
    (h : codomain.isFunction = false) : (function domains codomain).target = codomain := by
  induction domains with
  | nil => cases codomain <;> simp_all [function, target, isFunction]
  | cons d ds ih => simpa [function, target] using ih

theorem domains_of_isFunction {sort : SmtSort} (h : sort.isFunction = true) :
    sort.domains ≠ [] := by
  cases sort <;> simp_all [isFunction, SmtSort.domains]

end SmtSort

end SmtScript
