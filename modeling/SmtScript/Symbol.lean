import SmtScript.Sort
import SmtScript.Text.Template

/-!
Symbols, and the table of all symbols of a session.

A symbol is known by its name: no two symbols of one table share a name, and a symbol stays in
the table for good. `SymbolTable.fresh` makes a symbol whose name is a stem followed by the least
number, counting on from the last one given out, that makes the name new. The number is filled into
a format, in which the stem is escaped.
-/

namespace SmtScript

structure Symbol where
  name : String
  sort : SmtSort
  deriving DecidableEq, Repr, Inhabited, Hashable

/-- All symbols made so far, newest first, and the number to try next for a fresh name. -/
structure SymbolTable where
  symbols : List Symbol
  counter : Nat
  deriving DecidableEq, Repr, Inhabited

namespace SymbolTable

def empty : SymbolTable := ⟨[], 0⟩

/-- Whether a name is taken. -/
def hasName (table : SymbolTable) (name : String) : Bool :=
  table.symbols.any (·.name == name)

/-- The symbol of a name. -/
def find? (table : SymbolTable) (name : String) : Option Symbol :=
  table.symbols.find? (·.name == name)

def add (table : SymbolTable) (symbol : Symbol) : SymbolTable :=
  { table with symbols := symbol :: table.symbols }

/-- The first number from `count` on that makes a new name, looking at no more than `tries` names
that are taken. -/
def unusedCount (table : SymbolTable) (template : Template) : Nat → Nat → Nat
  | 0, count => count
  | tries + 1, count =>
    if table.hasName (template.fill count) then unusedCount table template tries (count + 1)
    else count

/-- A new symbol named by a stem and a number. A table of `n` symbols can take `n` names at most,
so the search needs no more than `n` tries. -/
def fresh (table : SymbolTable) (stem : String) (sort : SmtSort) : Symbol × SymbolTable :=
  let template := Template.numbering stem
  let count := table.unusedCount template table.symbols.length table.counter
  let symbol : Symbol := ⟨template.fill count, sort⟩
  (symbol, ⟨symbol :: table.symbols, count + 1⟩)

/-- New symbols of several sorts, one after the other. -/
def freshAll (table : SymbolTable) (stem : String) :
    List SmtSort → List Symbol × SymbolTable
  | [] => ([], table)
  | sort :: rest =>
    let (symbol, table) := table.fresh stem sort
    let (symbols, table) := table.freshAll stem rest
    (symbol :: symbols, table)

end SymbolTable

end SmtScript
