import SmtScript.Error
import SmtScript.Table

/-!
Environments: what names stand for.

An environment has two tiers. Permanent bindings are shared by all the environments of a tree,
whichever of them they are made in. Scoped bindings belong to one environment and to those that
extend it, and hide permanent ones. `EnvironmentTree` keeps the environments that arise from one
empty environment: they refer to one table of permanent bindings, and each has a scope of its own.
-/

namespace SmtScript

/-- Names bound in a lexical scope, innermost binding first. -/
abbrev Scope (α : Type) := List (String × α)

namespace Scope

variable {α : Type}

/-- Adds bindings in order, so that of two with one name the later counts. -/
def extend (scope : Scope α) (bindings : List (String × α)) : Scope α :=
  bindings.reverse ++ scope

end Scope

structure Environment (α : Type) where
  permanent : Table α
  scope : Scope α
  deriving Inhabited

namespace Environment

variable {α : Type}

def empty : Environment α := ⟨.empty, []⟩

/-- What a name stands for. -/
def find? (env : Environment α) (name : String) : Option α :=
  match env.scope.lookup name with
  | some value => some value
  | none => env.permanent.get? name

def contains (env : Environment α) (name : String) : Bool :=
  (env.find? name).isSome

/-- What a name stands for; an unbound name is an error. -/
def resolve (env : Environment α) (name : String) : Except Error α :=
  match env.find? name with
  | some value => .ok value
  | none => .error (.unbound name)

/-- The environment inside a scope with more bindings. -/
def extend (env : Environment α) (bindings : List (String × α)) : Environment α :=
  { env with scope := env.scope.extend bindings }

end Environment

/-- An environment that shares its permanent bindings with others: the place of the table that
holds them, and its own scope. -/
structure SharedEnvironment (α : Type) where
  table : Nat
  scope : Scope α

/-- The environments that arise from an empty one, in the order in which they were made, and the
tables that they refer to. -/
structure EnvironmentTree (α : Type) where
  tables : Array (Table α)
  environments : Array (SharedEnvironment α)

namespace EnvironmentTree

variable {α : Type}

/-- Adds an empty environment with a table of its own. -/
def create (tree : EnvironmentTree α) : EnvironmentTree α :=
  ⟨tree.tables.push .empty, tree.environments.push ⟨tree.tables.size, []⟩⟩

/-- The tree of a single empty environment. -/
def single : EnvironmentTree α := create ⟨#[], #[]⟩

def size (tree : EnvironmentTree α) : Nat := tree.environments.size

/-- One of the environments of a tree. -/
def environment? (tree : EnvironmentTree α) (index : Nat) : Option (Environment α) := do
  let environment ← tree.environments[index]?
  let table ← tree.tables[environment.table]?
  return ⟨table, environment.scope⟩

/-- Binds a name in the table that an environment refers to. -/
def bind (tree : EnvironmentTree α) (name : String) (value : α) (index : Nat := 0) :
    EnvironmentTree α :=
  match tree.environments[index]? with
  | some environment =>
    { tree with tables := tree.tables.modify environment.table (·.insert name value) }
  | none => tree

/-- Adds the environment that extends another one; gives its index, too. -/
def extend (tree : EnvironmentTree α) (index : Nat) (bindings : List (String × α)) :
    EnvironmentTree α × Nat :=
  match tree.environments[index]? with
  | some environment =>
    let extended := { environment with scope := environment.scope.extend bindings }
    ({ tree with environments := tree.environments.push extended }, tree.size)
  | none => (tree, tree.size)

end EnvironmentTree

end SmtScript
