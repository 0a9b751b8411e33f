import SmtScript.Configuration
import SmtScript.Term.Build

/-!
Solvers.

A solver holds formulas in scopes, decides whether they can be true together, and, depending on
the answer, has a model or an unsatisfiable core. `Solver σ μ` says what a type `σ` of solver
states and a type `μ` of models have to offer. Calls may fail, and they may make symbols.
-/

namespace SmtScript

/-- A call of a solver with state `σ`. -/
abbrev SolverCall (σ α : Type) := ExceptT Fault (StateM (σ × SymbolTable)) α

/-- A question to a model of type `μ`, which may remember that it was asked. -/
abbrev ModelQuery (μ α : Type) := ExceptT Fault (StateM (μ × SymbolTable)) α

class Solver (σ : Type) (μ : outParam Type) where
  /-- A solver that holds no formula. -/
  start : SolverOptions → σ
  add : Term → SolverCall σ Unit
  /-- Opens scopes. -/
  push : Nat → SolverCall σ Unit
  /-- Drops scopes with the formulas in them. -/
  pop : Nat → SolverCall σ Unit
  /-- Drops all formulas and scopes. -/
  reset : SolverCall σ Unit
  /-- Whether the formulas, and the assumptions with them, can be true together. -/
  satisfiable : List Term → SolverCall σ Bool
  /-- A model of the formulas last found satisfiable. -/
  model : SolverCall σ μ
  /-- Some of the formulas that are not satisfiable together. -/
  core : SolverCall σ (List Term)
  /-- The value of a term. -/
  evaluate : Term → ModelQuery μ Term
  /-- Parameters and a body that define a function. -/
  interpret : Symbol → ModelQuery μ (List Symbol × Term)

end SmtScript
