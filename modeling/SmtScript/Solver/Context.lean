import SmtScript.Solver.Interface

/-!
Solver contexts.

A context wraps a solver. It counts the open scopes and remembers the answer of the last check, so
that models and cores are asked for only when the solver can have them. A context that has been
closed, and a model that has been released, cannot be used any more.
-/

namespace SmtScript

/-- The answer of a check. -/
inductive CheckStatus where
  | sat | unsat | unknown
  deriving DecidableEq, Repr

def CheckStatus.text : CheckStatus → String
  | .sat => "sat"
  | .unsat => "unsat"
  | .unknown => "unknown"

structure Context (σ : Type) where
  /-- The solver, as long as the context is open. -/
  solver : Option σ
  depth : Nat
  /-- The answer of the last check, if nothing has changed since. -/
  last : Option CheckStatus

/-- A step on a context. -/
abbrev ContextStep (σ α : Type) := ExceptT Error (StateM (Context σ × SymbolTable)) α

namespace Context

variable {σ μ : Type}

def ofSolver (solver : σ) : Context σ := ⟨some solver, 1, none⟩

def isClosed (context : Context σ) : Bool := context.solver.isNone

/-- The context without its solver. -/
def close (context : Context σ) : Context σ := { context with solver := none }

/-- The context of a step. -/
def current : ContextStep σ (Context σ) := do
  return (← get).1

/-- Changes the context. -/
def change (f : Context σ → Context σ) : ContextStep σ Unit :=
  modify fun (context, table) => (f context, table)

/-- Fails if the context has been closed. -/
def requireOpen : ContextStep σ Unit := do
  if (← current).isClosed then throw .contextReleased

/-- Calls the solver; a fault becomes an error. -/
def call {α : Type} (toError : Fault → Error) (request : SolverCall σ α) : ContextStep σ α := do
  let (context, table) ← get
  match context.solver with
  | none => throw .contextReleased
  | some solver =>
    let (result, solver, table) := request.run (solver, table)
    set ({ context with solver := some solver }, table)
    match result with
    | .ok a => return a
    | .error f => throw (toError f)

/-- The error of a fault that concerns no term in particular. -/
def plainError (f : Fault) : Error := .fault f none [] []

variable [Solver σ μ]

def add (t : Term) : ContextStep σ Unit := do
  call (fun f => .fault f none [t] []) (Solver.add t)
  change fun c => { c with last := none }

def push (levels : Nat) : ContextStep σ Unit := do
  call plainError (Solver.push levels)
  change fun c => { c with depth := c.depth + levels, last := none }

def pop (levels : Nat) : ContextStep σ Unit := do
  requireOpen
  let depth := (← current).depth
  if depth ≤ levels then throw (.popBeyondContext levels depth)
  call plainError (Solver.pop levels)
  change fun c => { c with depth := c.depth - levels, last := none }

def reset : ContextStep σ Unit := do
  call plainError Solver.reset
  change fun c => { c with depth := 1, last := none }

/-- What the outcome of a check means. A solver that ends without an answer leaves it unknown. -/
def statusOf (assumptions : List Term) : Except Fault Bool → Except Error CheckStatus
  | .ok true => .ok .sat
  | .ok false => .ok .unsat
  | .error f =>
    if f.code = .noAnswer then .ok .unknown else .error (.fault f none assumptions [])

def check (assumptions : List Term) : ContextStep σ CheckStatus := do
  let outcome : Except Fault Bool ← call plainError do
    try return .ok (← Solver.satisfiable assumptions) catch f => return .error f
  match statusOf assumptions outcome with
  | .ok status =>
    change fun c => { c with last := some status }
    return status
  | .error e => throw e

def model : ContextStep σ μ := do
  requireOpen
  match (← current).last with
  | some .sat | some .unknown => call plainError Solver.model
  | _ => throw .noModel

def core : ContextStep σ (List Term) := do
  requireOpen
  match (← current).last with
  | some .unsat => call plainError Solver.core
  | _ => throw .noCore

end Context

/-- A step that asks a model and may make symbols. The model may have been released. -/
abbrev ModelStep (μ α : Type) := ExceptT Error (StateM (Option μ × SymbolTable)) α

namespace Model

variable {σ μ : Type}

/-- The error of a fault in a question about a term. -/
def errorAbout (t : Term) : Fault → Error
  | .needsOwnModel => .fault .needsOwnModel none [] []
  | f => .fault f none [t] [t.sort]

/-- Asks the model, unless it has been released; a fault becomes an error. -/
def ask {α : Type} (t : Term) (query : ModelQuery μ α) : ModelStep μ α := do
  match ← get with
  | (none, _) => throw .modelReleased
  | (some model, table) =>
    let (result, model, table) := query.run (model, table)
    set (some model, table)
    match result with
    | .ok a => return a
    | .error f => throw (errorAbout t f)

/-- The value of a term. -/
def evaluate [Solver σ μ] (t : Term) : ModelStep μ Term :=
  ask t (Solver.evaluate σ t)

/-- The definition of a function. -/
def interpret [Solver σ μ] (f : Symbol) : ModelStep μ (List Symbol × Term) :=
  ask (.symbol f) (Solver.interpret σ f)

end Model

end SmtScript
