import SmtScript.Solver.Interface
import SmtScript.Term.Substitute

/-!
Functions of models.

A model knows the values of a function at some arguments and has one value, which may depend on the
arguments, for all others. What it knows is told as a definition: parameters, and a body that looks
for the known arguments one after the other.
-/

namespace SmtScript

/-- What a model has on a function. -/
structure FunctionTable where
  /-- Values at known arguments. -/
  entries : List (List Term × Term)
  /-- What stands for the arguments in the value at all others. -/
  formals : List Symbol
  otherwise : Term

namespace FunctionTable

/-- The condition that parameters have given values. -/
def argumentsAre (parameters : List Symbol) (args : List Term) : Except Fault Term := do
  Term.mkAnd
    (← (parameters.zip args).mapM fun (p, arg) => Term.mkSame (.symbol p) arg)

/-- A term for the value of the first entry whose arguments are the parameters, or else another
value. -/
def distinguish (parameters : List Symbol) (otherwise : Term) :
    List (List Term × Term) → Except Fault Term
  | [] => .ok otherwise
  | (args, v) :: rest => do
    let body ← distinguish parameters otherwise rest
    Term.mkIte (← argumentsAre parameters args) v body

/-- The body of the function for some parameters. -/
def body (table : FunctionTable) (parameters : List Symbol) : Except Fault Term := do
  let otherwise ← table.otherwise.substitute (table.formals.zip (parameters.map .symbol))
  distinguish parameters otherwise table.entries

end FunctionTable

/-- What has to be asked of a model to define its functions. -/
structure FunctionSource (μ : Type) where
  /-- Takes in an application. -/
  accept : Term → ModelQuery μ Unit
  /-- What there is on a function, if there is anything. -/
  table? : Symbol → ModelQuery μ (Option FunctionTable)
  /-- The value of an application. -/
  value : Term → ModelQuery μ Term

/-- Parameters and a body that define a function. The body is a value of the function if there is
nothing on it. -/
def FunctionSource.define {μ : Type} (source : FunctionSource μ) (f : Symbol) :
    ModelQuery μ (List Symbol × Term) := do
  let parameters ← modifyGet fun (model, table) =>
    let (parameters, table) := table.freshAll "x!" f.sort.domains
    (parameters, (model, table))
  let application := Term.apply f (parameters.map .symbol)
  source.accept application
  match ← source.table? f with
  | none => return (parameters, ← source.value application)
  | some table =>
    match table.body parameters with
    | .ok body => return (parameters, body)
    | .error fault => throw fault

end SmtScript
