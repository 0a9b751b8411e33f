import SmtScript.Term.Display

/-!
Faults: what a term constructor or a solver refuses.

A fault says what is wrong and nothing about where in a script. It has a message, a code that names
its class, and in some cases the value at fault.
-/

namespace SmtScript

/-- The class of a fault. -/
inductive FaultCode where
  | typeError
  | invalidValue
  | unsupportedOperator
  | noSolver
  | coresDisabled
  | invalidStatus
  /-- The solver failed inside. -/
  | inner
  | solverError
  /-- The solver ends without an answer. -/
  | noAnswer
  /-- A context or a model is used after its release. -/
  | released
  deriving DecidableEq, Repr

def FaultCode.text : FaultCode → String
  | .typeError => "type-error"
  | .invalidValue => "invalid-value"
  | .unsupportedOperator => "unsupported-operator"
  | .noSolver => "no-solver"
  | .coresDisabled => "unsat-cores-disabled"
  | .invalidStatus => "invalid-status"
  | .inner => "internal"
  | .solverError | .noAnswer => "solver-error"
  | .released => "released"

inductive Fault where
  /-- A node whose operands do not fit. -/
  | illFormed (term : Term)
  /-- An equality of other than Boolean terms whose left operand is Boolean. -/
  | boolEquality (term : Term)
  | notInteger (sort : SmtSort)
  | doesNotFit (value width : Nat)
  | emptyName
  /-- A symbol that exists already with another sort. -/
  | redefined (name : String) (sort previous : SmtSort)
  /-- A function that stands where only terms can. -/
  | notATerm (function : Symbol)
  /-- A constant array where it matters whether a term is a certain number. -/
  | arrayForNumber
  | unavailable (solver : String)
  | unsupportedLogic (solver logic : String)
  | notBoolean
  | coresDisabled
  | modelUnavailable
  /-- A core is asked for after another call than the check that found it. -/
  | changedSince (call : String)
  /-- A value whose sort has an uninterpreted part. -/
  | noSuchValue (sort : String)
  | needsOwnModel
  /-- A failure that a solver reports by itself. -/
  | reported (code : FaultCode) (title message : String) (badValue : Option String)
  /-- A failure inside a solver, about which nothing is told. -/
  | broken
  deriving Repr, Inhabited

namespace Fault

def message : Fault → String
  | .illFormed t => "The formula '" ++ t.display ++ "' is not well-formed"
  | .boolEquality t =>
    "The formula '" ++ t.display ++ "' is not well-formed." ++
      "Equality operator is not supported for Boolean terms. Use Iff instead."
  | .notInteger sort => "Argument is of type " ++ sort.name ++ ", but INT was expected!\n"
  | .doesNotFit value width =>
    "Cannot express " ++ toString value ++ " in " ++ toString width ++ " bits"
  | .emptyName => "Empty string is not a valid name"
  | .redefined name sort previous =>
    "Trying to redefine symbol '" ++ name ++ "' with a new type. Previous type was '" ++
      previous.name ++ "' new type is '" ++ sort.name ++ "'"
  | .notATerm f =>
    "Only terms should be provided as substitutions. Non-term '" ++ (Term.symbol f).display ++
      "' found."
  | .arrayForNumber => "constant type and value checking is not available for array values"
  | .unavailable solver => "Solver '" ++ solver ++ "' is not available"
  | .unsupportedLogic solver logic =>
    "Solver '" ++ solver ++ "' does not support logic " ++ logic
  | .notBoolean => "Argument must be boolean."
  | .coresDisabled => "SolverNotConfiguredForUnsatCoresError"
  | .modelUnavailable => "model is not available"
  | .changedSince call =>
    "The solver status has been modified by a '" ++ call ++
      "' command after the last call to solve()"
  | .noSuchValue sort => "Unsupported sort in conversion: " ++ sort
  | .needsOwnModel =>
    "Uninterpreted sorts and functions are only supported in z3 models"
  | .reported _ title message _ => if message.isEmpty then title else message
  | .broken => "internal error"

def code : Fault → FaultCode
  | .illFormed _ | .boolEquality _ | .notInteger _ | .redefined _ _ _ | .notATerm _
  | .notBoolean => .typeError
  | .doesNotFit _ _ | .emptyName | .arrayForNumber => .invalidValue
  | .changedSince _ => .invalidStatus
  | .noSuchValue _ => .unsupportedOperator
  | .unavailable _ | .unsupportedLogic _ _ => .noSolver
  | .coresDisabled => .coresDisabled
  | .needsOwnModel => .unsupportedOperator
  | .reported code _ _ _ => code
  | .modelUnavailable | .broken => .solverError

/-- The sorts that a message names. -/
def sorts : Fault → List SmtSort
  | .notInteger sort => [sort]
  | .redefined _ sort previous => [sort, previous]
  | _ => []

/-- Whether a fault can be put into words: a solver may fail without saying how, and a sort may
have no name. -/
def isTold : Fault → Bool
  | .broken => false
  | f => f.sorts.all SmtSort.isNamed

def badValue : Fault → Option String
  | .reported _ _ _ value => value
  | _ => none

end Fault

end SmtScript
