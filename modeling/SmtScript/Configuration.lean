import SmtScript.Error
import SmtScript.Table
import SmtScript.Text.Numeral

/-!
The configuration of a session.

Every option that is set is recorded with its text. Three options also steer the solver: whether
it keeps unsatisfiable cores, whether it makes models, and its random seed. An option with a bad
value is recorded like any other and steers nothing.
-/

namespace SmtScript

/-- What a solver context is started with. -/
structure SolverOptions where
  /-- Whether unsatisfiable cores are kept, if the script says so. -/
  cores : Option Bool
  /-- Whether models are made, if the script says so. -/
  models : Option Bool
  seed : Option Nat
  deriving DecidableEq, Repr, Inhabited

structure Configuration where
  solver : String
  options : SolverOptions
  /-- The options that were set, with their texts. -/
  recorded : Table String
  deriving Repr, Inhabited

namespace Configuration

/-- A configuration without options for a solver of the given name. -/
def ofSolver (solver : String) : Configuration :=
  ⟨solver, ⟨none, none, none⟩, .empty⟩

/-- Reads the value of an option that is on or off. -/
def parseBool (value : String) : Except Error Bool :=
  if value = "true" then .ok true
  else if value = "false" then .ok false
  else .error (.notABool value)

/-- Reads the value of a random seed. -/
def parseSeed (value : String) : Except Error Nat :=
  match Numeral.read value with
  | .value n => .ok n
  | .absent => .error (.notASeed value)
  | .unreadable => .error .defect

/-- What setting an option makes of the solver options. -/
def steer (options : SolverOptions) (keyword value : String) : Except Error SolverOptions :=
  if keyword = ":produce-unsat-cores" then do
    return { options with cores := some (← parseBool value) }
  else if keyword = ":produce-models" then do
    return { options with models := some (← parseBool value) }
  else if keyword = ":random-seed" then do
    return { options with seed := some (← parseSeed value) }
  else .ok options

/-- Sets an option. The text of the option is recorded even if its value is refused. -/
def setOption (keyword value : String) : ExceptT Error (StateM Configuration) Unit := do
  modify fun c => { c with recorded := c.recorded.insert keyword value }
  let c ← get
  match steer c.options keyword value with
  | .ok options => set { c with options }
  | .error e => throw e

/-- Whether a solver started with this configuration keeps unsatisfiable cores. -/
def keepsCores (c : Configuration) : Bool := c.options.cores == some true

/-- Whether a solver started with this configuration makes models. -/
def makesModels (c : Configuration) : Bool := c.options.models != some false

/-- The solver that is at hand. -/
def availableSolver : String := "z3"

/-- The logics that have a name, yet that the solver refuses, in their usual spelling. -/
def refusedLogics : List String :=
  ["ALIA", "AUFLIA", "AUFLIRA", "AUFNIRA", "NIA", "NRA", "QF_SLIA", "QF_SLIAt", "QF_UFNIA",
   "QF_UFNRA", "UFNIA"]

/-- The usual spelling of a refused logic, whatever the case of the letters in which it is
written. -/
def refusedLogic? (logic : String) : Option String :=
  refusedLogics.find? (·.toLower == logic.toLower)

/-- Whether a solver can be started for a logic. -/
def admits (c : Configuration) (logic : String) : Except Fault Unit :=
  if c.solver ≠ availableSolver then .error (.unavailable c.solver)
  else match refusedLogic? logic with
    | some name => .error (.unsupportedLogic c.solver name)
    | none => .ok ()

end Configuration

end SmtScript
