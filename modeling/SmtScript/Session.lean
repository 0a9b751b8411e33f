import SmtScript.IntegerPart
import SmtScript.Leases
import SmtScript.Levels

/-!
Sessions.

A session starts without a logic, is active once a logic is set, and ends with an exit. It keeps
the names and sorts that the script declares, the stack of asserted terms, a solver context, and a
model until something changes. Next to the assertions, the context holds the constraints of the
integer parts that occur in them; `definedParts` says at which level each constraint was added.

An operation that fails may have changed the state up to the point where it failed.
-/

namespace SmtScript

inductive SessionStatus where
  | uninitialized | active | closed
  deriving DecidableEq, Repr

def SessionStatus.text : SessionStatus → String
  | .uninitialized => "uninitialized"
  | .active => "active"
  | .closed => "closed"

structure Session (σ μ : Type) where
  /-- The configuration that a reset returns to. -/
  initial : Configuration
  configuration : Configuration
  status : SessionStatus
  logic : Option String
  sorts : SortTable
  names : Table Binding
  terms : TermState
  info : Table String
  assertions : Levels Term
  /-- The integer parts whose constraints are asserted. -/
  definedParts : Levels Symbol
  /-- The solver context with its lease. -/
  context : Option (Nat × Context σ)
  /-- The model of the last check with its lease, once it has been asked for. -/
  model : Option (Nat × μ)
  contexts : Leases
  models : Leases

/-- A step of a session. What it does to the session stays, whether it fails or not. -/
abbrev SessionStep (σ μ α : Type) := ExceptT Error (StateM (Session σ μ)) α

/-- An entry of a model: a name, its parameters, the sort of its value, and the value. -/
structure ModelEntry where
  name : String
  parameters : List Symbol
  sort : SmtSort
  value : Term
  deriving Repr

namespace Session

variable {σ μ α : Type}

/-- A session in which nothing has happened. -/
def start (configuration : Configuration) : Session σ μ where
  initial := configuration
  configuration := configuration
  status := .uninitialized
  logic := none
  sorts := .empty
  names := .empty
  terms := .empty
  info := .empty
  assertions := .empty
  definedParts := .empty
  context := none
  model := none
  contexts := .empty
  models := .empty

/-- A step that only fails or gives a result. -/
def ofExcept (result : Except Error α) : SessionStep σ μ α :=
  ExceptT.mk (pure result)

/-! ### Parts of the state -/

/-- Translates, with the symbols of the session. -/
def onTerms (step : Translation α) : SessionStep σ μ α :=
  ExceptT.mk do
    let session ← get
    let (result, terms) := step.run session.terms
    set { session with terms }
    return result

/-- Takes a step on the solver context. -/
def onContext (step : ContextStep σ α) : SessionStep σ μ α :=
  ExceptT.mk do
    let session ← get
    match session.context with
    | none => return .error .defect
    | some (lease, context) =>
      let (result, context, table) := step.run (context, session.terms.table)
      set { session with
        context := some (lease, context), terms := { session.terms with table } }
      return result

/-- Asks the model of the session, with the symbols of the session. -/
def onModel (step : PartStep μ α) : SessionStep σ μ α :=
  ExceptT.mk do
    let session ← get
    let asked := session.model.map Prod.snd
    let (result, asked, terms) := step.run (asked, session.terms)
    let model := match session.model, asked with
      | some (lease, _), some model => some (lease, model)
      | _, _ => none
    set { session with model, terms }
    return result

/-- Asks the model of the session; of the symbols, only the table may change. -/
def askModel (step : ModelStep μ α) : SessionStep σ μ α :=
  onModel (.ofModel step)

/-- The environment at the top level of the script. -/
def environment (session : Session σ μ) : Names := ⟨session.names, []⟩

/-! ### Conditions -/

def requireOpen : SessionStep σ μ Unit := do
  if (← get).status = .closed then throw .closed

def requireActive : SessionStep σ μ Unit := do
  requireOpen
  if (← get).status ≠ .active then throw .noLogic

/-- Releases the model, if there is one. -/
def dropModel : SessionStep σ μ Unit :=
  modify fun session =>
    match session.model with
    | none => session
    | some (lease, _) =>
      { session with model := none, models := session.models.giveBack lease }

/-! ### Logic, options, info -/

def setLogic [Solver σ μ] (logic : String) : SessionStep σ μ Unit := do
  requireOpen
  let session ← get
  if session.status = .active then throw (.logicAlreadySet (session.logic.getD ""))
  match session.configuration.admits logic with
  | .error f => throw (.fault f none [] [])
  | .ok () =>
    let (lease, contexts) := session.contexts.take
    let context : Context σ := .ofSolver (Solver.start session.configuration.options)
    set { session with
      context := some (lease, context), contexts, logic := some logic, status := .active }

def setOption (keyword value : String) : SessionStep σ μ Unit := do
  requireOpen
  ExceptT.mk do
    let session ← get
    let (result, configuration) :=
      (Configuration.setOption keyword value).run session.configuration
    set { session with configuration }
    return result

def getOption (keyword : String) : SessionStep σ μ String := do
  requireOpen
  match (← get).configuration.recorded.get? keyword with
  | some value => return value
  | none => throw (.optionNotSet keyword)

def setInfo (keyword value : String) : SessionStep σ μ Unit := do
  requireOpen
  modify fun session => { session with info := session.info.insert keyword value }

def getInfo (keyword : String) : SessionStep σ μ String := do
  requireOpen
  match (← get).info.get? keyword with
  | some value => return value
  | none => throw (.infoNotSet keyword)

/-! ### Declarations -/

/-- A new symbol for a declared name. If the name is taken, a number is added to it. -/
def newSymbol (name : String) (sort : SmtSort) : SessionStep σ μ Symbol := do
  let table := (← get).terms.table
  if table.hasName name then onTerms (Translation.freshSymbol (name ++ "_") sort)
  else if name.isEmpty then throw (.fault .emptyName none [] [])
  else
    let symbol : Symbol := ⟨name, sort⟩
    modify fun session =>
      { session with terms := { session.terms with table := session.terms.table.add symbol } }
    return symbol

/-- Binds a name for the rest of the session. -/
def bindName (name : String) (binding : Binding) : SessionStep σ μ Unit :=
  modify fun session => { session with names := session.names.insert name binding }

def declareSort (name : String) (arity : Nat) : SessionStep σ μ Unit := do
  requireOpen
  let (_, sorts) ← ofExcept ((← get).sorts.declare name arity)
  modify fun session => { session with sorts }

def declareFun (name : String) (domains : List SExpr) (codomain : SExpr) :
    SessionStep σ μ Symbol := do
  requireOpen
  let sorts := (← get).sorts
  let domains ← ofExcept (domains.mapM sorts.parse)
  let codomain ← ofExcept (sorts.parse codomain)
  let symbol ← newSymbol name (.function domains codomain)
  bindName name (.term (.symbol symbol))
  return symbol

/-- Makes symbols for the parameters of a definition. -/
def declareParameters (name : String) : List SExpr → SessionStep σ μ (List (String × Symbol))
  | [] => return []
  | .list [.atom parameter, sort] :: rest => do
    let sort ← ofExcept ((← get).sorts.parse sort)
    let symbol ← onTerms (Translation.freshLocal (name ++ "_arg") sort)
    let later ← declareParameters name rest
    return (parameter, symbol) :: later
  | parameter :: _ => throw (.malformedParameter parameter)

/-- The body of a definition as a term of the declared sort. -/
def fitBody (name : String) (sort : SmtSort) (sexpr : SExpr) (body : Term) :
    Except Error Term :=
  if sort = .real && body.isInt then
    (Term.mkToReal body).mapError fun f => .fault f none [] []
  else if body.sort ≠ sort then .error (.bodySort name body.sort sort sexpr)
  else .ok body

def defineFun (name : String) (parameters : List SExpr) (codomain body : SExpr) :
    SessionStep σ μ Unit := do
  requireOpen
  let sort ← ofExcept ((← get).sorts.parse codomain)
  let parameters ← declareParameters name parameters
  let session ← get
  let environment := session.environment.extend (bindSymbols parameters)
  let term ← onTerms (translate session.sorts environment body)
  let term ← ofExcept (fitBody name sort body term)
  if parameters.isEmpty then bindName name (.term term)
  else bindName name (.definition ⟨parameters.map Prod.snd, term⟩)

/-- Reads a term at the top level of the script. -/
def parseTerm (sexpr : SExpr) : SessionStep σ μ Term := do
  let session ← get
  onTerms (translate session.sorts session.environment sexpr)

/-- Reads several terms at the top level of the script. -/
def parseTerms : List SExpr → SessionStep σ μ (List Term)
  | [] => return []
  | s :: rest => do
    let first ← parseTerm s
    let later ← parseTerms rest
    return first :: later

/-! ### Assertions -/

/-- The integer parts of some terms whose constraints are not asserted. -/
def undefinedParts (session : Session σ μ) (ts : List Term) : IntegerParts :=
  (IntegerParts.reachable session.terms.integerParts ts).filter fun (symbol, _) =>
    !session.definedParts.contains symbol

/-- Asserts the constraints of integer parts at the top level. -/
def defineParts [Solver σ μ] : IntegerParts → SessionStep σ μ Unit
  | [] => return
  | (symbol, operand) :: rest => do
    onContext (Context.add (integerPartConstraint symbol operand))
    modify fun session => { session with definedParts := session.definedParts.add symbol }
    defineParts rest

def assertTerm [Solver σ μ] (sexpr : SExpr) : SessionStep σ μ Term := do
  requireActive
  let term ← parseTerm sexpr
  defineParts ((← get).undefinedParts [term])
  onContext (Context.add term)
  modify fun session => { session with assertions := session.assertions.add term }
  dropModel
  return term

def push [Solver σ μ] (levels : Nat) : SessionStep σ μ Unit := do
  requireActive
  dropModel
  onContext (Context.push levels)
  modify fun session =>
    { session with
      assertions := session.assertions.pushMany levels
      definedParts := session.definedParts.pushMany levels }

def pop [Solver σ μ] (levels : Nat) : SessionStep σ μ Unit := do
  requireActive
  let depth := (← get).assertions.depth
  if depth ≤ levels then throw (.popTooMany levels (depth - 1))
  dropModel
  onContext (Context.pop levels)
  modify fun session =>
    { session with
      assertions := session.assertions.popMany levels
      definedParts := session.definedParts.popMany levels }

def resetAssertions [Solver σ μ] : SessionStep σ μ Unit := do
  requireActive
  dropModel
  onContext Context.reset
  modify fun session => { session with assertions := .empty, definedParts := .empty }

/-! ### Queries -/

/-- Checks the assertions, together with assumptions if there are any. -/
def checkSat [Solver σ μ] (assumptions : List SExpr) : SessionStep σ μ CheckStatus := do
  requireActive
  dropModel
  let terms ← parseTerms assumptions
  let parts := (← get).undefinedParts terms
  onContext (Context.check (terms ++ parts.constraints))

/-- Sees to it that there is a model of the last check. It is made when it is asked for first, and
kept. -/
def ensureModel [Solver σ μ] : SessionStep σ μ Unit := do
  requireActive
  match (← get).model with
  | some _ => return
  | none =>
    let model ← onContext Context.model
    modify fun session =>
      let (lease, models) := session.models.take
      { session with model := some (lease, model), models }

/-- The values of terms in the model. -/
def evaluateAll [Solver σ μ] : List Term → SessionStep σ μ (List Term)
  | [] => return []
  | t :: rest => do
    let value ← onModel do
      IntegerParts.evaluate (σ := σ) (← IntegerParts.resolve (σ := σ) t)
    let later ← evaluateAll rest
    return value :: later

/-- The values of terms in the model of the last check. -/
def getValue [Solver σ μ] (sexprs : List SExpr) : SessionStep σ μ (List (SExpr × Term)) := do
  requireActive
  let terms ← parseTerms sexprs
  ensureModel
  return sexprs.zip (← evaluateAll terms)

/-- What the model says of a name. Only names that stand for a symbol have an entry. -/
def modelEntry [Solver σ μ] (name : String) : Binding → SessionStep σ μ (Option ModelEntry)
  | .term (.symbol s) => do
    if s.sort.isFunction then
      let (parameters, body) ← askModel (Model.interpret (σ := σ) s)
      return some ⟨name, parameters, s.sort.target, body⟩
    else
      let value ← askModel (Model.evaluate (σ := σ) (.symbol s))
      return some ⟨name, [], s.sort, value⟩
  | _ => return none

/-- What the model says of several names. -/
def modelEntries [Solver σ μ] : List (String × Binding) → SessionStep σ μ (List ModelEntry)
  | [] => return []
  | (name, binding) :: rest => do
    let first ← modelEntry name binding
    let later ← modelEntries rest
    return first.toList ++ later

/-- The entries of the model of the last check, in the order in which names were first bound. -/
def getModel [Solver σ μ] : SessionStep σ μ (List ModelEntry) := do
  ensureModel
  modelEntries (← get).names.entries

def getUnsatCore [Solver σ μ] : SessionStep σ μ (List Term) := do
  requireActive
  onContext Context.core

/-! ### End of a session -/

/-- Releases the model and closes the context. -/
def release : SessionStep σ μ Unit := do
  dropModel
  modify fun session =>
    match session.context with
    | none => session
    | some (lease, _) =>
      { session with context := none, contexts := session.contexts.giveBack lease }

/-- Goes back to the start. -/
def reset : SessionStep σ μ Unit := do
  requireOpen
  release
  modify fun session =>
    { start session.initial with contexts := session.contexts, models := session.models }

def exit : SessionStep σ μ Unit := do
  requireOpen
  release
  modify fun session => { session with status := .closed }

end Session

end SmtScript
