import SmtScript.Engine.Conversion
import SmtScript.Engine.Search
import SmtScript.Levels
import SmtScript.Solver.FunctionTable

/-!
The solver of this library.

It keeps formulas in scopes and searches for a model of them when it is asked to. A model gives
values to the constants that occur in the formulas and defaults to all others. If cores are kept,
each formula gets a symbol by which it is tracked, and a core is what is left when formulas are
dropped as long as the rest stays unsatisfiable.

Assumptions other than literals are put into a scope of their own, which stays open until the next
call: a model or a core that is asked for then is one with the assumptions, but once another call
has closed the scope a model is one without them, and there is no core any more.
-/

namespace SmtScript

namespace Term

/-- Whether a term is a Boolean symbol or the negation of one. -/
def isLiteral : Term → Bool
  | .symbol s => s.sort = .bool
  | .not (.symbol s) => s.sort = .bool
  | _ => false

end Term

namespace Engine

/-- A model of the engine, with what is left of the conversions of the terms it was asked about. -/
structure Model where
  completion : Completion
  conversion : Conversion

end Engine

/-- The answer of the last check of an engine. -/
inductive Verdict where
  | model (model : Engine.Completion)
  /-- No model, under formulas that are not tracked. -/
  | none (untracked : List Term)

structure Engine where
  options : SolverOptions
  formulas : Levels Term
  verdict : Option Verdict
  /-- Whether the scope of assumptions is open. -/
  assuming : Bool
  /-- Whether the scope of assumptions was closed since the last check. -/
  closed : Bool
  conversion : Engine.Conversion

namespace Engine

def start (options : SolverOptions) : Engine where
  options := options
  formulas := .empty
  verdict := .none
  assuming := false
  closed := false
  conversion := .start

def keepsCores (engine : Engine) : Bool := engine.options.cores == some true

/-- Changes the engine. -/
def change (f : Engine → Engine) : SolverCall Engine Unit :=
  modify fun (engine, table) => (f engine, table)

/-- Closes the scope of assumptions, if it is open. -/
def closeAssumptions : SolverCall Engine Unit :=
  change fun engine =>
    if engine.assuming then
      { engine with assuming := false, closed := true, verdict := .none }
    else engine

/-- Converts a term. -/
def convert (t : Term) : SolverCall Engine Unit := do
  let (engine, _) ← get
  let (result, conversion) := engine.conversion.convert t
  change fun engine => { engine with conversion }
  match result with
  | .ok () => return
  | .error f => throw f

/-- Makes the symbol by which a formula is tracked, if cores are kept. -/
def track : SolverCall Engine Unit := do
  let (engine, table) ← get
  if engine.keepsCores then
    let (symbol, table) := table.fresh "_assertion_" .bool
    set (engine, table)
    convert (.symbol symbol)

/-- Takes a formula, and refuses what cannot be one. -/
def take (t : Term) : SolverCall Engine Unit := do
  if !t.isBool then throw .notBoolean
  convert t
  track

/-- What the engine is after a call that changes its formulas. -/
def changed (engine : Engine) (formulas : Levels Term) : Engine :=
  { engine with formulas, verdict := .none, closed := false }

def add (t : Term) : SolverCall Engine Unit := do
  closeAssumptions
  take t
  change fun engine => engine.changed (engine.formulas.add t)

def push (levels : Nat) : SolverCall Engine Unit := do
  closeAssumptions
  change fun engine => engine.changed (engine.formulas.pushMany levels)

def pop (levels : Nat) : SolverCall Engine Unit := do
  closeAssumptions
  change fun engine => engine.changed (engine.formulas.popMany levels)

def reset : SolverCall Engine Unit := do
  closeAssumptions
  change fun engine => engine.changed .empty

/-- The position of a symbol among all symbols, the oldest first. -/
def rankIn (table : SymbolTable) (s : Symbol) : Nat :=
  table.symbols.length - (table.symbols.findIdx (· = s))

/-- Converts the literals among assumptions. -/
def takeLiterals : List Term → SolverCall Engine Unit
  | [] => return
  | t :: rest => do
    convert t
    takeLiterals rest

/-- A conjunction of the assumptions that are not literals. -/
def otherAssumptions (assumptions : List Term) : SolverCall Engine (List Term) := do
  let others := assumptions.filter (!·.isLiteral)
  if others.isEmpty then return []
  match Term.mkAnd others with
  | .error f => throw f
  | .ok formula =>
    take formula
    return [formula]

/-- The outcome of a search, as the answer of a check. -/
def settle (untracked : List Term) : Outcome → SolverCall Engine Bool
  | .model model => do
    change fun engine => { engine with verdict := some (.model model) }
    return true
  | .none => do
    change fun engine => { engine with verdict := some (.none untracked) }
    return false
  | .gaveUp => throw (.reported .noAnswer "" "the search was cut short" .none)

def satisfiable (assumptions : List Term) : SolverCall Engine Bool := do
  closeAssumptions
  let literals := assumptions.filter Term.isLiteral
  takeLiterals literals
  let others ← otherAssumptions assumptions
  change fun engine => { engine with assuming := !others.isEmpty, closed := false }
  let untracked := literals ++ others
  let (engine, table) ← get
  settle untracked (search (rankIn table) (engine.formulas.items ++ untracked))

/-- A model of the formulas alone. -/
def plainModel : SolverCall Engine Completion := do
  let (engine, table) ← get
  match search (rankIn table) engine.formulas.items with
  | .model model => return model
  | _ => throw .modelUnavailable

def model : SolverCall Engine Model := do
  let (engine, _) ← get
  if engine.options.models = some false then throw .modelUnavailable
  match engine.verdict with
  | some (.model model) => return ⟨model, .start⟩
  | some (.none _) => throw .modelUnavailable
  | none => return ⟨← plainModel, .start⟩

/-- Whether formulas have no model. -/
def refutes (table : SymbolTable) (formulas : List Term) : Bool :=
  match search (rankIn table) formulas with
  | .none => true
  | _ => false

def core : SolverCall Engine (List Term) := do
  let (engine, table) ← get
  if !engine.keepsCores then throw .coresDisabled
  if engine.closed then throw (.changedSince "pop")
  match engine.verdict with
  | some (.none untracked) =>
    closeAssumptions
    return shrink (fun kept => refutes table (kept ++ untracked)) [] engine.formulas.items
  | _ => throw .broken

/-- The elements of uninterpreted sorts in a value. -/
def elementSymbols : Value → List Symbol
  | .element sort number => [Value.elementSymbol sort number]
  | .constArray _ v => elementSymbols v
  | .update array key value =>
    elementSymbols array ++ elementSymbols key ++ elementSymbols value
  | _ => []

/-- Makes the symbols of elements, unless they exist. -/
def nameElements : List Symbol → ModelQuery Model Unit
  | [] => return
  | s :: rest => do
    let (model, table) ← get
    match table.find? s.name with
    | some other =>
      if other.sort = s.sort then nameElements rest
      else throw (.redefined s.name s.sort other.sort)
    | none =>
      set (model, table.add s)
      nameElements rest

/-- The name of an uninterpreted sort in a sort of arrays. -/
def userPart? : SmtSort → Option String
  | .array index element => (userPart? index).or (userPart? element)
  | .user name => some name
  | _ => none

/-- The term of a value. Arrays that hold elements of uninterpreted sorts, or are indexed by them,
are no terms. -/
def valueTerm (v : Value) : ModelQuery Model Term := do
  match v.sort with
  | .array index element =>
    if let some name := userPart? (.array index element) then throw (.noSuchValue name)
  | _ => pure ()
  nameElements (elementSymbols v)
  return v.term

/-- Converts a term for a model. -/
def convertFor (t : Term) : ModelQuery Model Unit := do
  let (model, table) ← get
  let (result, conversion) := model.conversion.convert t
  set (({ model with conversion } : Model), table)
  match result with
  | .ok () => return
  | .error f => throw f

/-- The term of the value of a term. -/
def valueOf (t : Term) : ModelQuery Model Term := do
  valueTerm (t.valueIn (← get).1.completion.interpretation)

def evaluate (t : Term) : ModelQuery Model Term := do
  convertFor t
  valueOf t

/-- The arguments and the value of an entry as terms. -/
def entryTerms : List Value × Value → ModelQuery Model (List Term × Term)
  | (args, v) => do return (← args.mapM valueTerm, ← valueTerm v)

/-- What is known of a function, and the value that it has everywhere else. -/
def table? (f : Symbol) : ModelQuery Model (Option FunctionTable) := do
  let completion := (← get).1.completion
  match completion.assignment.entries f with
  | [] => return none
  | entries => do
    let otherwise ← valueTerm (completion.elseValue f)
    return some ⟨← entries.mapM entryTerms, [], otherwise⟩

def functions : FunctionSource Model := ⟨convertFor, table?, valueOf⟩

def interpret (f : Symbol) : ModelQuery Model (List Symbol × Term) := functions.define f

instance : Solver Engine Model where
  start := start
  add := add
  push := push
  pop := pop
  reset := reset
  satisfiable := satisfiable
  model := model
  core := core
  evaluate := evaluate
  interpret := interpret

end Engine

end SmtScript
