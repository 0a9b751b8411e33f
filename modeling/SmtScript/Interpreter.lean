import SmtScript.Command
import SmtScript.Session
import SmtScript.Term.Printer

/-!
Executing scripts.

`Session.execute` executes one command and gives the text that it prints, if it prints any.
`Session.runScript` executes the commands of a text one after the other, as far as they can be
read, and stops at the first error or when the session is closed.
-/

namespace SmtScript

/-- One line for each term, or nothing if there are none. -/
def termLines (ts : List Term) : Option String :=
  if ts.isEmpty then none else some (String.intercalate "\n" (ts.map Term.text))

/-- The text of an attribute. -/
def attributeText (keyword value : String) : String :=
  "(" ++ keyword ++ " " ++ value ++ ")"

/-- The text of terms with their values. -/
def valuesText (values : List (SExpr × Term)) : String :=
  "(" ++ String.intercalate " "
    (values.map fun (sexpr, value) => "(" ++ sexpr.text ++ " " ++ value.text ++ ")") ++ ")"

/-- The line of an entry of a model. -/
def ModelEntry.text (entry : ModelEntry) : String :=
  "  (define-fun " ++ SExpr.atomText entry.name ++ " (" ++
    String.intercalate " " (entry.parameters.map Symbol.declaration) ++ ") " ++
    entry.sort.text ++ " " ++ entry.value.text ++ ")"

/-- The text of a model. -/
def modelText (entries : List ModelEntry) : String :=
  String.intercalate "\n" ("(" :: entries.map ModelEntry.text ++ [")"])

namespace Session

variable {σ μ : Type} [Solver σ μ]

/-- Performs a command. -/
def perform : Command → SessionStep σ μ (Option String)
  | .setLogic logic => do setLogic logic; return none
  | .setOption keyword value => do setOption keyword value; return none
  | .setInfo keyword value => do setInfo keyword value; return none
  | .ignoreInfo => return none
  | .getInfo keyword => do return some (attributeText keyword (← getInfo keyword))
  | .getOption keyword => do return some (← getOption keyword)
  | .echo text => return some (literalValue text)
  | .push levels => do push levels; return none
  | .pop levels => do pop levels; return none
  | .resetAssertions => do resetAssertions; return none
  | .reset => do reset; return none
  | .exit => do exit; return none
  | .declareSort name arity => do declareSort name arity; return none
  | .declareFun name domains codomain => do
    let _ ← declareFun name domains codomain
    return none
  | .defineFun name parameters codomain body => do
    defineFun name parameters codomain body
    return none
  | .assertTerm sexpr => do
    let _ ← assertTerm sexpr
    return none
  | .checkSat assumptions => do return some (← checkSat assumptions).text
  | .getAssertions => do
    requireActive
    return termLines (← get).assertions.items
  | .getValue sexprs => do return some (valuesText (← getValue sexprs))
  | .getModel => do
    requireActive
    return some (modelText (← getModel))
  | .getUnsatCore => do return termLines (← getUnsatCore)
  | .unsupported head sexpr isQuery => do
    if isQuery then requireActive
    throw (.unsupportedCommand head sexpr)

/-- Executes the command that an S-expression stands for. -/
def execute : SExpr → SessionStep σ μ (Option String)
  | .list (.atom head :: args) => do
    let sexpr : SExpr := .list (.atom head :: args)
    match CommandName.ofText? head with
    | none => throw (.unknownCommand sexpr)
    | some name =>
      requireOpen
      perform (← ofExcept (Command.read head sexpr name args))
  | sexpr => throw (.expectedCommand sexpr)

/-- Executes commands for their effect, until one fails or closes the session. -/
def executeAll : List SExpr → SessionStep σ μ Unit
  | [] => return
  | sexpr :: rest => do
    let _ ← execute sexpr
    if (← get).status = .closed then return else executeAll rest

/-- Executes the commands of a text for their effect. -/
def prepare (text : String) : SessionStep σ μ Unit := do
  let reading := Reading.ofText text
  executeAll reading.exprs
  match reading.failure with
  | some failure =>
    if (← get).status = .closed then return else throw (.ofReadFailure failure)
  | none => return

/-- What a script prints, and the error that stops it. -/
structure Transcript where
  outputs : List String
  error : Option Error

/-- Puts an output in front. -/
def Transcript.after (output : Option String) (later : Transcript) : Transcript :=
  { later with outputs := output.toList ++ later.outputs }

/-- Executes commands in order until one fails or closes the session. -/
def runAll (failure : Option ReadFailure) : List SExpr → Session σ μ → Transcript
  | [], _ => ⟨[], failure.map .ofReadFailure⟩
  | sexpr :: rest, session =>
    match (execute sexpr).run session with
    | (.error e, _) => ⟨[], some e⟩
    | (.ok output, session) =>
      Transcript.after output <|
        if session.status = .closed then ⟨[], none⟩ else runAll failure rest session

/-- Executes the commands of a text. -/
def runScript (text : String) (session : Session σ μ) : Transcript :=
  let reading := Reading.ofText text
  runAll reading.failure reading.exprs session

end Session

end SmtScript
