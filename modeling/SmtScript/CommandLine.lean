import SmtScript.FileTree
import SmtScript.Interpreter
import SmtScript.Text.Control

/-!
The command line.

`CommandLine.parse` reads the arguments: options, each with a value, in any order around the path
of one script, or the wish for help. `CommandLine.run` runs a script and gives what is printed and
the exit code: 0 if there was no error, 1 if an error stopped the script, and 2 if the arguments
are wrong or the program is at fault.
-/

namespace SmtScript

namespace CommandLine

/-- Options of the command line that have a value. -/
inductive Flag where
  | solver | option | log | logFile
  deriving DecidableEq, Repr

def Flag.ofText? (text : String) : Option Flag :=
  [("--solver", Flag.solver), ("--option", .option), ("--log", .log),
   ("--log-file", .logFile)].lookup text

/-- What the arguments ask for. -/
structure Invocation where
  script : String
  solver : String
  /-- Options to set before the script runs. -/
  options : List (String × String)
  /-- The file that the log goes to, if there is one. -/
  logFile : Option String
  deriving DecidableEq, Repr

/-- The arguments, sorted into flags with their values and the rest. -/
structure Arguments where
  flags : List (Flag × String)
  help : Bool
  rest : List String
  deriving DecidableEq, Repr

/-- What to do. -/
inductive Request where
  | help
  | run (invocation : Invocation)
  | wrong
  deriving DecidableEq, Repr

/-- Splits a text at the first equality sign. -/
def splitAtEquals (text : String) : String × Option String :=
  let chars := text.toList
  match chars.dropWhile (· != '=') with
  | [] => (text, none)
  | _ :: value => (String.ofList (chars.takeWhile (· != '=')), some (String.ofList value))

/-- Sorts arguments into flags and the rest. After two dashes there are no more flags. -/
def sortArguments : List String → Option Arguments
  | [] => some ⟨[], false, []⟩
  | "--" :: rest => some ⟨[], false, rest⟩
  | "--help" :: rest => (sortArguments rest).map fun later => { later with help := true }
  | arg :: rest =>
    if arg.toList.head? = some '-' && arg ≠ "-" then
      let (name, value) := splitAtEquals arg
      match Flag.ofText? name, value, rest with
      | some flag, some value, rest =>
        (sortArguments rest).map fun later => { later with flags := (flag, value) :: later.flags }
      | some flag, none, value :: rest =>
        (sortArguments rest).map fun later => { later with flags := (flag, value) :: later.flags }
      | _, _, _ => none
    else (sortArguments rest).map fun later => { later with rest := arg :: later.rest }

/-- The values of a flag, in order. -/
def Arguments.values (arguments : Arguments) (flag : Flag) : List String :=
  (arguments.flags.filter (·.1 = flag)).map Prod.snd

/-- Reads an option to set, written as a keyword, an equality sign and a value. The colon of the
keyword may be left out. -/
def parseOption (text : String) : Option (String × String) :=
  match splitAtEquals text with
  | (keyword, some value) =>
    if keyword.isEmpty || value.isEmpty then none
    else if keyword.toList.head? = some ':' then some (keyword, value)
    else some (":" ++ keyword, value)
  | (_, none) => none

/-- The names of log levels. -/
def logLevels : List String := ["DEBUG", "INFO", "WARNING", "ERROR", "CRITICAL"]

/-- The invocation that sorted arguments ask for; `none` if a value is wrong or they do not name
one script. -/
def Arguments.invocation? (arguments : Arguments) : Option Invocation := do
  let options ← (arguments.values .option).mapM parseOption
  let log := (arguments.values .log).getLast?.getD "WARNING"
  guard (logLevels.contains log.toUpper)
  let logFile := (arguments.values .logFile).getLast?.filter (!·.isEmpty)
  match arguments.rest with
  | [script] =>
    return ⟨script, (arguments.values .solver).getLast?.getD "z3", options, logFile⟩
  | _ => none

/-- Reads the arguments. Help that is asked for is given whatever the values of the options. -/
def parse (args : List String) : Request :=
  match sortArguments args with
  | none => .wrong
  | some arguments =>
    if arguments.help then .help
    else match arguments.invocation? with
      | some invocation => .run invocation
      | none => .wrong

/-- The lines that explain the command line. -/
def helpLines : List String :=
  ["Usage: cli [OPTIONS] INPUT_FILE",
   "",
   "  Runs the SMT-LIB2 script INPUT_FILE and prints the command results",
   "",
   "Options:",
   "  --solver TEXT                   Name of the pySMT solver used as backend",
   "                                  (default: z3)",
   "  --option TEXT                   SMT-LIB option applied before the script runs,",
   "                                  as KEY=VALUE (e.g. produce-unsat-cores=true)",
   "  --log [debug|info|warning|error|critical]",
   "                                  Logging level (default: WARNING)",
   "  --log-file PATH                 Log file. Logs are printed to stderr by",
   "                                  default",
   "  --help                          Show this message and exit."]

/-- What is printed, and the exit code. -/
structure Outcome where
  exitCode : Nat
  output : String
  deriving DecidableEq, Repr


/-- Text of several lines. -/
def lines (texts : List String) : String :=
  String.join (texts.map (· ++ "\n"))

/-- The outcome of wrong arguments. -/
def usageError : Outcome := ⟨2, ""⟩

/-- The outcome of asking for help. -/
def helpGiven : Outcome := ⟨0, lines helpLines⟩

/-- The line that reports an error, which has no control sequences. Other output may have some. -/
def errorLine (message : String) : String :=
  withoutControls ("(error " ++ stringLiteral message ++ ")")

/-- The lines and the exit code for an error. Nothing is printed of a report that cannot be
written. -/
def outcomeOf (e : Error) : List String × Nat :=
  match e.report with
  | none => ([errorLine "internal error"], 2)
  | some r =>
    match r.text? with
    | some text => ([errorLine text], 1)
    | none => ([], 1)

/-- The outcome of a script that has run. -/
def finish (transcript : Session.Transcript) : Outcome :=
  match transcript.error with
  | none => ⟨0, lines transcript.outputs⟩
  | some e =>
    let (more, code) := outcomeOf e
    ⟨code, lines (transcript.outputs ++ more)⟩

/-- The configuration that the arguments ask for. -/
def configure : List (String × String) → ExceptT Error (StateM Configuration) Unit
  | [] => return
  | (keyword, value) :: rest => do
    Configuration.setOption keyword value
    configure rest

/-- Runs a script on a solver. -/
def run (σ : Type) {μ : Type} [Solver σ μ] (invocation : Invocation) (text : String) : Outcome :=
  match (configure invocation.options).run (.ofSolver invocation.solver) with
  | (.error e, _) => finish ⟨[], some e⟩
  | (.ok (), configuration) =>
    finish (Session.runScript text (Session.start configuration : Session σ μ))

/-- The outcome if the log file cannot be opened. -/
def logFailure : Outcome := ⟨1, ""⟩

/-- Does what the arguments ask for, given the files there are. The script has to exist before the
log file is opened, which empties it, and is read afterwards. -/
def runWith (σ : Type) {μ : Type} [Solver σ μ] (tree : FileTree) (args : List String) :
    Outcome :=
  match parse args with
  | .wrong => usageError
  | .help => helpGiven
  | .run invocation =>
    match tree.read? invocation.script, invocation.logFile with
    | none, _ => usageError
    | some text, none => run σ invocation text
    | some _, some logFile =>
      match tree.clear? logFile with
      | none => logFailure
      | some tree => run σ invocation ((tree.read? invocation.script).getD "")

end CommandLine

end SmtScript
