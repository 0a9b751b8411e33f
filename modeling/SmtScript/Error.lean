import SmtScript.Fault
import SmtScript.Report
import SmtScript.SExpr.Reader

/-!
Errors of a session.

`Error` lists the causes for which a text, a command or a query is refused. `Error.report` gives
each cause its wording. A failure about which nothing is told has none, nor has a message that
would have to name a sort without a name.
-/

namespace SmtScript

inductive Error where
  -- Reading
  | unexpectedClose (position : Position)
  | missingClose (position : Position)
  | notOneExpr (found : Nat)
  -- Commands
  | expectedCommand (sexpr : SExpr)
  | unknownCommand (sexpr : SExpr)
  | argumentCount (head : String) (sexpr : SExpr)
  | expectedSymbol (head : String) (sexpr : SExpr)
  | expectedList (head : String) (sexpr : SExpr)
  | expectedKeyword (head : String) (sexpr : SExpr)
  | expectedNumeral (head : String) (sexpr : SExpr)
  | missingSortName (sexpr : SExpr)
  | nothingToEvaluate (sexpr : SExpr)
  | unsupportedCommand (head : String) (sexpr : SExpr)
  -- Sorts
  | badWidth (sexpr : SExpr)
  | unsupportedSort (sexpr : SExpr)
  | unknownSort (name : String)
  | sortWithParameters (name : String) (arity : Int)
  -- Names and literals
  | unbound (name : String)
  | malformedBinary (atom : String)
  | malformedHexadecimal (atom : String)
  | zeroDenominator (atom : String)
  | unrecognizedAtom (atom : String)
  -- Terms
  | functionWithoutArguments (name : String)
  | emptyApplication
  | unsupportedTerm (sexpr : SExpr)
  | unsupportedForm (head : String) (sexpr : SExpr)
  | operandCount (operator : String) (sexpr : SExpr)
  | wrongArity (name : String) (expected found : Nat) (sexpr : SExpr)
  | notAFunction (name : String) (sexpr : SExpr)
  | malformedLet (sexpr : SExpr)
  | malformedLetBinding (sexpr : SExpr)
  | malformedQuantifier (head : String) (sexpr : SExpr)
  | malformedVariable (sexpr : SExpr)
  | malformedParameter (sexpr : SExpr)
  | indexNotNumeral (sexpr : SExpr)
  | zeroWidth (sexpr : SExpr)
  | unsupportedIndexedTerm (sexpr : SExpr)
  | unsupportedConstArray (sexpr : SExpr)
  | indexCount (operator : String) (sexpr : SExpr)
  | unsupportedIndexedOperator (sexpr : SExpr)
  -- Sorts of terms
  | cannotNegate (sort : SmtSort)
  | divOperands (sort : SmtSort) (sexpr : SExpr)
  | modOperands
  | absOperand (sort : SmtSort)
  | toIntOperand (sort : SmtSort)
  | extractIndices (high low width : Nat)
  | notBitVec (operator : String) (sexpr : SExpr)
  | bodySort (name : String) (found expected : SmtSort) (body : SExpr)
  | toIntOfBound (term : Term)
  -- State of the session
  | closed
  | noLogic
  | logicAlreadySet (logic : String)
  | popBaseLevel
  | popTooMany (levels pushed : Nat)
  | optionNotSet (keyword : String)
  | infoNotSet (keyword : String)
  | notABool (value : String)
  | notASeed (value : String)
  -- Solver context
  | contextReleased
  | modelReleased
  | popBeyondContext (levels depth : Nat)
  | noModel
  | noCore
  | fault (fault : Fault) (sexpr : Option SExpr) (terms : List Term) (sorts : List SmtSort)
  /-- A failure about which nothing is told. -/
  | defect
  deriving Repr, Inhabited

namespace Error

/-- A fault met while the given operands were put together at an S-expression. -/
def ofFault (sexpr : SExpr) (operands : List Term) (f : Fault) : Error :=
  .fault f (some sexpr) operands (operands.map Term.sort)

/-- What a reader failure is to the user. -/
def ofReadFailure : ReadFailure → Error
  | .unexpectedClose position => .unexpectedClose position
  | .missingClose position => .missingClose position
  | .badEscape => .defect

/-- A text between single quotation marks. -/
def quote (text : String) : String := "'" ++ text ++ "'"

/-- The report of a plain kind. -/
def about (kind : ReportKind) (message : String) (sexpr : Option SExpr) : Option Report :=
  some { kind, message, sexpr }

/-- The report of a term whose sort is wrong and has to be named. -/
def aboutSort (sort : SmtSort) (message : String → String) (sexpr : Option SExpr) :
    Option Report :=
  sort.name?.bind fun name => about .wrongSort (message name) sexpr

/-- The report of a reader failure. -/
def atPosition (message : String) (position : Position) : Option Report :=
  some
    { kind := .malformed, message, line := some position.line, column := some position.column }

/-- The report of something that a solver refuses. -/
def fromSolver (message : String) (code : FaultCode) (badValue : Option String) :
    Option Report :=
  some { kind := .solver, message, code := code.text, badValue }

/-- The wording of an error. -/
def report : Error → Option Report
  | .unexpectedClose position => atPosition "Unexpected ')'" position
  | .missingClose position => atPosition "Unexpected end of stream, missing ')'" position
  | .notOneExpr found =>
    about .malformed ("Expected one S-expression, found " ++ toString found) none
  | .expectedCommand sexpr => about .malformed "Expected a command" sexpr
  | .unknownCommand sexpr => about .malformed "Unknown command" sexpr
  | .argumentCount head sexpr =>
    about .malformed ("Wrong number of arguments for " ++ quote head) sexpr
  | .expectedSymbol head sexpr => about .malformed ("Expected a symbol in " ++ quote head) sexpr
  | .expectedList head sexpr => about .malformed ("Expected a list in " ++ quote head) sexpr
  | .expectedKeyword head sexpr =>
    about .malformed ("Expected a keyword in " ++ quote head) sexpr
  | .expectedNumeral head sexpr =>
    about .malformed ("Expected a numeral in " ++ quote head) sexpr
  | .missingSortName sexpr => about .malformed "Missing sort name" sexpr
  | .nothingToEvaluate sexpr =>
    about .malformed "get-value expects at least one term" sexpr
  | .unsupportedCommand head sexpr =>
    about .unsupportedFeature (quote head ++ " is not supported") sexpr
  | .badWidth sexpr =>
    about .unsupportedSort "Bit-vector width must be a positive numeral" sexpr
  | .unsupportedSort sexpr => about .unsupportedSort "Unsupported sort" sexpr
  | .unknownSort name => about .unsupportedSort "Unknown sort" (some (.atom name))
  | .sortWithParameters name arity =>
    about .unsupportedFeature
      ("Only uninterpreted sorts of arity 0 are supported, " ++ quote name ++ " has arity " ++
        toString arity) none
  | .unbound name => about .unboundName ("Unbound name " ++ quote name) none
  | .malformedBinary atom =>
    about .unrecognizedAtom "Malformed binary literal" (some (.atom atom))
  | .malformedHexadecimal atom =>
    about .unrecognizedAtom "Malformed hexadecimal literal" (some (.atom atom))
  | .zeroDenominator atom =>
    about .unrecognizedAtom "Zero denominator in rational literal" (some (.atom atom))
  | .unrecognizedAtom atom => about .unrecognizedAtom "Unrecognized atom" (some (.atom atom))
  | .functionWithoutArguments name =>
    about .unsupportedTerm ("Function " ++ quote name ++ " used without arguments")
      (some (.atom name))
  | .emptyApplication => about .unsupportedTerm "Empty application" (some (.list []))
  | .unsupportedTerm sexpr => about .unsupportedTerm "Unsupported term" sexpr
  | .unsupportedForm head sexpr =>
    about .unsupportedFeature (quote head ++ " terms are not supported") sexpr
  | .operandCount operator sexpr =>
    about .unsupportedTerm ("Wrong number of arguments for " ++ quote operator) sexpr
  | .wrongArity name expected found sexpr =>
    about .unsupportedTerm
      (quote name ++ " expects " ++ toString expected ++ " arguments, got " ++ toString found)
      sexpr
  | .notAFunction name sexpr =>
    about .unsupportedTerm (quote name ++ " is not a function") sexpr
  | .malformedLet sexpr => about .malformed "Malformed let" sexpr
  | .malformedLetBinding sexpr => about .malformed "Malformed let binding" sexpr
  | .malformedQuantifier head sexpr => about .malformed ("Malformed " ++ head) sexpr
  | .malformedVariable sexpr => about .malformed "Malformed sorted variable" sexpr
  | .malformedParameter sexpr =>
    about .malformed "Parameters of define-fun must be (name sort) pairs" sexpr
  | .indexNotNumeral sexpr => about .malformed "Index must be a numeral" sexpr
  | .zeroWidth sexpr => about .malformed "Bit-vector width must be positive" sexpr
  | .unsupportedIndexedTerm sexpr => about .unsupportedTerm "Unsupported indexed term" sexpr
  | .unsupportedConstArray sexpr => about .unsupportedTerm "Unsupported constant array" sexpr
  | .indexCount operator sexpr =>
    about .unsupportedTerm ("Wrong number of indices or arguments for " ++ quote operator) sexpr
  | .unsupportedIndexedOperator sexpr =>
    about .unsupportedTerm "Unsupported indexed operator" sexpr
  | .cannotNegate sort => aboutSort sort ("Cannot negate a term of sort " ++ ·) none
  | .divOperands sort sexpr =>
    aboutSort sort ("'div' expects Int or Real operands, got " ++ ·) sexpr
  | .modOperands => about .wrongSort "'mod' expects Int operands" none
  | .absOperand sort =>
    aboutSort sort ("'abs' expects an Int or Real operand, got " ++ ·) none
  | .toIntOperand sort =>
    aboutSort sort ("'to_int' expects an Int or Real operand, got " ++ ·) none
  | .extractIndices high low width =>
    about .wrongSort
      ("Invalid extract indices " ++ toString high ++ " " ++ toString low ++
        " for a bit-vector of width " ++ toString width) none
  | .notBitVec operator sexpr =>
    about .wrongSort (quote operator ++ " expects a bit-vector operand") sexpr
  | .bodySort name found expected body =>
    found.name?.bind fun found =>
      aboutSort expected ("Body of " ++ name ++ " has sort " ++ found ++ ", expected " ++ ·) body
  | .toIntOfBound term =>
    some
      { kind := .solver, message := "to_int is not supported on terms over bound variables",
        code := FaultCode.unsupportedOperator.text, terms := [term.display],
        types := [term.sort.name?] }
  | .closed => about .wrongState "The session has been closed by exit" none
  | .noLogic => about .wrongState "No logic has been set, use set-logic first" none
  | .logicAlreadySet logic => about .logicAlreadySet ("Logic already set to " ++ logic) none
  | .popBaseLevel => about .cannotPopBase "Cannot pop the base assertion level" none
  | .popTooMany levels pushed =>
    about .cannotPopBase
      ("Cannot pop " ++ toString levels ++ " levels, only " ++ toString pushed ++ " pushed") none
  | .optionNotSet keyword =>
    about .unknownAttribute ("Option " ++ keyword ++ " has not been set") none
  | .infoNotSet keyword =>
    about .unknownAttribute ("Info " ++ keyword ++ " has not been set") none
  | .notABool value =>
    fromSolver ("Expected true or false, got " ++ quote value) .invalidValue value
  | .notASeed value =>
    fromSolver ("Random seed must be a numeral, got " ++ quote value) .invalidValue value
  | .contextReleased => fromSolver "Solver context has been released" .released none
  | .modelReleased => fromSolver "Model has been released" .released none
  | .popBeyondContext levels depth =>
    fromSolver
      ("Cannot pop " ++ toString levels ++ " levels from a context of depth " ++ toString depth)
      .invalidStatus (toString levels)
  | .noModel =>
    fromSolver
      ("Model not available, the last check was not satisfiable or the assertions changed " ++
        "since") .invalidStatus none
  | .noCore =>
    fromSolver "Unsat core not available, the last check was not unsatisfiable"
      .invalidStatus none
  | .fault f sexpr terms sorts =>
    if f.isTold then
      some
        { kind := .solver, message := f.message, sexpr, code := f.code.text,
          badValue := f.badValue, terms := terms.map Term.display,
          types := sorts.map SmtSort.name? }
    else none
  | .defect => none

end Error

/-- Reads a text that holds exactly one S-expression. -/
def SExpr.readOne (text : String) : Except Error SExpr :=
  let reading := Reading.ofText text
  match reading.failure, reading.exprs with
  | some failure, _ => .error (.ofReadFailure failure)
  | none, [expr] => .ok expr
  | none, exprs => .error (.notOneExpr exprs.length)

end SmtScript
