import SmtScript.Error
import SmtScript.Text.Numeral

/-!
Commands of the script language.

`CommandName.ofText?` knows the commands by name and `Command.read` reads the arguments of each.
Some commands are known and yet not supported; of these, the queries are refused only once a
logic is set.
-/

namespace SmtScript

inductive CommandName where
  | setLogic | setOption | setInfo | getInfo | getOption | echo
  | push | pop | resetAssertions | reset | exit
  | declareSort | declareFun | declareConst | defineFun
  | assertTerm | checkSat | checkSatAssuming
  | getAssertions | getValue | getModel | getUnsatCore
  | getAssignment | getUnsatAssumptions | getProof
  | defineSort | defineFunRec | defineFunsRec | declareDatatype | declareDatatypes
  deriving DecidableEq, Repr

namespace CommandName

def texts : List (String × CommandName) :=
  [("set-logic", .setLogic), ("set-option", .setOption), ("set-info", .setInfo),
   ("get-info", .getInfo), ("get-option", .getOption), ("echo", .echo), ("push", .push),
   ("pop", .pop), ("reset-assertions", .resetAssertions), ("reset", .reset), ("exit", .exit),
   ("declare-sort", .declareSort), ("declare-fun", .declareFun),
   ("declare-const", .declareConst), ("define-fun", .defineFun), ("assert", .assertTerm),
   ("check-sat", .checkSat), ("check-sat-assuming", .checkSatAssuming),
   ("get-assertions", .getAssertions), ("get-value", .getValue), ("get-model", .getModel),
   ("get-unsat-core", .getUnsatCore), ("get-assignment", .getAssignment),
   ("get-unsat-assumptions", .getUnsatAssumptions), ("get-proof", .getProof),
   ("define-sort", .defineSort), ("define-fun-rec", .defineFunRec),
   ("define-funs-rec", .defineFunsRec), ("declare-datatype", .declareDatatype),
   ("declare-datatypes", .declareDatatypes)]

/-- The command of a name. -/
def ofText? (text : String) : Option CommandName :=
  texts.lookup text

end CommandName

inductive Command where
  | setLogic (logic : String)
  | setOption (keyword value : String)
  | setInfo (keyword value : String)
  /-- Information that is not an attribute with an atom for its value is ignored. -/
  | ignoreInfo
  | getInfo (keyword : String)
  | getOption (keyword : String)
  | echo (text : String)
  | push (levels : Nat)
  | pop (levels : Nat)
  | resetAssertions
  | reset
  | exit
  | declareSort (name : String) (arity : Nat)
  | declareFun (name : String) (domains : List SExpr) (codomain : SExpr)
  | defineFun (name : String) (parameters : List SExpr) (codomain body : SExpr)
  | assertTerm (sexpr : SExpr)
  | checkSat (assumptions : List SExpr)
  | getAssertions
  | getValue (sexprs : List SExpr)
  | getModel
  | getUnsatCore
  /-- A command that is not supported, and whether it is a query. -/
  | unsupported (head : String) (sexpr : SExpr) (isQuery : Bool)
  deriving Repr

namespace Command

/-- An argument that has to be an atom. -/
def symbolArgument (head : String) (sexpr : SExpr) : SExpr → Except Error String
  | .atom text => .ok text
  | .list _ => .error (.expectedSymbol head sexpr)

/-- An argument that has to be a list. -/
def listArgument (head : String) (sexpr : SExpr) : SExpr → Except Error (List SExpr)
  | .list items => .ok items
  | .atom _ => .error (.expectedList head sexpr)

/-- An argument that has to be a keyword. -/
def keywordArgument (head : String) (sexpr : SExpr) : SExpr → Except Error String
  | .atom text =>
    if text.toList.head? = some ':' then .ok text else .error (.expectedKeyword head sexpr)
  | .list _ => .error (.expectedKeyword head sexpr)

/-- A numeral that may be left out. -/
def numeralArgument (head : String) (sexpr : SExpr) (default : Nat) :
    List SExpr → Except Error Nat
  | [] => .ok default
  | [.atom text] =>
    match Numeral.read text with
    | .value n => .ok n
    | .absent => .error (.expectedNumeral head sexpr)
    | .unreadable => .error .defect
  | [.list _] => .error (.expectedNumeral head sexpr)
  | _ => .error (.argumentCount head sexpr)

/-- Reads the arguments of a command. -/
def read (head : String) (sexpr : SExpr) : CommandName → List SExpr → Except Error Command
  | .setLogic, [logic] => do return .setLogic (← symbolArgument head sexpr logic)
  | .setOption, [keyword, value] => do
    return .setOption (← keywordArgument head sexpr keyword) value.text
  | .setInfo, [.atom keyword, .atom value] => .ok (.setInfo keyword value)
  | .setInfo, _ => .ok .ignoreInfo
  | .getInfo, [keyword] => do return .getInfo (← keywordArgument head sexpr keyword)
  | .getOption, [keyword] => do return .getOption (← keywordArgument head sexpr keyword)
  | .echo, [text] => do return .echo (← symbolArgument head sexpr text)
  | .push, args => do return .push (← numeralArgument head sexpr 1 args)
  | .pop, args => do return .pop (← numeralArgument head sexpr 1 args)
  | .resetAssertions, [] => .ok .resetAssertions
  | .reset, [] => .ok .reset
  | .exit, [] => .ok .exit
  | .declareSort, [] => .error (.missingSortName sexpr)
  | .declareSort, name :: rest => do
    let name ← symbolArgument head sexpr name
    return .declareSort name (← numeralArgument head sexpr 0 rest)
  | .declareFun, [name, domains, codomain] => do
    let name ← symbolArgument head sexpr name
    return .declareFun name (← listArgument head sexpr domains) codomain
  | .declareConst, [name, sort] => do
    return .declareFun (← symbolArgument head sexpr name) [] sort
  | .defineFun, [name, parameters, codomain, body] => do
    let name ← symbolArgument head sexpr name
    return .defineFun name (← listArgument head sexpr parameters) codomain body
  | .assertTerm, [term] => .ok (.assertTerm term)
  | .checkSat, [] => .ok (.checkSat [])
  | .checkSatAssuming, [assumptions] => do
    return .checkSat (← listArgument head sexpr assumptions)
  | .getAssertions, [] => .ok .getAssertions
  | .getValue, [terms] => do
    match ← listArgument head sexpr terms with
    | [] => throw (.nothingToEvaluate sexpr)
    | terms => return .getValue terms
  | .getModel, [] => .ok .getModel
  | .getUnsatCore, [] => .ok .getUnsatCore
  | .getAssignment, _ | .getUnsatAssumptions, _ | .getProof, _ =>
    .ok (.unsupported head sexpr true)
  | .defineSort, _ | .defineFunRec, _ | .defineFunsRec, _ | .declareDatatype, _
  | .declareDatatypes, _ => .ok (.unsupported head sexpr false)
  | _, _ => .error (.argumentCount head sexpr)

end Command

end SmtScript
