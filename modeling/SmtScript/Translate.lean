import SmtScript.Environment
import SmtScript.Literal
import SmtScript.Operator
import SmtScript.SortTable
import SmtScript.Term.Substitute

/-!
Translating S-expressions into terms.

`translate` reads an S-expression as a term in an environment. The bodies of `let` and of
quantifiers are read in an extension of it, so that no binding outlives its scope. Translation
makes symbols: for bound variables, for the witness of `is_int`, and for each `to_int`, which it
replaces by a new Int symbol that stands for the integer part of the operand. The symbols made by
a translation that fails stay in the table.
-/

namespace SmtScript

/-- A function that the script defines: its body is to be taken with arguments for parameters. -/
structure Definition where
  parameters : List Symbol
  body : Term
  deriving Repr, Inhabited

/-- What a name of the script stands for. -/
inductive Binding where
  | term (term : Term)
  | definition (definition : Definition)
  deriving Repr, Inhabited

abbrev Names := Environment Binding

/-- What translation leaves behind for later translations. -/
structure TermState where
  table : SymbolTable
  /-- The variables of quantifiers and the parameters of definitions. -/
  locals : List Symbol
  /-- The symbols that stand for integer parts, newest first, with the Real terms that they are
  the integer parts of. -/
  integerParts : List (Symbol × Term)
  /-- What the last substitution that failed left behind. -/
  leftover : Term.Leftover
  deriving Inhabited

def TermState.empty : TermState := ⟨.empty, [], [], none⟩

/-- A step of translation: it may fail, and what it did to the state stays in either case. -/
abbrev Translation := ExceptT Error (StateM TermState)

namespace Translation

/-- Makes a symbol with a new name. -/
def freshSymbol (stem : String) (sort : SmtSort) : Translation Symbol :=
  modifyGet fun state =>
    let (symbol, table) := state.table.fresh stem sort
    (symbol, { state with table })

/-- Makes a symbol for a bound variable or a parameter. -/
def freshLocal (stem : String) (sort : SmtSort) : Translation Symbol := do
  let symbol ← freshSymbol stem sort
  modify fun state => { state with locals := symbol :: state.locals }
  return symbol

/-- A node built from operands at an S-expression. -/
def node (sexpr : SExpr) (operands : List Term) (x : Except Fault Term) : Translation Term :=
  liftExcept (x.mapError (Error.ofFault sexpr operands))
where
  liftExcept (x : Except Error Term) : Translation Term := ExceptT.mk (pure x)

/-- A node where no S-expression is known. -/
def bareNode (x : Except Fault Term) : Translation Term :=
  ExceptT.mk (pure (x.mapError fun f => .fault f none [] []))

end Translation

open Translation

/-- The Real form of an Int term where Real is expected; other terms stay as they are. -/
def liftTo (expected : SmtSort) (t : Term) : Except Fault Term :=
  if expected = .real then t.liftToReal else .ok t

/-- Lifts each term to the sort expected in its place. -/
def liftAllTo (expected : List SmtSort) (ts : List Term) : Except Fault (List Term) :=
  (expected.zip ts).mapM fun (sort, t) => liftTo sort t

/-- The term of a literal. -/
def Literal.term : Literal → Term
  | .bool value => .bool value
  | .int value => .int value
  | .real value => .real value
  | .bitVec width value => .bitVec width value

/-- The integer part of a number. A new symbol stands for it unless the number is a constant;
terms over bound variables have no symbol to stand for them. -/
def integerPart (t : Term) : ExceptT Error (StateM TermState) Term :=
  match t.sort, t with
  | .int, t => return t
  | .real, .real value => return .int value.floor
  | .real, t => do
    let state ← get
    if t.symbols.any state.locals.contains then throw (.toIntOfBound t)
    let symbol ← freshSymbol "to_int_" .int
    modify fun state => { state with integerParts := (symbol, t) :: state.integerParts }
    return .symbol symbol
  | sort, _ => throw (.toIntOperand sort)

/-- That a number is integral: an integer equals it. -/
def isIntegral (sexpr : SExpr) (t : Term) : Translation Term := do
  let number ← node sexpr [t] t.liftToReal
  let witness ← freshSymbol "is_int_" .int
  node sexpr [t] do
    let equality ← Term.checked (.equal (← Term.mkToReal (.symbol witness)) number)
    Term.mkQuantified .existential [witness] equality

/-- Applies an operator at an S-expression. -/
def applyOperator (name : String) (sexpr : SExpr) (op : Operator) (args : List Term) :
    Translation Term :=
  ExceptT.mk (pure ((op.apply args).mapError (Refusal.toError name sexpr args)))

/-- Applies what a name is bound to. -/
def applyBinding (name : String) (sexpr : SExpr) (binding : Binding) (args : List Term) :
    Translation Term :=
  match binding with
  | .definition d =>
    if args.length ≠ d.parameters.length then
      throw (.wrongArity name d.parameters.length args.length sexpr)
    else match liftAllTo (d.parameters.map Symbol.sort) args with
      | .error f => throw (.ofFault sexpr args f)
      | .ok values => do
        let state ← get
        let (result, leftover) := d.body.instantiate (d.parameters.zip values) state.leftover
        set { state with leftover }
        node sexpr args result
  | .term t =>
    if t.sort.isFunction then
      let domains := t.sort.domains
      if args.length ≠ domains.length then
        throw (.wrongArity name domains.length args.length sexpr)
      else match t, liftAllTo domains args with
        | .symbol f, .ok args => node sexpr args (Term.mkApply f args)
        | _, _ => throw .defect
    else if args.isEmpty then return t
    else throw (.notAFunction name sexpr)

/-- An index of an operator. -/
def index (sexpr : SExpr) : SExpr → Translation Nat
  | .atom text =>
    match Numeral.read text with
    | .value n => return n
    | .absent => throw (.indexNotNumeral sexpr)
    | .unreadable => throw .defect
  | .list _ => throw (.indexNotNumeral sexpr)

/-- Operators that carry indices. -/
inductive IndexedOperator where
  | extract
  | repeated
  | widen (bits : Widening)
  | rotate (side : Side)
  deriving DecidableEq, Repr

namespace IndexedOperator

def names : List (String × IndexedOperator) :=
  [("extract", .extract), ("repeat", .repeated), ("zero_extend", .widen .zeros),
   ("sign_extend", .widen .signs), ("rotate_left", .rotate .left),
   ("rotate_right", .rotate .right)]

def ofName? (name : String) : Option IndexedOperator :=
  names.lookup name

/-- How many indices an operator carries. -/
def indexCount : IndexedOperator → Nat
  | .extract => 2
  | _ => 1

/-- Applies an indexed operator to a bit-vector. -/
def apply (op : IndexedOperator) (indices : List Nat) (t : Term) : Except Refusal Term :=
  match op, indices with
  | .extract, [high, low] =>
    if low ≤ high && high < t.sort.width then Term.mkExtract high low t
    else .error (.wrongSort fun _ => .extractIndices high low t.sort.width)
  | .repeated, [count] => Term.mkRepeat count t
  | .widen bits, [extra] => Term.mkWiden bits extra t
  | .rotate side, [step] => Term.mkRotate side step t
  | _, _ => .error .count

end IndexedOperator

/-- The digits of a bit-vector constant written as `bv` and a number. -/
def decimalBits? (text : String) : Option Nat :=
  match text.toList with
  | 'b' :: 'v' :: digits => if Literal.isDigits digits then some (Literal.decimal digits) else none
  | _ => none

/-- An indexed constant: a bit-vector given by its value and its width. -/
def indexedConstant (items : List SExpr) : Translation Term :=
  let sexpr : SExpr := .list (.atom "_" :: items)
  match items with
  | [.atom text, width] =>
    match decimalBits? text with
    | none => throw (.unsupportedIndexedTerm sexpr)
    | some value => do
      let width ← index sexpr width
      if width = 0 then throw (.zeroWidth sexpr)
      ExceptT.mk (pure ((Term.mkBits width value).mapError fun f => .fault f (some sexpr) [] []))
  | _ => throw (.unsupportedIndexedTerm sexpr)

/-- What an atom stands for. -/
def translateAtom (names : Names) (atom : String) : Translation Term :=
  match names.find? atom with
  | some (.term t) => return t
  | some (.definition _) => throw (.functionWithoutArguments atom)
  | none => ExceptT.mk (pure ((Literal.read atom).map Literal.term))

/-- The quantifier of a name. -/
def quantifierOf? (name : String) : Option Quantifier :=
  if name = "forall" then some .universal
  else if name = "exists" then some .existential
  else none

/-- Makes the variables that a quantifier declares. -/
def declareVariables (sorts : SortTable) : List SExpr → Translation (List (String × Symbol))
  | [] => return []
  | .list [.atom name, sort] :: rest => do
    let sort ← ExceptT.mk (pure (sorts.parse sort))
    let symbol ← freshLocal (name ++ "_") sort
    let later ← declareVariables sorts rest
    return (name, symbol) :: later
  | declaration :: _ => throw (.malformedVariable declaration)

/-- Bindings of names to symbols. -/
def bindSymbols (declared : List (String × Symbol)) : List (String × Binding) :=
  declared.map fun (name, symbol) => (name, .term (.symbol symbol))

/-- The index and element sorts of an array sort that a constant array is ascribed to. -/
def ascribedArray (sorts : SortTable) (sexpr sort : SExpr) : Translation (SmtSort × SmtSort) := do
  match ← ExceptT.mk (pure (sorts.parse sort)) with
  | .array index element => return (index, element)
  | _ => throw (.unsupportedConstArray sexpr)

/-- A constant array that holds a value. -/
def constantArray (sexpr : SExpr) (index element : SmtSort) (value : Term) : Translation Term := do
  let value ← bareNode (liftTo element value)
  node sexpr [value] (Term.mkConstArray index value)

/-- The indices of an operator. -/
def readIndices (name : String) (sexpr : SExpr) (op : IndexedOperator) (indices : List SExpr) :
    Translation (List Nat) :=
  if indices.length = op.indexCount then indices.mapM (index sexpr)
  else throw (.indexCount name sexpr)

/-- Applies an indexed operator at an S-expression. -/
def applyIndexed (name : String) (sexpr : SExpr) (op : IndexedOperator) (indices : List Nat)
    (t : Term) : Translation Term :=
  if t.isBitVec then
    ExceptT.mk (pure ((op.apply indices t).mapError (Refusal.toError name sexpr [t])))
  else throw (.notBitVec name sexpr)

/-- Quantifies the declared variables of a body. -/
def quantify (sexpr : SExpr) (q : Quantifier) (declared : List (String × Symbol)) (body : Term) :
    Translation Term :=
  ExceptT.mk <| pure <| (Term.mkQuantified q (declared.map Prod.snd) body).mapError
    fun f => .fault f (some sexpr) [body] []

mutual

/-- Translates an S-expression into a term. -/
def translate (sorts : SortTable) (names : Names) : SExpr → Translation Term
  | .atom atom => translateAtom names atom
  | .list [] => throw .emptyApplication
  | .list (.list head :: args) =>
    let sexpr : SExpr := .list (.list head :: args)
    match head with
    | [.atom "as", .atom "const", sort] =>
      match args with
      | [arg] => do
        let (index, element) ← ascribedArray sorts sexpr sort
        constantArray sexpr index element (← translate sorts names arg)
      | _ => do
        let _ ← ascribedArray sorts sexpr sort
        throw (.unsupportedConstArray sexpr)
    | .atom "_" :: .atom name :: indices =>
      match IndexedOperator.ofName? name with
      | none => throw (.unsupportedIndexedOperator sexpr)
      | some op =>
        match args with
        | [arg] => do
          let indices ← readIndices name sexpr op indices
          applyIndexed name sexpr op indices (← translate sorts names arg)
        | _ => throw (.indexCount name sexpr)
    | _ => throw (.unsupportedIndexedOperator sexpr)
  | .list (.atom head :: args) =>
    let sexpr : SExpr := .list (.atom head :: args)
    if head = "let" then
      match args with
      | [.list (binding :: bindings), body] => do
        let bound ← translateBindings sorts names (binding :: bindings)
        translate sorts (names.extend bound) body
      | _ => throw (.malformedLet sexpr)
    else match quantifierOf? head with
    | some q =>
      match args with
      | [.list (declaration :: declarations), body] => do
        let declared ← declareVariables sorts (declaration :: declarations)
        quantify sexpr q declared (← translate sorts (names.extend (bindSymbols declared)) body)
      | _ => throw (.malformedQuantifier head sexpr)
    | none =>
      if head = "match" || head = "!" then throw (.unsupportedForm head sexpr)
      else if head = "_" then indexedConstant args
      else match names.find? head with
      | some binding => do
        let args ← translateAll sorts names args
        applyBinding head sexpr binding args
      | none =>
        if head = "to_int" || head = "is_int" then do
          match ← translateAll sorts names args with
          | [t] => if head = "to_int" then integerPart t else isIntegral sexpr t
          | _ => throw (.operandCount head sexpr)
        else match Operator.ofName? head with
        | none => throw (.unsupportedTerm sexpr)
        | some op => do
          let args ← translateAll sorts names args
          applyOperator head sexpr op args

/-- Translates several S-expressions in one environment. -/
def translateAll (sorts : SortTable) (names : Names) : List SExpr → Translation (List Term)
  | [] => return []
  | s :: rest => do
    let first ← translate sorts names s
    let later ← translateAll sorts names rest
    return first :: later

/-- Translates the bindings of a `let`, all in the environment outside of it. -/
def translateBindings (sorts : SortTable) (names : Names) :
    List SExpr → Translation (List (String × Binding))
  | [] => return []
  | .list [.atom name, value] :: rest => do
    let value ← translate sorts names value
    let later ← translateBindings sorts names rest
    return (name, .term value) :: later
  | binding :: _ => throw (.malformedLetBinding binding)

end

end SmtScript
