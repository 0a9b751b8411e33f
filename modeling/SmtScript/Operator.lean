import SmtScript.Error
import SmtScript.Term.Build

/-!
Operators of the script language.

`Operator.ofName?` knows the operators by name, `Operator.apply` builds their applications. An
operator on numbers that gets Int and Real operands side by side converts the Int ones to Real.
Chainable operators compare neighbours, associative ones make a chain of binary nodes.
-/

namespace SmtScript

/-- The four comparisons of numbers. -/
inductive Comparison where
  | le | lt | ge | gt
  deriving DecidableEq, Repr

inductive Operator where
  | not | implies | and | or | xor | equal | distinct | ite
  | add | sub | mul | realDiv | intDiv | mod | abs
  | compare (comparison : Comparison)
  | toReal
  | select | store
  | concat
  | bitUnary (op : BitUnary)
  /-- A chain of two or more operands. -/
  | bitChain (op : BitOp)
  | bitBinary (op : BitOp)
  /-- The negation of a bit-wise operator. -/
  | bitNegated (op : BitOp)
  | bitEqual | smod
  | bitOrder (op : BitOrder)
  /-- An order with its operands swapped. -/
  | bitOrderSwapped (op : BitOrder)
  deriving DecidableEq, Repr

/-- Why an operator refuses its operands. -/
inductive Refusal where
  | count
  /-- The error that arises at an S-expression. -/
  | wrongSort (errorAt : SExpr → Error)
  | fault (fault : Fault)

instance : MonadLift (Except Fault) (Except Refusal) where
  monadLift x := x.mapError .fault

namespace Operator

/-- The names of the operators. -/
def names : List (String × Operator) :=
  [("not", .not), ("=>", .implies), ("and", .and), ("or", .or), ("xor", .xor), ("=", .equal),
   ("distinct", .distinct), ("ite", .ite),
   ("+", .add), ("-", .sub), ("*", .mul), ("/", .realDiv), ("div", .intDiv), ("mod", .mod),
   ("abs", .abs), ("<=", .compare .le), ("<", .compare .lt), (">=", .compare .ge),
   (">", .compare .gt), ("to_real", .toReal),
   ("select", .select), ("store", .store),
   ("concat", .concat), ("bvand", .bitChain .and), ("bvor", .bitChain .or),
   ("bvxor", .bitChain .xor), ("bvadd", .bitChain .add), ("bvmul", .bitChain .mul),
   ("bvnot", .bitUnary .not), ("bvneg", .bitUnary .neg), ("bvudiv", .bitBinary .udiv),
   ("bvurem", .bitBinary .urem), ("bvshl", .bitBinary .shl), ("bvlshr", .bitBinary .lshr),
   ("bvult", .bitOrder .ult), ("bvnand", .bitNegated .and), ("bvnor", .bitNegated .or),
   ("bvxnor", .bitNegated .xor), ("bvcomp", .bitEqual), ("bvsub", .bitBinary .sub),
   ("bvsdiv", .bitBinary .sdiv), ("bvsrem", .bitBinary .srem), ("bvsmod", .smod),
   ("bvashr", .bitBinary .ashr), ("bvule", .bitOrder .ule), ("bvugt", .bitOrderSwapped .ult),
   ("bvuge", .bitOrderSwapped .ule), ("bvslt", .bitOrder .slt), ("bvsle", .bitOrder .sle),
   ("bvsgt", .bitOrderSwapped .slt), ("bvsge", .bitOrderSwapped .sle)]

/-- The operator of a name. -/
def ofName? (name : String) : Option Operator :=
  names.lookup name

end Operator

namespace Term

/-- Whether Int and Real terms occur side by side. -/
def mixesNumbers (ts : List Term) : Bool :=
  ts.any isReal && ts.any isInt

/-- An Int term as a Real term; other terms stay as they are. -/
def liftToReal (t : Term) : Except Fault Term :=
  if t.isInt then mkToReal t else .ok t

/-- Converts the Int terms to Real if there are Real ones beside them. -/
def liftMixed (ts : List Term) : Except Fault (List Term) :=
  if mixesNumbers ts then ts.mapM liftToReal else .ok ts

/-- Lifts two operands where they mix, and builds a node from them. -/
def lifted (build : Term → Term → Except Fault Term) (left right : Term) : Except Fault Term :=
  do
    match ← liftMixed [left, right] with
    | [left, right] => build left right
    | _ => .error .broken

/-- Builds a chain of binary nodes from the left. -/
def leftChain (build : Term → Term → Except Fault Term) (first : Term) (rest : List Term) :
    Except Fault Term :=
  rest.foldlM build first

/-- Builds a chain of implications, which associate to the right. -/
def impliesChain (first : Term) : List Term → Except Fault Term
  | [] => .ok first
  | next :: rest => do mkImplies first (← impliesChain next rest)

/-- Builds a node from each two neighbours. -/
def neighbours (build : Term → Term → Except Fault Term) : List Term → Except Fault (List Term)
  | left :: right :: rest => do
    let first ← build left right
    let later ← neighbours build (right :: rest)
    return first :: later
  | _ => .ok []

/-- That each two neighbours are related. -/
def chained (build : Term → Term → Except Fault Term) (ts : List Term) : Except Fault Term := do
  mkAnd (← neighbours build ts)

/-- A comparison; the larger side comes last. -/
def mkComparison : Comparison → Term → Term → Except Fault Term
  | .le, left, right => mkOrder .le left right
  | .lt, left, right => mkOrder .lt left right
  | .ge, left, right => mkOrder .le right left
  | .gt, left, right => mkOrder .lt right left

/-- The number with the other sign. -/
def mkNegative (t : Term) : Except Refusal Term :=
  match t with
  | .int value => .ok (.int (-value))
  | .real value => .ok (.real (-value))
  | t =>
    match askForNumber t, t.sort with
    | .error f, _ => .error (.fault f)
    | .ok (), .int => (mkArith .mul (.int (-1)) t).mapError .fault
    | .ok (), .real => (mkArith .mul (.real (-1)) t).mapError .fault
    | .ok (), sort => .error (.wrongSort fun _ => .cannotNegate sort)

/-- Division of Real terms; Int operands are lifted. -/
def mkRealDiv (left right : Term) : Except Fault Term := do
  mkArith .div (← liftToReal left) (← liftToReal right)

/-- The remainder of an integer division. -/
def mkMod (left right : Term) : Except Refusal Term := do
  if left.isInt && right.isInt then
    mkArith .sub left (← mkArith .mul right (← mkArith .div left right))
  else .error (.wrongSort fun _ => .modOperands)

/-- The absolute value of a number. -/
def mkAbs (t : Term) : Except Refusal Term := do
  let zero ← match t.sort with
    | .int => .ok (.int 0)
    | .real => .ok (.real 0)
    | sort => .error (.wrongSort fun _ => .absOperand sort)
  mkIte (← mkComparison .ge t zero) t (← mkNegative t)

end Term

namespace Operator

open Term

/-- Applies an operator to operands. -/
def apply : Operator → List Term → Except Refusal Term
  | .not, [a] => mkNot a
  | .implies, a :: b :: rest => impliesChain a (b :: rest)
  | .and, a :: rest => mkAnd (a :: rest)
  | .or, a :: rest => mkOr (a :: rest)
  | .xor, a :: b :: rest => leftChain mkXor a (b :: rest)
  | .equal, a :: b :: rest => chained (lifted mkSame) (a :: b :: rest)
  | .distinct, a :: b :: rest => do mkDistinct (← liftMixed (a :: b :: rest))
  | .ite, [c, a, b] => do
    match ← liftMixed [c, a, b] with
    | [c, a, b] => mkIte c a b
    | _ => throw .count
  | .add, a :: rest => leftChain (lifted (mkArith .add)) a rest
  | .sub, [a] => mkNegative a
  | .sub, a :: rest => leftChain (lifted (mkArith .sub)) a rest
  | .mul, a :: rest => leftChain (lifted (mkArith .mul)) a rest
  | .realDiv, a :: b :: rest => leftChain mkRealDiv a (b :: rest)
  | .intDiv, a :: b :: rest =>
    match a.sort with
    | .int => leftChain (mkArith .div) a (b :: rest)
    | .real => leftChain (lifted (mkArith .div)) a (b :: rest)
    | sort => .error (.wrongSort (.divOperands sort))
  | .mod, [a, b] => mkMod a b
  | .abs, [a] => mkAbs a
  | .compare comparison, a :: b :: rest =>
    chained (lifted (mkComparison comparison)) (a :: b :: rest)
  | .toReal, [a] => mkToReal a
  | .select, [a, i] => mkSelect a i
  | .store, [a, i, v] => mkStore a i v
  | .concat, a :: b :: rest => leftChain mkConcat a (b :: rest)
  | .bitUnary op, [a] => mkBitUnary op a
  | .bitChain op, a :: b :: rest => leftChain (mkBitOp op) a (b :: rest)
  | .bitBinary op, [a, b] => mkBitOp op a b
  | .bitNegated op, [a, b] => mkBitNegated op a b
  | .bitEqual, [a, b] => mkBitEqual a b
  | .smod, [a, b] => mkSMod a b
  | .bitOrder op, [a, b] => mkBitOrder op a b
  | .bitOrderSwapped op, [a, b] => mkBitOrder op b a
  | _, _ => .error .count

end Operator

/-- What a refusal is to the user, at an S-expression with the given operator and operands. -/
def Refusal.toError (name : String) (sexpr : SExpr) (operands : List Term) : Refusal → Error
  | .count => .operandCount name sexpr
  | .wrongSort errorAt => errorAt sexpr
  | .fault f => .ofFault sexpr operands f

end SmtScript
