import SmtScript.Term.Fold
import SmtScript.Term.Value

/-!
The value of a term under an interpretation.

An interpretation gives values to symbols, results to functions, and decides what it means for a
property to hold of all values of a sort. `Term.eval` is defined on all terms; what it says of a
term whose operands do not fit has no meaning.
-/

namespace SmtScript

structure Interpretation where
  symbol : Symbol → Value
  apply : Symbol → List Value → Value
  /-- Whether a property holds of all values of a sort. -/
  holdsOfAll : SmtSort → (Value → Bool) → Bool

namespace Interpretation

/-- The interpretation that differs in the value of one symbol. -/
def assign (I : Interpretation) (s : Symbol) (v : Value) : Interpretation :=
  { I with symbol := fun s' => if s' = s then v else I.symbol s' }

/-- Whether a statement holds for all values of several variables. -/
def forAll (I : Interpretation) : List Symbol → (Interpretation → Bool) → Bool
  | [], statement => statement I
  | s :: rest, statement => I.holdsOfAll s.sort fun v => (I.assign s v).forAll rest statement

end Interpretation

namespace Term

mutual

/-- The value of a term. -/
def eval : Term → Interpretation → Value
  | .bool value, _ => .bool value
  | .int value, _ => .int value
  | .real value, _ => .real value
  | .bitVec width value, _ => .bitVec width value
  | .symbol s, I => I.symbol s
  | .apply f args, I => I.apply f (evalAll args I)
  | .not a, I => .bool (!(a.eval I).isTrue)
  | .and ts, I => .bool ((evalAll ts I).all Value.isTrue)
  | .or ts, I => .bool ((evalAll ts I).any Value.isTrue)
  | .implies a b, I => .bool (!(a.eval I).isTrue || (b.eval I).isTrue)
  | .iff a b, I => .bool ((a.eval I).equals (b.eval I))
  | .equal a b, I => .bool ((a.eval I).equals (b.eval I))
  | .ite c a b, I => if (c.eval I).isTrue then a.eval I else b.eval I
  | .arith op a b, I => Value.arith op (a.eval I) (b.eval I)
  | .order op a b, I => .bool (Value.order op (a.eval I) (b.eval I))
  | .toReal a, I => (a.eval I).toReal
  | .select a i, I => (a.eval I).select (i.eval I)
  | .store a i v, I => (a.eval I).store (i.eval I) (v.eval I)
  | .constArray index v, I => .constArray index (v.eval I)
  | .bitUnary op a, I => Value.bitUnary op (a.eval I)
  | .bitOp op a b, I => Value.bitOp op (a.eval I) (b.eval I)
  | .bitOrder op a b, I => .bool (Value.bitOrder op (a.eval I) (b.eval I))
  | .bitEqual a b, I => Value.bit ((a.eval I).equals (b.eval I))
  | .concat a b, I => (a.eval I).concat (b.eval I)
  | .extract high low a, I => (a.eval I).extract high low
  | .rotate side step a, I => (a.eval I).rotate side step
  | .widen bits extra a, I => (a.eval I).widen bits extra
  | .quantified .universal bound a, I =>
    .bool (I.forAll bound fun J => (a.eval J).isTrue)
  | .quantified .existential bound a, I =>
    .bool (!I.forAll bound fun J => !(a.eval J).isTrue)

/-- The values of several terms. -/
def evalAll : List Term → Interpretation → List Value
  | [], _ => []
  | t :: rest, I => t.eval I :: evalAll rest I

end

/-- The value of a term from the values of its operands, if its root is neither a symbol nor a
function nor a quantifier. -/
def rootValue : Root → List Value → Value
  | .bool value, _ => .bool value
  | .int value, _ => .int value
  | .real value, _ => .real value
  | .bitVec width value, _ => .bitVec width value
  | .not, [a] => .bool (!a.isTrue)
  | .and, vs => .bool (vs.all Value.isTrue)
  | .or, vs => .bool (vs.any Value.isTrue)
  | .implies, [a, b] => .bool (!a.isTrue || b.isTrue)
  | .iff, [a, b] => .bool (a.equals b)
  | .equal, [a, b] => .bool (a.equals b)
  | .ite, [c, a, b] => if c.isTrue then a else b
  | .arith op, [a, b] => Value.arith op a b
  | .order op, [a, b] => .bool (Value.order op a b)
  | .toReal, [a] => a.toReal
  | .select, [a, i] => a.select i
  | .store, [a, i, v] => a.store i v
  | .constArray index, [v] => .constArray index v
  | .bitUnary op, [a] => Value.bitUnary op a
  | .bitOp op, [a, b] => Value.bitOp op a b
  | .bitOrder op, [a, b] => .bool (Value.bitOrder op a b)
  | .bitEqual, [a, b] => Value.bit (a.equals b)
  | .concat, [a, b] => a.concat b
  | .extract high low, [a] => a.extract high low
  | .rotate side step, [a] => a.rotate side step
  | .widen bits extra, [a] => a.widen bits extra
  | _, _ => default

theorem evalAll_eq_map (ts : List Term) (I : Interpretation) :
    evalAll ts I = ts.map fun t => t.eval I := by
  induction ts with
  | nil => rfl
  | cons t rest ih => simp [evalAll, ih]

/-- Evaluation from the values of the operands. -/
def evalFold (I : Interpretation) : Fold Value where
  value t := t.eval I
  combine t values :=
    match t with
    | .symbol s => I.symbol s
    | .apply f _ => I.apply f values
    | .quantified q bound a => (Term.quantified q bound a).eval I
    | t => rootValue t.root values
  value_eq t := by
    cases t <;> simp [eval, operands, root, rootValue, evalAll_eq_map]

/-- The value of a term, found in the time that its distinct parts take. -/
def valueIn (I : Interpretation) (t : Term) : Value := (evalFold I).run t

theorem valueIn_eq (I : Interpretation) (t : Term) : t.valueIn I = t.eval I :=
  (evalFold I).run_eq t

end Term

end SmtScript
