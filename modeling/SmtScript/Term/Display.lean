import SmtScript.Term.Basic
import SmtScript.Text.Name

/-!
The form of a term in messages.

Operators stand between their operands, in parentheses. So that a message stays short, the nodes
five levels below the root are replaced by three dots; the name of an applied function and the
variables of a quantifier count as nodes.
-/

namespace SmtScript

/-- Operands in parentheses with an operator between them. -/
def between (operator : String) (operands : List String) : String :=
  "(" ++ String.intercalate operator operands ++ ")"

def displayRational (q : Rat) : String :=
  if q.den = 1 then toString q.num ++ ".0" else toString q.num ++ "/" ++ toString q.den

def Symbol.display (s : Symbol) : String := printedName '\'' s.name

def ArithOp.display : ArithOp → String
  | .add => " + "
  | .sub => " - "
  | .mul => " * "
  | .div => " / "

def NumOrder.display : NumOrder → String
  | .le => " <= "
  | .lt => " < "

def BitUnary.display : BitUnary → String
  | .not => "! "
  | .neg => "- "

def BitOp.display : BitOp → String
  | .and => " & "
  | .or => " | "
  | .xor => " xor "
  | .add => " + "
  | .sub => " - "
  | .mul => " * "
  | .udiv => " u/ "
  | .urem => " u% "
  | .sdiv => " s/ "
  | .srem => " s% "
  | .shl => " << "
  | .lshr => " >> "
  | .ashr => " a>> "

def BitOrder.display : BitOrder → String
  | .ult => " u< "
  | .ule => " u<= "
  | .slt => " s< "
  | .sle => " s<= "

def Side.display : Side → String
  | .left => " ROL "
  | .right => " ROR "

def Widening.display : Widening → String
  | .zeros => " ZEXT "
  | .signs => " SEXT "

def Quantifier.display : Quantifier → String
  | .universal => "forall "
  | .existential => "exists "

namespace Term

/-- The form of a term in messages, no more than the given number of levels deep. -/
def displayWithin : Nat → Term → String
  | 0, _ => "..."
  | _ + 1, .bool value => if value then "True" else "False"
  | _ + 1, .int value => toString value
  | _ + 1, .real value => displayRational value
  | _ + 1, .bitVec width value => toString value.toNat ++ "_" ++ toString width
  | _ + 1, .symbol s => s.display
  | levels + 1, .apply f args =>
    displayWithin levels (.symbol f) ++ between ", " (args.map (displayWithin levels))
  | levels + 1, .not a => "(! " ++ displayWithin levels a ++ ")"
  | levels + 1, .and ts => between " & " (ts.map (displayWithin levels))
  | levels + 1, .or ts => between " | " (ts.map (displayWithin levels))
  | levels + 1, .implies a b => between " -> " [displayWithin levels a, displayWithin levels b]
  | levels + 1, .iff a b => between " <-> " [displayWithin levels a, displayWithin levels b]
  | levels + 1, .equal a b => between " = " [displayWithin levels a, displayWithin levels b]
  | levels + 1, .ite c a b =>
    "(" ++ displayWithin levels c ++ " ? " ++ displayWithin levels a ++ " : " ++
      displayWithin levels b ++ ")"
  | levels + 1, .arith op a b =>
    between op.display [displayWithin levels a, displayWithin levels b]
  | levels + 1, .order op a b =>
    between op.display [displayWithin levels a, displayWithin levels b]
  | levels + 1, .toReal a => "ToReal(" ++ displayWithin levels a ++ ")"
  | levels + 1, .select a i => displayWithin levels a ++ "[" ++ displayWithin levels i ++ "]"
  | levels + 1, .store a i v =>
    displayWithin levels a ++ "[" ++ displayWithin levels i ++ " := " ++
      displayWithin levels v ++ "]"
  | levels + 1, .constArray index v =>
    (SmtSort.array index v.sort).name ++ "(" ++ displayWithin levels v ++ ")"
  | levels + 1, .bitUnary op a => "(" ++ op.display ++ displayWithin levels a ++ ")"
  | levels + 1, .bitOp op a b =>
    between op.display [displayWithin levels a, displayWithin levels b]
  | levels + 1, .bitOrder op a b =>
    between op.display [displayWithin levels a, displayWithin levels b]
  | levels + 1, .bitEqual a b =>
    between " bvcomp " [displayWithin levels a, displayWithin levels b]
  | levels + 1, .concat a b => between "::" [displayWithin levels a, displayWithin levels b]
  | levels + 1, .extract high low a =>
    displayWithin levels a ++ "[" ++ toString low ++ ":" ++ toString high ++ "]"
  | levels + 1, .rotate side step a =>
    between side.display [displayWithin levels a, toString step]
  | levels + 1, .widen bits extra a =>
    between bits.display [displayWithin levels a, toString extra]
  | levels + 1, .quantified q bound a =>
    "(" ++ q.display ++
      String.intercalate ", " (bound.map fun s => displayWithin levels (.symbol s)) ++
      " . " ++ displayWithin levels a ++ ")"

/-- The form of a term in messages. -/
def display (t : Term) : String := displayWithin 5 t

end Term

end SmtScript
