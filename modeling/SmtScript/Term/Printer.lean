import SmtScript.Term.Basic
import SmtScript.Text.Name

/-!
The text of a term in the language of scripts.

Operators stand before their operands, with one blank between items. A negative number is written
as the negation of a positive one, a rational number that is not integral as a quotient.
-/

namespace SmtScript

/-- An operator and its operands in parentheses. -/
def applied (head : String) (operands : List String) : String :=
  "(" ++ String.intercalate " " (head :: operands) ++ ")"

/-- Writes a number by its absolute value, under a minus sign if it is negative. -/
def signed (negative : Bool) (magnitude : String) : String :=
  if negative then applied "-" [magnitude] else magnitude

def integerText (n : Int) : String :=
  signed (decide (n < 0)) (toString n.natAbs)

def rationalText (q : Rat) : String :=
  signed (decide (q.num < 0)) <|
    if q.den = 1 then toString q.num.natAbs ++ ".0"
    else applied "/" [toString q.num.natAbs, toString q.den]

/-- The bits of a bit-vector, most significant first. -/
def bitsText {width : Nat} (v : BitVec width) : String :=
  "#b" ++ String.ofList ((List.range width).map fun i => if v.getMsbD i then '1' else '0')

def Symbol.text (s : Symbol) : String := printedName '|' s.name

/-- A bound variable with its sort. -/
def Symbol.declaration (s : Symbol) : String := applied s.text [s.sort.text]

def ArithOp.text : ArithOp → String
  | .add => "+"
  | .sub => "-"
  | .mul => "*"
  | .div => "/"

def NumOrder.text : NumOrder → String
  | .le => "<="
  | .lt => "<"

def BitUnary.text : BitUnary → String
  | .not => "bvnot"
  | .neg => "bvneg"

def BitOp.text : BitOp → String
  | .and => "bvand"
  | .or => "bvor"
  | .xor => "bvxor"
  | .add => "bvadd"
  | .sub => "bvsub"
  | .mul => "bvmul"
  | .udiv => "bvudiv"
  | .urem => "bvurem"
  | .sdiv => "bvsdiv"
  | .srem => "bvsrem"
  | .shl => "bvshl"
  | .lshr => "bvlshr"
  | .ashr => "bvashr"

def BitOrder.text : BitOrder → String
  | .ult => "bvult"
  | .ule => "bvule"
  | .slt => "bvslt"
  | .sle => "bvsle"

def Side.text : Side → String
  | .left => "rotate_left"
  | .right => "rotate_right"

def Widening.text : Widening → String
  | .zeros => "zero_extend"
  | .signs => "sign_extend"

def Quantifier.text : Quantifier → String
  | .universal => "forall"
  | .existential => "exists"

/-- An operator with its indices. -/
def indexed (name : String) (indices : List Nat) : String :=
  applied "_" (name :: indices.map toString)

namespace Term

mutual

/-- The text of a term in the language of scripts. -/
def text : Term → String
  | .bool value => if value then "true" else "false"
  | .int value => integerText value
  | .real value => rationalText value
  | .bitVec _ value => bitsText value
  | .symbol s => s.text
  | .apply f args => applied f.text (texts args)
  | .not a => applied "not" [a.text]
  | .and ts => applied "and" (texts ts)
  | .or ts => applied "or" (texts ts)
  | .implies a b => applied "=>" [a.text, b.text]
  | .iff a b => applied "=" [a.text, b.text]
  | .equal a b => applied "=" [a.text, b.text]
  | .ite c a b => applied "ite" [c.text, a.text, b.text]
  | .arith op a b => applied op.text [a.text, b.text]
  | .order op a b => applied op.text [a.text, b.text]
  | .toReal a => applied "to_real" [a.text]
  | .select a i => applied "select" [a.text, i.text]
  | .store a i v => applied "store" [a.text, i.text, v.text]
  | .constArray index v =>
    applied (applied "as" ["const", (SmtSort.array index v.sort).text]) [v.text]
  | .bitUnary op a => applied op.text [a.text]
  | .bitOp op a b => applied op.text [a.text, b.text]
  | .bitOrder op a b => applied op.text [a.text, b.text]
  | .bitEqual a b => applied "bvcomp" [a.text, b.text]
  | .concat a b => applied "concat" [a.text, b.text]
  | .extract high low a => applied (indexed "extract" [high, low]) [a.text]
  | .rotate side step a => applied (indexed side.text [step]) [a.text]
  | .widen bits extra a => applied (indexed bits.text [extra]) [a.text]
  | .quantified q bound a =>
    applied q.text ["(" ++ String.join (bound.map Symbol.declaration) ++ ")", a.text]

/-- The texts of several terms. -/
def texts : List Term → List String
  | [] => []
  | t :: rest => t.text :: texts rest

end

theorem texts_eq_map (ts : List Term) : texts ts = ts.map text := by
  induction ts with
  | nil => rfl
  | cons t rest ih => simp [texts, ih]

end Term

end SmtScript
