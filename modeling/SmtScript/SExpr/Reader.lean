import SmtScript.SExpr.Basic
import SmtScript.SExpr.Token

/-!
Reading S-expressions.

A text is read from left to right and yields its top-level expressions one after the other, so an
expression is available even if the text breaks off later. `Reading` keeps both: the expressions
and the failure after them, if there is one.
-/

namespace SmtScript

/-- Why the reading of a text breaks off. -/
inductive ReadFailure where
  | unexpectedClose (position : Position)
  | missingClose (position : Position)
  | badEscape
  deriving DecidableEq, Repr

/-- The expressions of a text, and what stopped the reading if not the end of the text. -/
structure Reading where
  exprs : List SExpr
  failure : Option ReadFailure
  deriving DecidableEq, Repr

namespace Reading

/-- Puts one more expression in front. -/
def cons (expr : SExpr) (later : Reading) : Reading :=
  { later with exprs := expr :: later.exprs }

/-- Builds expressions from tokens. `pending` holds the items, in reverse, of each list that is
still open, innermost first. -/
def build (ending : Option Position) : List (List SExpr) → List Token → Reading
  | pending, [] =>
    match ending, pending with
    | none, _ => ⟨[], some .badEscape⟩
    | some _, [] => ⟨[], none⟩
    | some position, _ :: _ => ⟨[], some (.missingClose position)⟩
  | pending, token :: rest =>
    if token.text = "(" then build ending ([] :: pending) rest
    else if token.text = ")" then
      match pending with
      | [] => ⟨[], some (.unexpectedClose token.position)⟩
      | [items] => (build ending [] rest).cons (.list items.reverse)
      | items :: outer :: others =>
        build ending ((.list items.reverse :: outer) :: others) rest
    else
      match pending with
      | [] => (build ending [] rest).cons (.atom token.text)
      | items :: others => build ending ((.atom token.text :: items) :: others) rest

/-- Builds expressions from the tokens of a scan. -/
def ofScan (scan : Scan) : Reading :=
  build scan.ending [] scan.tokens

/-- Reads all the top-level expressions of a text. -/
def ofText (text : String) : Reading :=
  ofScan (.ofText text)

end Reading

end SmtScript
