/-!
S-expressions: atoms and lists of S-expressions.

An atom is kept as its text. String literals are atoms too: their text keeps the enclosing double
quotes, and a double quote inside is written twice. `SExpr.text` writes an S-expression on one
line; it puts bars around an atom that would otherwise fall apart when it is read.
-/

namespace SmtScript

inductive SExpr where
  | atom (text : String)
  | list (items : List SExpr)
  deriving Repr, Inhabited

namespace SExpr

mutual

/-- Whether two S-expressions are the same tree. -/
def same : SExpr → SExpr → Bool
  | .atom a, .atom b => a == b
  | .list xs, .list ys => sameAll xs ys
  | _, _ => false

/-- Whether two lists hold the same trees. -/
def sameAll : List SExpr → List SExpr → Bool
  | [], [] => true
  | x :: xs, y :: ys => same x y && sameAll xs ys
  | _, _ => false

end

mutual

theorem same_iff_eq : ∀ x y : SExpr, same x y = true ↔ x = y
  | .atom a, .atom b => by simp [same]
  | .list xs, .list ys => by simp [same, sameAll_iff_eq xs ys]
  | .atom a, .list ys => by simp [same]
  | .list xs, .atom b => by simp [same]

theorem sameAll_iff_eq : ∀ xs ys : List SExpr, sameAll xs ys = true ↔ xs = ys
  | [], [] => by simp [sameAll]
  | x :: xs, y :: ys => by simp [sameAll, same_iff_eq x y, sameAll_iff_eq xs ys]
  | [], y :: ys => by simp [sameAll]
  | x :: xs, [] => by simp [sameAll]

end

instance : DecidableEq SExpr := fun x y =>
  decidable_of_iff (same x y = true) (same_iff_eq x y)

/-- Whether the expression is the atom with this text. -/
def isAtom (s : SExpr) (text : String) : Bool :=
  match s with
  | .atom a => a == text
  | .list _ => false

end SExpr

/-- Whether a text is a string literal: it starts and ends with different double quotes. -/
def isStringLiteral (text : String) : Bool :=
  let chars := text.toList
  decide (2 ≤ chars.length) && chars.head? == some '"' && chars.getLast? == some '"'

/-- Writes every double quote twice. -/
def doubleQuotes : List Char → List Char
  | [] => []
  | c :: rest => if c = '"' then '"' :: '"' :: doubleQuotes rest else c :: doubleQuotes rest

/-- Reads each pair of double quotes as one, from left to right. -/
def mergeQuotes : List Char → List Char
  | [] => []
  | ['"'] => ['"']
  | '"' :: '"' :: rest => '"' :: mergeQuotes rest
  | c :: rest => c :: mergeQuotes rest

/-- The content of a string literal; any other text stands for itself. -/
def literalValue (text : String) : String :=
  if isStringLiteral text then String.ofList (mergeQuotes text.toList.tail.dropLast) else text

/-- The string literal that holds a text. -/
def stringLiteral (text : String) : String :=
  String.ofList ('"' :: doubleQuotes text.toList ++ ['"'])

/-- Characters that end an atom, or start something else, when they are not between bars. -/
def breaksAtom (c : Char) : Bool :=
  [' ', '\t', '\n', '(', ')', '|', ';'].contains c

namespace SExpr

/-- The text of an atom, between bars if it is empty or would fall apart. Nothing is escaped. -/
def atomText (text : String) : String :=
  if !isStringLiteral text && (text.isEmpty || text.toList.any breaksAtom) then
    "|" ++ text ++ "|"
  else text

mutual

/-- The one-line text of an S-expression. -/
def text : SExpr → String
  | .atom a => atomText a
  | .list items => "(" ++ String.intercalate " " (texts items) ++ ")"

/-- The texts of several S-expressions. -/
def texts : List SExpr → List String
  | [] => []
  | s :: rest => text s :: texts rest

end

theorem texts_eq_map (items : List SExpr) : texts items = items.map text := by
  induction items with
  | nil => rfl
  | cons s rest ih => simp [texts, ih]

end SExpr

end SmtScript
