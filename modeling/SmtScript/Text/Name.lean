/-!
Names in printed terms.

A plain name is printed as it is. Any other name stands between two quotation marks, and a
backslash goes before each mark and each backslash inside.
-/

namespace SmtScript

/-- Characters that a plain name can start with. -/
def startsName (c : Char) : Bool :=
  c.isAlpha || "~!@$%^&*_-+=<>.?/".toList.contains c

/-- Characters that can follow in a plain name. -/
def continuesName (c : Char) : Bool :=
  startsName c || c.isDigit

/-- Drops one newline at the end. -/
def dropFinalNewline (chars : List Char) : List Char :=
  if chars.getLast? == some '\n' then chars.dropLast else chars

/-- Whether a name needs no quotation marks. The names of the built-in sorts do need them, and
one newline may end a plain name. -/
def isPlainName (name : String) : Bool :=
  match name.toList with
  | [] => false
  | c :: rest =>
    startsName c && (dropFinalNewline rest).all continuesName
      && !(["Int", "Real", "Bool"].contains name)

/-- Puts a backslash before each mark and each backslash. -/
def protect (mark : Char) : List Char → List Char
  | [] => []
  | c :: rest =>
    if c = mark || c = '\\' then '\\' :: c :: protect mark rest else c :: protect mark rest

/-- A name as it is printed, between the given marks if it is not plain. -/
def printedName (mark : Char) (name : String) : String :=
  if isPlainName name then name
  else String.ofList (mark :: protect mark name.toList ++ [mark])

end SmtScript
