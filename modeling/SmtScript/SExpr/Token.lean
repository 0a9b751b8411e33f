/-!
Tokens of a script.

`Lexer.step` is a transition system over single characters. Between tokens, blanks are skipped and
a semicolon starts a comment that runs to the end of the line. Parentheses are tokens of their
own. Text between bars is one token without the bars, in which a backslash protects a bar or
another backslash. A string literal is one token that keeps its quotes; it ends at the first
character after an odd quote that is not itself a quote. Any other run of characters is a word.

Each token carries the position reached when it was complete. A token that the text leaves
unfinished is dropped.
-/

namespace SmtScript

/-- A place in a text: the number of its line, and how many of that line's characters are read. -/
structure Position where
  line : Nat
  column : Nat
  deriving DecidableEq, Repr, Inhabited

namespace Position

/-- The start of a text. -/
def start : Position := ⟨1, 0⟩

/-- The position after one more character. -/
def advance (p : Position) (c : Char) : Position :=
  if c = '\n' then ⟨p.line + 1, 0⟩ else ⟨p.line, p.column + 1⟩

/-- The position after a run of characters. -/
def after (p : Position) (chars : List Char) : Position :=
  chars.foldl advance p

end Position

/-- A token, and how far the text was read when it was complete. -/
structure Token where
  text : String
  position : Position
  deriving DecidableEq, Repr

namespace Lexer

/-- What the characters read so far are the start of. Partial tokens are kept in reverse. -/
inductive Mode where
  | between
  | word (reversed : List Char)
  /-- After the opening bar. -/
  | quoted (reversed : List Char)
  /-- After a backslash between bars. -/
  | escape (reversed : List Char)
  /-- Inside a string literal; `odd` says whether the quotes read after the first are odd. -/
  | literal (reversed : List Char) (odd : Bool)
  | comment
  deriving DecidableEq, Repr

/-- The result of reading one character: completed tokens and the new mode. -/
inductive Step where
  | next (completed : List String) (mode : Mode)
  | badEscape
  deriving DecidableEq, Repr

/-- Characters that are skipped between tokens. -/
def isBlank (c : Char) : Bool :=
  c == ' ' || c == '\t' || c == '\n'

/-- Characters that end a word. -/
def endsWord (c : Char) : Bool :=
  isBlank c || c == '(' || c == ')' || c == '|' || c == '"' || c == ';'

/-- Reads a character between tokens. -/
def stepBetween (c : Char) : List String × Mode :=
  if isBlank c then ([], .between)
  else if c = '(' then (["("], .between)
  else if c = ')' then ([")"], .between)
  else if c = '|' then ([], .quoted [])
  else if c = '"' then ([], .literal ['"'] false)
  else if c = ';' then ([], .comment)
  else ([], .word [c])

/-- Completes a token with the given characters and reads the character that ended it. -/
def complete (reversed : List Char) (c : Char) : Step :=
  let (completed, mode) := stepBetween c
  .next (String.ofList reversed.reverse :: completed) mode

/-- Reads one character. -/
def step (mode : Mode) (c : Char) : Step :=
  match mode with
  | .between => let (completed, mode) := stepBetween c; .next completed mode
  | .word reversed => if endsWord c then complete reversed c else .next [] (.word (c :: reversed))
  | .quoted reversed =>
    if c = '|' then .next [String.ofList reversed.reverse] .between
    else if c = '\\' then .next [] (.escape reversed)
    else .next [] (.quoted (c :: reversed))
  | .escape reversed =>
    if c = '|' || c = '\\' then .next [] (.quoted (c :: reversed)) else .badEscape
  | .literal reversed odd =>
    if c = '"' then .next [] (.literal (c :: reversed) (!odd))
    else if odd then complete reversed c
    else .next [] (.literal (c :: reversed) odd)
  | .comment => .next [] (if c = '\n' then .between else .comment)

end Lexer

/-- The tokens of a text and how its reading ended. -/
structure Scan where
  tokens : List Token
  /-- Where the text ends, or nothing if a backslash between bars protects the wrong character. -/
  ending : Option Position
  deriving DecidableEq, Repr

/-- Reads characters from a mode and a position on. -/
def Lexer.scan (mode : Lexer.Mode) (position : Position) : List Char → Scan
  | [] => ⟨[], some position⟩
  | c :: rest =>
    let reached := position.advance c
    match Lexer.step mode c with
    | .badEscape => ⟨[], none⟩
    | .next completed mode' =>
      let later := Lexer.scan mode' reached rest
      ⟨completed.map (⟨·, reached⟩) ++ later.tokens, later.ending⟩

/-- Writes every line end as a single newline. -/
def unifyLineEnds : List Char → List Char
  | [] => []
  | '\r' :: '\n' :: rest => '\n' :: unifyLineEnds rest
  | c :: rest => (if c = '\r' then '\n' else c) :: unifyLineEnds rest

/-- The tokens of a text. A final newline is supplied, so that the last word is complete. -/
def Scan.ofText (text : String) : Scan :=
  Lexer.scan .between .start (unifyLineEnds text.toList ++ ['\n'])

end SmtScript
