/-!
Control sequences of terminals.

A control sequence is an escape character and an opening bracket, then any number of parameter
characters, then any number of intermediate characters, and one final character. It shows nothing.
-/

namespace SmtScript

namespace Control

/-- The characters from one to another. -/
def isBetween (first last c : Char) : Bool :=
  first ≤ c && c ≤ last

def isParameter (c : Char) : Bool := isBetween '0' '?' c

def isIntermediate (c : Char) : Bool := isBetween ' ' '/' c

def isFinal (c : Char) : Bool := isBetween '@' '~' c

/-- What follows the control sequence at the start of a text, if there is one. -/
def rest? : List Char → Option (List Char)
  | '\x1b' :: '[' :: chars =>
    match (chars.dropWhile isParameter).dropWhile isIntermediate with
    | c :: rest => if isFinal c then some rest else none
    | [] => none
  | _ => none

/-- A control sequence is not empty. -/
theorem length_lt_of_rest {chars rest : List Char} (h : rest? chars = some rest) :
    rest.length < chars.length := by
  unfold rest? at h
  split at h
  · rename_i chars
    have first := (List.dropWhile_suffix isParameter (l := chars)).length_le
    have second :=
      (List.dropWhile_suffix isIntermediate (l := chars.dropWhile isParameter)).length_le
    split at h
    · rename_i shape
      rw [shape] at second
      split at h
      · cases h
        simp only [List.length_cons] at second ⊢
        omega
      · cases h
    · cases h
  · cases h

/-- A text without its control sequences. What is left is not looked through again. -/
def erase (chars : List Char) : List Char :=
  match chars with
  | [] => []
  | c :: later =>
    match _h : rest? (c :: later) with
    | some rest => erase rest
    | none => c :: erase later
termination_by chars.length
decreasing_by
  · exact length_lt_of_rest ‹_›
  · exact Nat.lt_succ_self _

end Control

/-- A text as a reader without a terminal gets it. -/
def withoutControls (text : String) : String :=
  String.ofList (Control.erase text.toList)

end SmtScript
