/-!
Formats for names that end in a number.

In a format `%d` asks for the number and `%%` stands for a percent sign, so a name that is put into
a format has its percent signs doubled.
-/

namespace SmtScript

/-- What a format becomes once its number, of which the digits are given, is filled in. A format
that asks for something else, for more or for nothing cannot be filled in. -/
def fillFormat : Option (List Char) → List Char → Option (List Char)
  | none, [] => some []
  | some _, [] => none
  | digits, '%' :: '%' :: rest => (fillFormat digits rest).map ('%' :: ·)
  | some digits, '%' :: 'd' :: rest => (fillFormat none rest).map (digits ++ ·)
  | _, '%' :: _ => none
  | digits, c :: rest => (fillFormat digits rest).map (c :: ·)

/-- Doubles percent signs. -/
def escapePercent : List Char → List Char
  | [] => []
  | '%' :: rest => '%' :: '%' :: escapePercent rest
  | c :: rest => c :: escapePercent rest

/-- What has been escaped is taken as it was. -/
theorem fillFormat_escapePercent (digits chars rest : List Char) :
    fillFormat (some digits) (escapePercent chars ++ rest) =
      (fillFormat (some digits) rest).map (chars ++ ·) := by
  induction chars with
  | nil => simp [escapePercent]
  | cons c chars ih =>
    by_cases hc : c = '%'
    · subst hc
      simp [escapePercent, fillFormat, ih, Function.comp_def]
    · simp [escapePercent, fillFormat, ih, hc, Function.comp_def]

/-- A format for names. Whatever the number, it can be filled in. -/
structure Template where
  format : List Char
  fills : ∀ digits, (fillFormat (some digits) format).isSome = true

namespace Template

/-- The name with a number. -/
def fill (template : Template) (n : Nat) : String :=
  .ofList ((fillFormat (some (toString n).toList) template.format).get (template.fills _))

/-- A stem followed by the number. -/
def numbering (stem : String) : Template where
  format := escapePercent stem.toList ++ ['%', 'd']
  fills digits := by simp [fillFormat_escapePercent, fillFormat]

/-- Whatever characters the stem has, names consist of it and the number. -/
@[simp] theorem fill_numbering (stem : String) (n : Nat) :
    (numbering stem).fill n = stem ++ toString n := by
  have hfilled : fillFormat (some (toString n).toList) (numbering stem).format =
      some (stem ++ toString n).toList := by
    rw [numbering, fillFormat_escapePercent, fillFormat, fillFormat, String.toList_append]
    simp only [Option.map_some, List.append_nil]
  simp only [fill, hfilled, Option.get_some, String.ofList_toList]

end Template

end SmtScript
