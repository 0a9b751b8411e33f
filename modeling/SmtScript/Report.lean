import SmtScript.SExpr.Basic

/-!
Reports: the form in which errors reach the user.

A report has a kind and a message; some kinds add the S-expression at fault, a place in the script,
and, for what the solver reports, a code, a value, and terms with their sorts.
-/

namespace SmtScript

inductive ReportKind where
  /-- The kind that all others are kinds of. -/
  | general
  | malformed
  | unsupportedSort
  | unsupportedTerm
  | unrecognizedAtom
  | unboundName
  | logicAlreadySet
  | cannotPopBase
  | unsupportedFeature
  | wrongSort
  | wrongState
  | unknownAttribute
  | solver
  deriving DecidableEq, Repr

namespace ReportKind

/-- The wider kind that a kind belongs to. -/
def parent? : ReportKind → Option ReportKind
  | .general => none
  | .unsupportedSort | .unsupportedTerm | .unrecognizedAtom => some .malformed
  | _ => some .general

/-- A kind and the wider kinds it belongs to, up to the widest. -/
def lineage : ReportKind → List ReportKind
  | .general => [.general]
  | .unsupportedSort => [.unsupportedSort, .malformed, .general]
  | .unsupportedTerm => [.unsupportedTerm, .malformed, .general]
  | .unrecognizedAtom => [.unrecognizedAtom, .malformed, .general]
  | kind => [kind, .general]

/-- Each kind is followed by the one it belongs to. -/
theorem lineage_eq (kind : ReportKind) :
    kind.lineage = kind :: (kind.parent?.map lineage).getD [] := by
  cases kind <;> rfl

end ReportKind

structure Report where
  kind : ReportKind
  message : String
  sexpr : Option SExpr := none
  line : Option Int := none
  column : Option Int := none
  code : Option String := none
  badValue : Option String := none
  terms : List String := []
  /-- The sorts of the terms. A sort may have no name. -/
  types : List (Option String) := []
  deriving Repr

namespace Report

/-- The text for a number that may be missing. -/
def numberText (n : Option Int) : String :=
  (n.map toString).getD "None"

/-- Lines that number the given texts under a label. -/
def numbered (label : String) (texts : List String) : List String :=
  texts.zipIdx.map fun (text, i) => label ++ toString (i + 1) ++ ": " ++ text

/-- The message and the S-expression at fault. -/
def headline (r : Report) : String :=
  match r.sexpr with
  | none => r.message
  | some s => r.message ++ ": " ++ s.text

/-- The full text of a report whose sorts have names. -/
def textWith (r : Report) (types : List String) : String :=
  if r.kind.lineage.contains .malformed then
    match r.line with
    | none => r.headline
    | some line =>
      r.headline ++ " (line " ++ toString line ++ ", column " ++ numberText r.column ++ ")"
  else if r.kind = .solver then
    String.intercalate "\n" <|
      [r.headline]
      ++ (r.code.map ("code: " ++ ·)).toList
      ++ (r.badValue.map ("bad value: " ++ ·)).toList
      ++ (r.line.map fun line =>
          "line " ++ toString line ++ " column " ++ numberText r.column).toList
      ++ numbered "term" r.terms
      ++ numbered "type" types
  else r.headline

/-- The full text of a report. There is none if a sort in it has no name. -/
def text? (r : Report) : Option String :=
  (r.types.mapM id).map r.textWith

end Report

end SmtScript
