import SmtScript.Term.Fold
import SmtScript.Term.Walk

/-!
Conversion of terms.

Before the engine takes a term, it converts the term to a form of its own, part by part. The bare
symbol of a function has no such form, nor has a symbol whose sort has no name. A conversion that
fails is broken off, and what is left of it stands in the way of later ones: see `Walk`.
-/

namespace SmtScript

namespace Term

/-- Whether the root of a term can be converted once its operands are. -/
def rootConverts : Term → Bool
  | .symbol s => !s.sort.isFunction && s.sort.isNamed
  | .apply f _ => f.sort.isNamed
  | .quantified _ bound _ => bound.all fun s => s.sort.isNamed
  | _ => true

mutual

/-- Whether a term can be converted with all its parts. -/
def converts : Term → Bool
  | .bool _ | .int _ | .real _ | .bitVec _ _ => true
  | .symbol s => rootConverts (.symbol s)
  | .apply f args => rootConverts (.apply f args) && allConvert args
  | .and ts | .or ts => allConvert ts
  | .not a | .toReal a | .bitUnary _ a | .extract _ _ a | .rotate _ _ a | .widen _ _ a
  | .constArray _ a => a.converts
  | .quantified q bound a => rootConverts (.quantified q bound a) && a.converts
  | .implies a b | .iff a b | .equal a b | .arith _ a b | .order _ a b | .select a b
  | .bitOp _ a b | .bitOrder _ a b | .bitEqual a b | .concat a b => a.converts && b.converts
  | .ite a b c | .store a b c => a.converts && (b.converts && c.converts)

/-- Whether several terms can be converted with all their parts. -/
def allConvert : List Term → Bool
  | [] => true
  | t :: rest => t.converts && allConvert rest

end

/-- Whether a term can be converted, from whether its operands can. -/
def convertsFold : Fold Bool where
  value := converts
  combine t operands := t.rootConverts && operands.all id
  value_eq t := by
    have hall (ts : List Term) : allConvert ts = (ts.map converts).all id := by
      induction ts with
      | nil => rfl
      | cons t rest ih => simp [allConvert, ih]
    cases t <;> simp [converts, rootConverts, operands, hall]

end Term

namespace Engine

structure Conversion where
  /-- Terms that have been converted. -/
  converted : List Term
  /-- What stands in the way, if a conversion has failed. -/
  broken : Option (Walk Unit)
  deriving Inhabited

namespace Conversion

def start : Conversion := ⟨[], none⟩

/-- Converting a term computes nothing that matters here but whether it succeeds. -/
def task : Walk.Task Unit where
  opens _ := true
  compute t _ := if t.rootConverts then .ok () else .error .broken

/-- A walk that has converted some terms. -/
def walked (ts : List Term) : Walk Unit :=
  (Walk.process task (ts.map (·, false)) ∅).2

/-- Converts a term. -/
def convert (t : Term) (conversion : Conversion) : Except Fault Unit × Conversion :=
  match conversion.broken with
  | some walk =>
    let (result, walk) := walk.visit task t
    (result, { conversion with broken := some walk })
  | none =>
    if Term.convertsFold.run t then
      (.ok (), { conversion with converted := t :: conversion.converted })
    else
      let (converted, t) := ShareCommon.shareCommon' (conversion.converted, t)
      let (result, walk) := (walked converted).visit task t
      (result, { conversion with broken := some walk })

end Conversion

end Engine

end SmtScript
