import SmtScript.Solver.Context
import SmtScript.Translate

/-!
Integer parts.

Each `to_int` of a script is replaced by a symbol that stands for the integer part of a Real term.
The operand of such a symbol mentions only symbols made before it. A formula with such symbols
says what it should only together with the constraints that tie each of them to its operand.
-/

namespace SmtScript

/-- A step that asks a model and may make symbols and substitute. The model may have been
released. -/
abbrev PartStep (μ α : Type) := ExceptT Error (StateM (Option μ × TermState)) α

/-- Asks a model; of the symbols, only the table may change. -/
def PartStep.ofModel {μ α : Type} (step : ModelStep μ α) : PartStep μ α :=
  ExceptT.mk do
    let (model, terms) ← get
    let (result, model, table) := step.run (model, terms.table)
    set (model, { terms with table })
    return result

/-- Symbols with the Real terms that they are the integer parts of, newest first. -/
abbrev IntegerParts := List (Symbol × Term)

/-- What ties a symbol to its operand: `k ≤ x` and `x < k + 1`. -/
def integerPartConstraint (symbol : Symbol) (operand : Term) : Term :=
  let lower : Term := .toReal (.symbol symbol)
  .and [.order .le lower operand, .order .lt operand (.arith .add lower (.real 1))]

namespace IntegerParts

/-- The integer parts that a term mentions. -/
def mentionedIn (parts : IntegerParts) (t : Term) : IntegerParts :=
  parts.filter fun (symbol, _) => t.symbols.contains symbol

/-- The integer parts that a term does not mention. -/
def notMentionedIn (parts : IntegerParts) (t : Term) : IntegerParts :=
  parts.filter fun (symbol, _) => !t.symbols.contains symbol

/-- An integer part is either mentioned in a term or not. -/
theorem length_mentionedIn_add (parts : IntegerParts) (t : Term) :
    (parts.mentionedIn t).length + (parts.notMentionedIn t).length = parts.length := by
  induction parts with
  | nil => rfl
  | cons part rest ih =>
    simp only [mentionedIn, notMentionedIn, List.filter_cons, List.length_cons] at ih ⊢
    cases t.symbols.contains part.1
    · simp only [Bool.false_eq_true, ↓reduceIte, Bool.not_false, List.length_cons]
      omega
    · simp only [↓reduceIte, Bool.not_true, Bool.false_eq_true, List.length_cons]
      omega

/-- The integer parts that occur in pending terms, among those not met before. The operands of the
ones that a term mentions are looked at before the terms that are left. -/
def metIn (parts : IntegerParts) : List Term → IntegerParts
  | [] => []
  | t :: pending =>
    let met := parts.mentionedIn t
    met ++ metIn (parts.notMentionedIn t) ((met.map Prod.snd).reverse ++ pending)
termination_by pending => parts.length + pending.length
decreasing_by
  have := parts.length_mentionedIn_add t
  simp only [List.length_append, List.length_reverse, List.length_map, List.length_cons]
  omega

/-- The integer parts that occur in some terms, directly or through operands of others. Those of
the last term come first; those of one term come in the order in which they were made. -/
def reachable (parts : IntegerParts) (ts : List Term) : IntegerParts :=
  metIn parts.reverse ts.reverse

/-- The constraint of an integer part, built again where the operand asks for it. -/
def constraints (parts : IntegerParts) : List Term :=
  parts.map fun (symbol, operand) => integerPartConstraint symbol operand

/-- The value of a term without its fraction. -/
def floorOf : Term → Option Int
  | .int value => some value
  | .real value => some value.floor
  | _ => none

variable {σ μ : Type} [Solver σ μ]

/-- Asks the model for the value of a term. -/
def evaluate (t : Term) : PartStep μ Term :=
  .ofModel (Model.evaluate (σ := σ) t)

/-- Replaces symbols in a term. -/
def substitute (known : Substitution) (t : Term) : PartStep μ Term := do
  let (model, terms) ← get
  let (result, leftover) := t.substituteOver known terms.leftover
  set (model, { terms with leftover })
  match result with
  | .ok t => return t
  | .error _ => throw .defect

/-- Values of integer parts in a model, computed from the operands and not from the symbols, one
after the other and next to values that are known already. -/
def floors : IntegerParts → Substitution → PartStep μ Substitution
  | [], known => return known
  | (symbol, operand) :: newer, known => do
    let operand ← substitute known operand
    match floorOf (← evaluate (σ := σ) operand) with
    | none => throw .defect
    | some value => floors newer ((symbol, .int value) :: known)

/-- Finds the value of an integer part, unless it is known, after those of the integer parts in its
operand, which `inner` finds. -/
def valueOf (inner : Term → Substitution → PartStep μ Substitution) (part : Symbol × Term)
    (known : Substitution) : PartStep μ Substitution := do
  if (known.map Prod.fst).contains part.1 then return known
  floors (σ := σ) [part] (← inner part.2 known)

/-- Finds the values of the integer parts that a term mentions, the oldest one first. The parts are
given newest first; those in the operand of one of them are older than it. -/
def valuesIn : IntegerParts → Term → Substitution → PartStep μ Substitution
  | [], _, known => return known
  | part :: older, t, known => do
    let known ← valuesIn older t known
    if t.symbols.contains part.1 then valueOf (σ := σ) (valuesIn older) part known
    else return known

/-- Puts the floor of its operand in the place of each integer part of a term. -/
def resolve (t : Term) : PartStep μ Term := do
  let parts : IntegerParts := (← get).2.integerParts
  if (parts.mentionedIn t).isEmpty then return t
  substitute (← valuesIn (σ := σ) parts t []) t

end IntegerParts

end SmtScript
