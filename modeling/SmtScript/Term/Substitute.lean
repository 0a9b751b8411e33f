import SmtScript.Term.Build
import SmtScript.Term.Fold
import SmtScript.Term.Walk

/-!
Substitution of terms for symbols.

All symbols are replaced at once, and every node above a replaced symbol is built again, so that
the result is simplified and checked like a term built from scratch. The operands of a node are
built from the last to the first. Bound variables have names of their own throughout a session,
so a substituted term cannot be captured.

A substitution that fails is broken off, and what is left of it stands in the way of the next one:
see `Walk` and `Term.substituteOver`.
-/

namespace SmtScript

/-- What to put in the place of symbols. -/
abbrev Substitution := List (Symbol × Term)

namespace Term

mutual

/-- Replaces symbols in a term and builds it again. -/
def substitute (σ : Substitution) : Term → Except Fault Term
  | .bool value => .ok (.bool value)
  | .int value => .ok (.int value)
  | .real value => .ok (.real value)
  | .bitVec width value => .ok (.bitVec width value)
  | .symbol s => .ok ((σ.lookup s).getD (.symbol s))
  | .apply f args => do mkApply f (← substituteAll σ args)
  | .not a => do mkNot (← a.substitute σ)
  | .and ts => do mkAnd (← substituteAll σ ts)
  | .or ts => do mkOr (← substituteAll σ ts)
  | .implies a b => do
    let b ← b.substitute σ
    mkImplies (← a.substitute σ) b
  | .iff a b => do
    let b ← b.substitute σ
    mkIff (← a.substitute σ) b
  | .equal a b => do
    let b ← b.substitute σ
    checked (.equal (← a.substitute σ) b)
  | .ite c a b => do
    let b ← b.substitute σ
    let a ← a.substitute σ
    mkIte (← c.substitute σ) a b
  | .arith op a b => do
    let b ← b.substitute σ
    mkArith op (← a.substitute σ) b
  | .order op a b => do
    let b ← b.substitute σ
    mkOrder op (← a.substitute σ) b
  | .toReal a => do mkToReal (← a.substitute σ)
  | .select a i => do
    let i ← i.substitute σ
    mkSelect (← a.substitute σ) i
  | .store a i v => do
    let v ← v.substitute σ
    let i ← i.substitute σ
    mkStore (← a.substitute σ) i v
  | .constArray index v => do mkConstArray index (← v.substitute σ)
  | .bitUnary op a => do mkBitUnary op (← a.substitute σ)
  | .bitOp op a b => do
    let b ← b.substitute σ
    mkBitOp op (← a.substitute σ) b
  | .bitOrder op a b => do
    let b ← b.substitute σ
    mkBitOrder op (← a.substitute σ) b
  | .bitEqual a b => do
    let b ← b.substitute σ
    mkBitEqual (← a.substitute σ) b
  | .concat a b => do
    let b ← b.substitute σ
    mkConcat (← a.substitute σ) b
  | .extract high low a => do mkExtract high low (← a.substitute σ)
  | .rotate side step a => do mkRotate side step (← a.substitute σ)
  | .widen bits extra a => do mkWiden bits extra (← a.substitute σ)
  | .quantified q bound a => do mkQuantified q bound (← a.substitute σ)

/-- Replaces symbols in several terms, the last one first. -/
def substituteAll (σ : Substitution) : List Term → Except Fault (List Term)
  | [] => .ok []
  | t :: rest => do
    let rest ← substituteAll σ rest
    return (← t.substitute σ) :: rest

end

/-- Builds a term again from new operands. -/
def rebuild : Root → List Term → Except Fault Term
  | .bool value, _ => .ok (.bool value)
  | .int value, _ => .ok (.int value)
  | .real value, _ => .ok (.real value)
  | .bitVec width value, _ => .ok (.bitVec width value)
  | .symbol s, _ => .ok (.symbol s)
  | .apply f, ts => mkApply f ts
  | .not, [a] => mkNot a
  | .and, ts => mkAnd ts
  | .or, ts => mkOr ts
  | .implies, [a, b] => mkImplies a b
  | .iff, [a, b] => mkIff a b
  | .equal, [a, b] => checked (.equal a b)
  | .ite, [c, a, b] => mkIte c a b
  | .arith op, [a, b] => mkArith op a b
  | .order op, [a, b] => mkOrder op a b
  | .toReal, [a] => mkToReal a
  | .select, [a, i] => mkSelect a i
  | .store, [a, i, v] => mkStore a i v
  | .constArray index, [v] => mkConstArray index v
  | .bitUnary op, [a] => mkBitUnary op a
  | .bitOp op, [a, b] => mkBitOp op a b
  | .bitOrder op, [a, b] => mkBitOrder op a b
  | .bitEqual, [a, b] => mkBitEqual a b
  | .concat, [a, b] => mkConcat a b
  | .extract high low, [a] => mkExtract high low a
  | .rotate side step, [a] => mkRotate side step a
  | .widen bits extra, [a] => mkWiden bits extra a
  | .quantified q bound, [a] => mkQuantified q bound a
  | _, _ => .error .broken

/-- The results of several steps, of which the last one is looked at first. -/
def collect {α : Type} : List (Except Fault α) → Except Fault (List α)
  | [] => .ok []
  | first :: rest => do
    let rest ← collect rest
    return (← first) :: rest

/-- Substitution from the results at the operands. -/
def substituteFold (σ : Substitution) : Fold (Except Fault Term) where
  value := substitute σ
  combine t results :=
    match t with
    | .symbol s => .ok ((σ.lookup s).getD (.symbol s))
    | t => do rebuild t.root (← collect results)
  value_eq t := by
    have hall (ts : List Term) : substituteAll σ ts = collect (ts.map (substitute σ)) := by
      induction ts with
      | nil => rfl
      | cons t rest ih => simp [substituteAll, collect, ih]
    have hbind {a : List Term} {f : List Term → Except Fault Term} :
        (Except.ok a >>= f) = f a := rfl
    have hbind' {a : List Term} {f : List Term → Except Fault (List Term)} :
        (Except.ok a >>= f) = f a := rfl
    cases t <;> simp [substitute, operands, root, rebuild, collect, hall, hbind, hbind']

/-- Replaces symbols in a term in the time that its distinct parts take. -/
def substituted (σ : Substitution) (t : Term) : Except Fault Term :=
  (substituteFold σ).run t

theorem substituted_eq (σ : Substitution) (t : Term) : t.substituted σ = t.substitute σ :=
  (substituteFold σ).run_eq t

/-- Whether a term is the bare symbol of a function. -/
def bareFunction? : Term → Option Symbol
  | .symbol s => if s.sort.isFunction then some s else none
  | _ => none

/-- What a substitution that failed leaves behind. -/
abbrev Leftover := Option (Walk Term)

/-- Substitution as a walk. A quantifier is dealt with as a whole. -/
def substitutionTask (σ : Substitution) : Walk.Task Term where
  opens
    | .quantified _ _ _ => false
    | _ => true
  compute
    | .symbol s, _ => .ok ((σ.lookup s).getD (.symbol s))
    | .quantified q bound a, _ => (Term.quantified q bound a).substituted σ
    | t, operands => rebuild t.root operands

/-- Replaces symbols in a term. A substitution that fails leaves something behind, which has to be
finished after the next one and may make it fail. -/
def substituteOver (σ : Substitution) (t : Term) (leftover : Leftover) :
    Except Fault Term × Leftover :=
  match leftover with
  | none =>
    match t.substituted σ with
    | .ok t => (.ok t, none)
    | .error f => (.error f, some (Walk.empty.visit (substitutionTask σ) t).2)
  | some walk =>
    match walk.visit (substitutionTask σ) t with
    | (.ok result, left) => (.ok result, if walk.known.contains t then some left else none)
    | (.error f, left) => (.error f, some left)

/-- Nothing is left behind by a substitution that succeeds. -/
theorem substituteOver_none {σ : Substitution} {t t' : Term} (h : t.substitute σ = .ok t') :
    t.substituteOver σ none = (.ok t', none) := by
  simp [substituteOver, substituted_eq, h]

/-- Replaces symbols in a term. A function cannot be put in the place of a symbol. -/
def instantiate (σ : Substitution) (t : Term) (leftover : Leftover) :
    Except Fault Term × Leftover :=
  match σ.findSome? fun (_, replacement) => replacement.bareFunction? with
  | some f => (.error (.notATerm f), leftover)
  | none => t.substituteOver σ leftover

end Term

end SmtScript
