import Std.Data.HashMap
import SmtScript.Fault
import SmtScript.Term.Root

/-!
Walks that can be broken off.

A walk computes something for a term from what it computed for its operands, the last operand
first, and remembers what it computed. What is left to do stands on a stack. When a step fails the
walk is broken off there: the stack and what is known stay, and the next term is put on top of
what is left. So a later walk can fail for a reason that an earlier term gave.
-/

namespace SmtScript

/-- What a broken walk leaves behind. -/
structure Walk (α : Type) where
  /-- Terms to go on with, and whether their operands have been put on the stack already. -/
  pending : List (Term × Bool)
  known : Std.HashMap Term α
  deriving Inhabited

/-- What is computed by a walk. -/
structure Walk.Task (α : Type) where
  /-- Whether the operands of a term are walked to before the term itself. -/
  opens : Term → Bool
  compute : Term → List α → Except Fault α

namespace Walk

variable {α : Type}

def empty : Walk α := ⟨[], ∅⟩

/-- The operands that come before a term. -/
def Task.operands (task : Task α) (t : Term) : List Term :=
  if task.opens t then t.operands else []

/-- The weight of a stack, which each step makes lighter. -/
noncomputable def weight : List (Term × Bool) → Nat
  | [] => 0
  | (t, expanded) :: rest => (if expanded then 1 else 2 * sizeOf t) + weight rest

theorem weight_append (as bs : List (Term × Bool)) :
    weight (as ++ bs) = weight as + weight bs := by
  induction as with
  | nil => simp [weight]
  | cons a rest ih => obtain ⟨t, b⟩ := a; simp [weight, ih]; omega

theorem weight_fresh (ts : List Term) (keep : Term → Bool) :
    weight ((ts.filter keep).reverse.map (·, false)) ≤ 2 * Term.totalSize ts := by
  induction ts with
  | nil => simp [weight, Term.totalSize]
  | cons t rest ih =>
    by_cases h : keep t
    · simp [h, Term.totalSize, weight_append, weight] at ih ⊢; omega
    · simp [h, Term.totalSize] at ih ⊢; omega

theorem totalSize_task_operands_lt (task : Task α) (t : Term) :
    Term.totalSize (task.operands t) < sizeOf t := by
  unfold Task.operands
  split
  · exact Term.totalSize_operands_lt t
  · simpa [Term.totalSize] using Term.sizeOf_pos t

/-- Goes on until the stack is empty or a step fails. -/
def process (task : Task α) :
    List (Term × Bool) → Std.HashMap Term α → Except Fault Unit × Walk α
  | [], known => (.ok (), ⟨[], known⟩)
  | (t, false) :: rest, known =>
    let fresh := (task.operands t).filter fun operand => !known.contains operand
    process task (fresh.reverse.map (·, false) ++ (t, true) :: rest) known
  | (t, true) :: rest, known =>
    if known.contains t then process task rest known
    else match (task.operands t).mapM fun operand => known[operand]? with
      | none => (.error .broken, ⟨rest, known⟩)
      | some operands =>
        match task.compute t operands with
        | .error f => (.error f, ⟨rest, known⟩)
        | .ok a => process task rest (known.insert t a)
termination_by pending => weight pending
decreasing_by
  · have h := weight_fresh (task.operands t) fun operand => !known.contains operand
    have h' := totalSize_task_operands_lt task t
    simp only [weight_append, weight] at *
    simp at *
    omega
  · simp [weight]
  · simp [weight]

/-- Computes something for a term. A term that is known is not walked to. -/
def visit (task : Task α) (t : Term) (walk : Walk α) : Except Fault α × Walk α :=
  match walk.known[t]? with
  | some a => (.ok a, walk)
  | none =>
    match process task ((t, false) :: walk.pending) walk.known with
    | (.error f, walk) => (.error f, walk)
    | (.ok (), walk) =>
      match walk.known[t]? with
      | some a => (.ok a, walk)
      | none => (.error .broken, walk)

end Walk

end SmtScript
