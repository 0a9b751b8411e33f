import SmtScript.Error

/-!
Items grouped by scope level.

There is always a base level. New items go to the top level; popping takes the top level away with
all its items, and the base level cannot be popped.
-/

namespace SmtScript

/-- Levels of items, the top one apart from those below it. Each level lists its items newest
first, and the levels below are listed from the top down. -/
structure Levels (α : Type) where
  top : List α
  below : List (List α)
  deriving Repr, DecidableEq

namespace Levels

variable {α : Type}

def empty : Levels α := ⟨[], []⟩

instance : Inhabited (Levels α) := ⟨empty⟩

/-- The number of levels. -/
def depth (levels : Levels α) : Nat := levels.below.length + 1

/-- The items of each level, base level first, in the order in which they were added. -/
def toList (levels : Levels α) : List (List α) :=
  (levels.top :: levels.below).reverse.map List.reverse

/-- All items, base level first, in the order in which they were added. -/
def items (levels : Levels α) : List α := levels.toList.flatten

/-- The number of items. -/
def size (levels : Levels α) : Nat := levels.items.length

def contains [BEq α] (levels : Levels α) (item : α) : Bool :=
  levels.top.contains item || levels.below.any (·.contains item)

def add (levels : Levels α) (item : α) : Levels α :=
  { levels with top := item :: levels.top }

def push (levels : Levels α) : Levels α :=
  ⟨[], levels.top :: levels.below⟩

/-- Opens several levels. -/
def pushMany (levels : Levels α) : Nat → Levels α
  | 0 => levels
  | n + 1 => (levels.pushMany n).push

/-- Takes the top level away, with its items in the order in which they were added. -/
def pop? (levels : Levels α) : Option (List α × Levels α) :=
  match levels.below with
  | [] => none
  | next :: rest => some (levels.top.reverse, ⟨next, rest⟩)

/-- Takes the top level away; the base level cannot be taken. -/
def pop (levels : Levels α) : Except Error (List α × Levels α) :=
  match levels.pop? with
  | some result => .ok result
  | none => .error .popBaseLevel

/-- Takes several levels away, as far as there are any above the base. -/
def popMany (levels : Levels α) : Nat → Levels α
  | 0 => levels
  | n + 1 =>
    match levels.pop? with
    | some (_, rest) => rest.popMany n
    | none => levels

@[simp] theorem depth_empty : (empty : Levels α).depth = 1 := rfl

@[simp] theorem depth_add (levels : Levels α) (item : α) :
    (levels.add item).depth = levels.depth := rfl

@[simp] theorem depth_push (levels : Levels α) : levels.push.depth = levels.depth + 1 := rfl

@[simp] theorem depth_pushMany (levels : Levels α) (n : Nat) :
    (levels.pushMany n).depth = levels.depth + n := by
  induction n with
  | zero => rfl
  | succ n ih => simp [pushMany, ih]; omega

@[simp] theorem toList_add (levels : Levels α) (item : α) :
    (levels.add item).toList =
      levels.toList.dropLast ++ [levels.top.reverse ++ [item]] := by
  simp [add, toList]

@[simp] theorem toList_push (levels : Levels α) :
    levels.push.toList = levels.toList ++ [[]] := by
  simp [push, toList]

@[simp] theorem items_empty : (empty : Levels α).items = [] := rfl

@[simp] theorem items_push (levels : Levels α) : levels.push.items = levels.items := by
  simp [items]

@[simp] theorem items_add (levels : Levels α) (item : α) :
    (levels.add item).items = levels.items ++ [item] := by
  simp [items, add, toList]

/-- Popping undoes a push, whatever was added in between. -/
theorem pop?_push (levels : Levels α) : levels.push.pop? = some ([], levels) := rfl

end Levels

end SmtScript
