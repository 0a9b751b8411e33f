import SmtScript.Term.Basic

/-!
Roots and operands.

A term is its root and its operands, `eq_of_root_of_operands`, and the operands are smaller than
the term. Functions that treat all kinds of node alike, such as the equality test and the hash of
this module, go by roots and operands.
-/

namespace SmtScript

namespace Term

/-- What is left of a term without its operands. -/
inductive Root where
  | bool (value : Bool)
  | int (value : Int)
  | real (value : Rat)
  | bitVec (width : Nat) (value : BitVec width)
  | symbol (symbol : Symbol)
  | apply (function : Symbol)
  | not | and | or | implies | iff | equal | ite
  | arith (op : ArithOp)
  | order (op : NumOrder)
  | toReal | select | store
  | constArray (index : SmtSort)
  | bitUnary (op : BitUnary)
  | bitOp (op : BitOp)
  | bitOrder (op : BitOrder)
  | bitEqual | concat
  | extract (high low : Nat)
  | rotate (side : Side) (step : Nat)
  | widen (bits : Widening) (extra : Nat)
  | quantified (quantifier : Quantifier) (bound : List Symbol)
  deriving DecidableEq, Repr, Inhabited, Hashable

/-- The root of a term. -/
def root : Term → Root
  | .bool value => .bool value
  | .int value => .int value
  | .real value => .real value
  | .bitVec width value => .bitVec width value
  | .symbol s => .symbol s
  | .apply f _ => .apply f
  | .not _ => .not
  | .and _ => .and
  | .or _ => .or
  | .implies _ _ => .implies
  | .iff _ _ => .iff
  | .equal _ _ => .equal
  | .ite _ _ _ => .ite
  | .arith op _ _ => .arith op
  | .order op _ _ => .order op
  | .toReal _ => .toReal
  | .select _ _ => .select
  | .store _ _ _ => .store
  | .constArray index _ => .constArray index
  | .bitUnary op _ => .bitUnary op
  | .bitOp op _ _ => .bitOp op
  | .bitOrder op _ _ => .bitOrder op
  | .bitEqual _ _ => .bitEqual
  | .concat _ _ => .concat
  | .extract high low _ => .extract high low
  | .rotate side step _ => .rotate side step
  | .widen bits extra _ => .widen bits extra
  | .quantified q bound _ => .quantified q bound

/-- The operands of the root of a term. The body is the operand of a quantifier. -/
def operands : Term → List Term
  | .bool _ | .int _ | .real _ | .bitVec _ _ | .symbol _ => []
  | .apply _ ts | .and ts | .or ts => ts
  | .not a | .toReal a | .constArray _ a | .bitUnary _ a | .extract _ _ a | .rotate _ _ a
  | .widen _ _ a | .quantified _ _ a => [a]
  | .implies a b | .iff a b | .equal a b | .arith _ a b | .order _ a b | .select a b
  | .bitOp _ a b | .bitOrder _ a b | .bitEqual a b | .concat a b => [a, b]
  | .ite a b c | .store a b c => [a, b, c]

/-- The term with a root and operands, if their number is right. -/
def ofRoot? : Root → List Term → Option Term
  | .bool value, [] => some (.bool value)
  | .int value, [] => some (.int value)
  | .real value, [] => some (.real value)
  | .bitVec width value, [] => some (.bitVec width value)
  | .symbol s, [] => some (.symbol s)
  | .apply f, ts => some (.apply f ts)
  | .not, [a] => some (.not a)
  | .and, ts => some (.and ts)
  | .or, ts => some (.or ts)
  | .implies, [a, b] => some (.implies a b)
  | .iff, [a, b] => some (.iff a b)
  | .equal, [a, b] => some (.equal a b)
  | .ite, [a, b, c] => some (.ite a b c)
  | .arith op, [a, b] => some (.arith op a b)
  | .order op, [a, b] => some (.order op a b)
  | .toReal, [a] => some (.toReal a)
  | .select, [a, b] => some (.select a b)
  | .store, [a, b, c] => some (.store a b c)
  | .constArray index, [a] => some (.constArray index a)
  | .bitUnary op, [a] => some (.bitUnary op a)
  | .bitOp op, [a, b] => some (.bitOp op a b)
  | .bitOrder op, [a, b] => some (.bitOrder op a b)
  | .bitEqual, [a, b] => some (.bitEqual a b)
  | .concat, [a, b] => some (.concat a b)
  | .extract high low, [a] => some (.extract high low a)
  | .rotate side step, [a] => some (.rotate side step a)
  | .widen bits extra, [a] => some (.widen bits extra a)
  | .quantified q bound, [a] => some (.quantified q bound a)
  | _, _ => none

@[simp] theorem ofRoot?_root_operands (t : Term) : ofRoot? t.root t.operands = some t := by
  cases t <;> rfl

/-- A term is its root and its operands. -/
theorem eq_of_root_of_operands {s t : Term} (hr : s.root = t.root)
    (ho : s.operands = t.operands) : s = t := by
  have h := ofRoot?_root_operands s
  rw [hr, ho, ofRoot?_root_operands] at h
  exact (Option.some.inj h).symm

/-- The size of several terms together. -/
noncomputable def totalSize : List Term → Nat
  | [] => 0
  | t :: rest => sizeOf t + totalSize rest

theorem totalSize_le_sizeOf (ts : List Term) : totalSize ts ≤ sizeOf ts := by
  induction ts with
  | nil => simp [totalSize]
  | cons t rest ih => simp [totalSize]; omega

theorem totalSize_operands_lt (t : Term) : totalSize t.operands < sizeOf t := by
  cases t <;> simp [operands, totalSize]
  case apply f ts => have := totalSize_le_sizeOf ts; omega
  case and ts => have := totalSize_le_sizeOf ts; omega
  case or ts => have := totalSize_le_sizeOf ts; omega
  all_goals omega

theorem sizeOf_pos (t : Term) : 0 < sizeOf t := by
  have := totalSize_operands_lt t
  omega

mutual

/-- Whether two terms are equal. -/
def decEq (s t : Term) : Decidable (s = t) :=
  withPtrEqDecEq s t fun _ =>
    if hr : s.root = t.root then
      match decEqAll s.operands t.operands with
      | .isTrue ho => .isTrue (eq_of_root_of_operands hr ho)
      | .isFalse ho => .isFalse fun h => ho (h ▸ rfl)
    else .isFalse fun h => hr (h ▸ rfl)
termination_by (sizeOf s, 0)
decreasing_by exact .left _ _ (totalSize_operands_lt s)

/-- Whether two lists of terms are equal. -/
def decEqAll : (ss ts : List Term) → Decidable (ss = ts)
  | [], [] => .isTrue rfl
  | [], _ :: _ => .isFalse nofun
  | _ :: _, [] => .isFalse nofun
  | s :: ss, t :: ts =>
    match decEq s t with
    | .isTrue h =>
      match decEqAll ss ts with
      | .isTrue hs => .isTrue (h ▸ hs ▸ rfl)
      | .isFalse hs => .isFalse fun h' => hs (List.cons.inj h').2
    | .isFalse h => .isFalse fun h' => h (List.cons.inj h').1
termination_by ss => (totalSize ss, ss.length)
decreasing_by
  all_goals simp [totalSize, Prod.lex_def]
  all_goals have := sizeOf_pos s; omega

end

instance : DecidableEq Term := decEq

/-- A hash that looks at the given number of levels of a term. -/
def hashWithin : Nat → Term → UInt64
  | 0, _ => 0
  | levels + 1, t => mixHash (hash t.root) (hash (t.operands.map (hashWithin levels)))

/-- The hash of a term is taken from its upper levels only, so that large terms are no more
trouble than small ones. -/
instance : Hashable Term where
  hash := hashWithin 3

end Term

end SmtScript
