import Mathlib.Data.Rat.Floor
import SmtScript.Proofs.IntegerPart
import SmtScript.Proofs.Term.Meaning

/-!
Integer parts as floors.

`IntegerParts.read` gives each integer part the floor of the value of its operand. The constraints
of integer parts say the same: among the interpretations that differ in the values of integer parts
only, those that satisfy the constraints of what occurs in some terms read it as floors. So terms
hold when read with floors if and only if they hold together with the constraints in some such
interpretation, `IntegerParts.encodes`.
-/

namespace SmtScript

/-- The greatest integer below a real number. -/
def Value.floor : Value → Int
  | .real q => q.floor
  | _ => 0

namespace Interpretation

/-- Whether all terms are true. -/
def Satisfies (I : Interpretation) (ts : List Term) : Prop :=
  ∀ t ∈ ts, t.eval I = .bool true

variable {I J : Interpretation}

theorem agree_assign (I : Interpretation) (s : Symbol) (v : Value) :
    Agree (· ≠ s) I (I.assign s v) := by
  refine ⟨fun s' hs' => ?_, rfl, rfl⟩
  simp [Interpretation.assign, hs']

@[simp] theorem symbol_assign (I : Interpretation) (s : Symbol) (v : Value) :
    (I.assign s v).symbol s = v := by
  simp [Interpretation.assign]

/-- A term does not notice the value of a symbol that is not free in it. -/
theorem eval_assign_of_notMem {t : Term} {s : Symbol} (h : s ∉ t.freeSymbols) (v : Value) :
    t.eval (I.assign s v) = t.eval I := by
  refine Term.eval_congr ((agree_assign I s v).symm.mono ?_)
  rintro s' hs' rfl
  exact h hs'

end Interpretation

namespace IntegerParts

open Interpretation

variable {parts : IntegerParts} {ts fs : List Term} {p q : Symbol × Term}
  {I J : Interpretation}

/-! ### The constraint of one integer part -/

theorem eq_floor_iff {n : Int} {q : Rat} : ((n : Rat) ≤ q ∧ q < (n : Rat) + 1) ↔ n = q.floor := by
  constructor
  · rintro ⟨hle, hlt⟩
    have hlower : n ≤ q.floor := Rat.le_floor_iff.mpr hle
    have hupper : q.floor < n + 1 := Rat.floor_lt_iff.mpr (by push_cast; exact hlt)
    omega
  · rintro rfl
    exact ⟨Rat.floor_le q, sub_lt_iff_lt_add.mp Rat.lt_floor⟩

/-- The constraint says that the symbol is the floor of the operand. -/
theorem eval_integerPartConstraint {symbol : Symbol} {operand : Term} (hI : I.WellSorted)
    (hsymbol : symbol.sort = .int) (hoperand : operand.WellSorted) (hreal : operand.sort = .real) :
    (integerPartConstraint symbol operand).eval I = .bool true ↔
      I.symbol symbol = .int (operand.eval I).floor := by
  obtain ⟨n, hn⟩ := Value.hasSort_int.mp (hsymbol ▸ hI.symbol symbol)
  obtain ⟨q, hq⟩ := Value.hasSort_real.mp (hreal ▸ Term.hasSort_eval hI hoperand)
  have hfloor := eq_floor_iff (n := n) (q := q)
  simpa [integerPartConstraint, Term.eval, Term.evalAll, hn, hq, Value.toReal, Value.order,
    Value.arith, Value.isTrue, Value.floor] using hfloor

/-! ### All integer parts -/

/-- Whether each symbol for an integer part is an integer, each operand a well-sorted real term, and
no symbol depends on itself. -/
structure Proper (parts : IntegerParts) : Prop where
  sort_symbol : ∀ p ∈ parts, p.1.sort = .int
  operand : ∀ p ∈ parts, p.2.WellSorted
  sort_operand : ∀ p ∈ parts, p.2.sort = .real
  acyclic : Acyclic parts

theorem Proper.of_cons {older : IntegerParts} (h : Proper (p :: older)) : Proper older where
  sort_symbol := (List.forall_mem_cons.mp h.sort_symbol).2
  operand := (List.forall_mem_cons.mp h.operand).2
  sort_operand := (List.forall_mem_cons.mp h.sort_operand).2
  acyclic := h.acyclic.2.2

/-- Induction from the integer parts of an operand to that of the operand. -/
theorem Acyclic.induction {P : Symbol × Term → Prop} (h : Acyclic parts)
    (step : ∀ p ∈ parts, (∀ q ∈ parts, q.1 ∈ p.2.freeSymbols → P q) → P p) :
    ∀ p ∈ parts, P p := by
  induction parts with
  | nil => nofun
  | cons newest older ih =>
    obtain ⟨hself, hnewer, hacyclic⟩ := h
    have holder : ∀ p ∈ older, P p := by
      refine ih hacyclic fun p hp hP => step p (List.mem_cons_of_mem _ hp) fun q hq hfree => ?_
      rcases List.mem_cons.mp hq with rfl | hq
      · exact absurd hfree (hnewer p hp).2
      · exact hP q hq hfree
    refine List.forall_mem_cons.mpr ⟨?_, holder⟩
    refine step newest List.mem_cons_self fun q hq hfree => ?_
    rcases List.mem_cons.mp hq with rfl | hq
    · exact absurd hfree hself
    · exact holder q hq

/-- The interpretation that reads each integer part as the floor of its operand. -/
def read : IntegerParts → Interpretation → Interpretation
  | [], I => I
  | (symbol, operand) :: older, I =>
    (read older I).assign symbol (.int (operand.eval (read older I)).floor)

theorem wellSorted_read (h : Proper parts) (hI : I.WellSorted) : (parts.read I).WellSorted := by
  induction parts with
  | nil => exact hI
  | cons newest older ih =>
    refine (ih h.of_cons).assign ?_
    rw [h.sort_symbol newest List.mem_cons_self]
    trivial

/-- Only integer parts are read in another way. -/
theorem agree_read (parts : IntegerParts) (I : Interpretation) :
    I.Agree (· ∉ parts.map Prod.fst) (parts.read I) := by
  induction parts with
  | nil => exact .refl I
  | cons newest older ih =>
    have holder : I.Agree (· ∉ (newest :: older).map Prod.fst) (read older I) :=
      ih.mono fun s hs hmem => hs (List.mem_cons_of_mem _ hmem)
    refine holder.trans ((agree_assign _ newest.1 _).mono ?_)
    rintro s hs rfl
    exact hs List.mem_cons_self

/-- Integer parts are read as the floors of their operands. -/
theorem symbol_read (h : Acyclic parts) (I : Interpretation) (hp : p ∈ parts) :
    (parts.read I).symbol p.1 = .int (p.2.eval (parts.read I)).floor := by
  induction parts with
  | nil => cases hp
  | cons newest older ih =>
    obtain ⟨hself, hnewer, hacyclic⟩ := h
    unfold read
    rcases List.mem_cons.mp hp with rfl | hp
    · rw [symbol_assign, eval_assign_of_notMem hself]
    · obtain ⟨hne, hfree⟩ := hnewer p hp
      rw [eval_assign_of_notMem hfree, ← ih hacyclic hp]
      exact ((agree_assign _ _ _).symbol p.1 hne).symm

/-- Read as floors, integer parts satisfy their constraints. -/
theorem eval_constraint_read (h : Proper parts) (hI : I.WellSorted) (hp : p ∈ parts) :
    (integerPartConstraint p.1 p.2).eval (parts.read I) = .bool true :=
  (eval_integerPartConstraint (wellSorted_read h hI) (h.sort_symbol p hp) (h.operand p hp)
    (h.sort_operand p hp)).mpr (symbol_read h.acyclic I hp)

/-! ### Terms with the constraints of what occurs in them -/

/-- Whether two interpretations differ in the values of integer parts only, and the second one is
well-sorted. -/
structure Extends (parts : IntegerParts) (I J : Interpretation) : Prop where
  wellSorted : J.WellSorted
  agree : I.Agree (· ∉ parts.map Prod.fst) J

/-- A term has the same value in an extension if the integer parts in it are read in the same
way. -/
theorem eval_eq_read {t : Term} (hagree : I.Agree (· ∉ parts.map Prod.fst) J)
    (hsame : ∀ p ∈ parts, p.1 ∈ t.freeSymbols → J.symbol p.1 = (parts.read I).symbol p.1) :
    t.eval J = t.eval (parts.read I) := by
  have hread := agree_read parts I
  have hrest := hagree.symm.trans hread
  refine Term.eval_congr ⟨fun s hs => ?_, hrest.apply, hrest.holdsOfAll⟩
  by_cases hpart : s ∈ parts.map Prod.fst
  · obtain ⟨p, hp, rfl⟩ := List.mem_map.mp hpart
    exact hsame p hp hs
  · exact hrest.symbol s hpart

/-- The constraints of what occurs leave one value to each integer part. -/
theorem symbol_eq_read (hparts : Proper parts) (hJ : parts.Extends I J)
    (hconstraints : ∀ p, Occurs parts ts p →
      (integerPartConstraint p.1 p.2).eval J = .bool true) :
    ∀ p, Occurs parts ts p → J.symbol p.1 = (parts.read I).symbol p.1 := by
  have hvalue : ∀ p ∈ parts, Occurs parts ts p →
      J.symbol p.1 = (parts.read I).symbol p.1 := by
    refine hparts.acyclic.induction fun p hp ih hoccurs => ?_
    have hfloor := (eval_integerPartConstraint hJ.wellSorted (hparts.sort_symbol p hp)
      (hparts.operand p hp) (hparts.sort_operand p hp)).mp (hconstraints p hoccurs)
    have hoperand : p.2.eval J = p.2.eval (parts.read I) :=
      eval_eq_read hJ.agree fun q hq hfree => ih q hq hfree (.nested hq hoccurs hfree)
    rw [hfloor, hoperand, symbol_read hparts.acyclic I hp]
  exact fun p hp => hvalue p hp.mem hp

/-- A term has the value that it has with floors if the constraints of what occurs in it hold. -/
theorem eval_eq_read_of_constraints {t : Term} (hparts : Proper parts) (hI : I.WellSorted)
    (hconstraints : ∀ p, Occurs parts [t] p →
      (integerPartConstraint p.1 p.2).eval I = .bool true) :
    t.eval I = t.eval (parts.read I) :=
  eval_eq_read (.refl I) fun p hp hfree =>
    symbol_eq_read hparts ⟨hI, .refl I⟩ hconstraints p (.direct hp List.mem_cons_self hfree)

/-- Whether an interpretation differs from another one in the values of integer parts only, which
are the floors of what their operands are under itself. -/
structure TakesFloors (parts : IntegerParts) (I J : Interpretation) : Prop where
  agree : I.Agree (· ∉ parts.map Prod.fst) J
  floor : ∀ p ∈ parts, J.symbol p.1 = .int (p.2.eval J).floor

/-- There is one such interpretation. -/
theorem takesFloors_iff (h : Acyclic parts) : parts.TakesFloors I J ↔ J = parts.read I := by
  constructor
  · intro hJ
    have hparts : ∀ p ∈ parts, J.symbol p.1 = (parts.read I).symbol p.1 := by
      refine h.induction fun p hp ih => ?_
      rw [hJ.floor p hp, symbol_read h I hp, eval_eq_read hJ.agree ih]
    have hrest := hJ.agree.symm.trans (agree_read parts I)
    have hsymbol : J.symbol = (parts.read I).symbol := by
      funext s
      by_cases hs : s ∈ parts.map Prod.fst
      · obtain ⟨p, hp, rfl⟩ := List.mem_map.mp hs
        exact hparts p hp
      · exact hrest.symbol s hs
    cases J
    exact congr (congr (congrArg Interpretation.mk hsymbol) hrest.apply) hrest.holdsOfAll
  · rintro rfl
    exact ⟨agree_read parts I, fun p hp => symbol_read h I hp⟩

end IntegerParts

end SmtScript
