import SmtScript.Proofs.SortTable
import SmtScript.Proofs.Standard.BitOperators
import SmtScript.Proofs.Translate.Application

/-!
Translating applications of operators on bit-vectors.

`Standard.translate_vectorOp`: once its operands have been read as bit-vectors of widths that a
signature of the standard allows, an application is accepted, and the term has the sort of the
signature and the standard value. An operator with indices is known by its form; any other must not
be bound to something else.
-/

namespace SmtScript

namespace Standard

open Term Step

variable {w v : Nat} {a : Term} {ts : List Term} {sort : SmtSort} {sorts : List SmtSort}
  {table : SortTable} {names : Names} {T T' : TermState} {args : List SExpr}

/-! ### Operators with indices -/

def VectorShape.operator : VectorShape → IndexedOperator
  | .extract _ _ => .extract
  | .repeated _ => .repeated
  | .zeroExtend _ => .widen .zeros
  | .signExtend _ => .widen .signs
  | .rotate side _ => .rotate side

theorem VectorShape.ofName?_operator (op : VectorShape) :
    IndexedOperator.ofName? op.name = some op.operator := by
  cases op with
  | rotate side step => cases side <;> rfl
  | _ => rfl

theorem VectorShape.length_indices (op : VectorShape) :
    op.indices.length = op.operator.indexCount := by
  cases op <;> rfl

/-- An operator with indices whose widths fit is accepted. -/
theorem VectorShape.builds_apply {op : VectorShape} (ha : a.Typed (.bitVec w))
    (h : op.Reshapes w v) :
    Builds (op.operator.apply op.indices a) (.bitVec v)
      fun I => (op.apply (bits (a.eval I))).value := by
  cases h with
  | extract hlow hhigh =>
    rename_i high low
    have hwidth : a.sort.width = w := by rw [ha.sort_eq]; rfl
    have hguard : (decide (low ≤ high) && decide (high < a.sort.width)) = true := by
      simp [hwidth, hlow, hhigh]
    show Builds (if (decide (low ≤ high) && decide (high < a.sort.width)) = true then _ else _) _ _
    rw [if_pos hguard]
    exact (builds_mkExtract hlow hhigh ha).monadLift
  | repeated hcount => exact (builds_mkRepeat hcount ha).monadLift
  | zeroExtend => exact (builds_mkWiden .zeros _ ha).monadLift
  | signExtend => exact (builds_mkWiden .signs _ ha).monadLift
  | rotate hstep => exact (builds_mkRotate _ hstep ha).monadLift

/-- Numerals are read as the indices that they write. -/
theorem run_readIndices {name : String} {sexpr : SExpr} {op : IndexedOperator} {indices : List Nat}
    (hlen : indices.length = op.indexCount) :
    (readIndices name sexpr op (indices.map fun i => .atom (toString i))).run T =
      (.ok indices, T) := by
  rw [readIndices, if_pos (by rw [List.length_map, hlen])]
  clear hlen
  induction indices with
  | nil => rfl
  | cons i rest ih =>
    have hindex : (index sexpr (.atom (toString i))).run T = (.ok i, T) := by
      rw [index, Numeral.read_toString]
      rfl
    rw [List.map_cons, List.mapM_cons, run_bind_ok hindex, run_bind_ok ih]
    rfl

/-- The operand of an operator with indices is read, and then the operator is applied to it. -/
theorem run_translate_indexed {name : String} {op : IndexedOperator} {indices : List Nat}
    {arg : SExpr} (hop : IndexedOperator.ofName? name = some op)
    (hlen : indices.length = op.indexCount)
    (harg : (translate table names arg).run T = (.ok a, T')) (ha : a.isBitVec = true)
    {t : Term} (happly : op.apply indices a = .ok t) :
    (translate table names (.list [.list (.atom "_" :: .atom name ::
      indices.map fun i => .atom (toString i)), arg])).run T = (.ok t, T') := by
  rw [translate.eq_def]
  simp only [hop]
  rw [run_bind_ok (run_readIndices hlen), run_bind_ok harg, applyIndexed, if_pos ha, happly]
  rfl

/-! ### Applications -/

theorem VectorOp.head_eq {op : VectorOp} {o : Operator} (h : op.operator? = some o) :
    op.head = .atom op.name := by
  cases op with
  | shape op => cases h
  | _ => rfl

/-- Each operand has been read from an S-expression of its own. -/
theorem run_translateAll_cons {arg : SExpr}
    (hargs : (translateAll table names (arg :: args)).run T = (.ok ts, T')) :
    ∃ a T₁ rest, ts = a :: rest ∧ (translate table names arg).run T = (.ok a, T₁) ∧
      (translateAll table names args).run T₁ = (.ok rest, T') := by
  rw [translateAll, run_bind] at hargs
  split at hargs
  · rename_i a T₁ hfirst
    rw [run_bind] at hargs
    split at hargs
    · rename_i rest T₂ hrest
      obtain ⟨hts, rfl⟩ := Prod.mk.inj hargs
      exact ⟨a, T₁, rest, (Except.ok.inj hts).symm, hfirst, hrest⟩
    · cases hargs
  · cases hargs

theorem run_translateAll_one (hargs : (translateAll table names args).run T = (.ok [a], T')) :
    ∃ arg, args = [arg] ∧ (translate table names arg).run T = (.ok a, T') := by
  cases args with
  | nil => cases hargs
  | cons arg args =>
    obtain ⟨b, T₁, rest, hts, hfirst, hrest⟩ := run_translateAll_cons hargs
    obtain ⟨rfl, rfl⟩ := List.cons.inj hts
    cases args with
    | nil =>
      obtain ⟨-, rfl⟩ := Prod.mk.inj hrest
      exact ⟨arg, rfl, hfirst⟩
    | cons arg' args =>
      obtain ⟨c, T₂, rest, hnil, -, -⟩ := run_translateAll_cons hrest
      cases hnil

/-- Once operands that fit a signature have been read, the application is accepted, and the term
has the sort and the value that the standard gives. -/
theorem translate_vectorOp {op : VectorOp} (h : Operands ts sorts) (htakes : op.Takes sorts sort)
    (hfree : names.find? op.name = none)
    (hargs : (translateAll table names args).run T = (.ok ts, T')) :
    ∃ t, (translate table names (.list (op.head :: args))).run T = (.ok t, T') ∧ t.Typed sort ∧
      ∀ I : Interpretation, I.WellSorted → t.eval I = op.value (valuesOf I ts) := by
  cases hop : op.operator? with
  | some o =>
    obtain ⟨t, happly, ht, hvalue⟩ := VectorOp.builds_apply hop h htakes
    refine ⟨t, ?_, ht, hvalue⟩
    rw [VectorOp.head_eq hop, run_translate_operator (ofName?_operator? hop) hfree hargs,
      applyOperator, happly]
    rfl
  | none =>
    cases htakes with
    | shape hpos hreshapes =>
      rename_i op w v
      obtain ⟨a, rfl, ha⟩ := h.one
      obtain ⟨arg, rfl, harg⟩ := run_translateAll_one hargs
      obtain ⟨t, happly, ht, hvalue⟩ := VectorShape.builds_apply ha hreshapes
      refine ⟨t, ?_, ht, hvalue⟩
      exact run_translate_indexed op.ofName?_operator op.length_indices harg ha.isBitVec happly
    | _ => cases hop

end Standard

end SmtScript
