import SmtScript.Proofs.Standard.BitTerms

/-!
Operators on bit-vectors build what the standard says.

`Standard.VectorOp.builds_apply`: operands that fit a signature of an operator without indices are
accepted, and the term has the sort of the signature and the standard value. Operators that may take
more than two operands make a chain from the left.
-/

namespace SmtScript

namespace Standard

open Term

variable {w : Nat} {a b : Term} {ts : List Term} {sort : SmtSort}

def VectorBinary.operator : VectorBinary → Operator
  | .and => .bitChain .and
  | .or => .bitChain .or
  | .xor => .bitChain .xor
  | .add => .bitChain .add
  | .mul => .bitChain .mul
  | .nand => .bitNegated .and
  | .nor => .bitNegated .or
  | .xnor => .bitNegated .xor
  | .sub => .bitBinary .sub
  | .udiv => .bitBinary .udiv
  | .urem => .bitBinary .urem
  | .sdiv => .bitBinary .sdiv
  | .srem => .bitBinary .srem
  | .smod => .smod
  | .shl => .bitBinary .shl
  | .lshr => .bitBinary .lshr
  | .ashr => .bitBinary .ashr

/-- An order with the larger side first is one with swapped operands. -/
def VectorOrder.operator : VectorOrder → Operator
  | .ult => .bitOrder .ult
  | .ule => .bitOrder .ule
  | .ugt => .bitOrderSwapped .ult
  | .uge => .bitOrderSwapped .ule
  | .slt => .bitOrder .slt
  | .sle => .bitOrder .sle
  | .sgt => .bitOrderSwapped .slt
  | .sge => .bitOrderSwapped .sle

/-- The operator of terms that an operator without indices is. -/
def VectorOp.operator? : VectorOp → Option Operator
  | .concat => some .concat
  | .unary op => some (.bitUnary op.node)
  | .binary op => some op.operator
  | .comp => some .bitEqual
  | .order op => some op.operator
  | .shape _ => none

theorem ofName?_operator? {op : VectorOp} {o : Operator} (h : op.operator? = some o) :
    Operator.ofName? op.name = some o := by
  cases op with
  | concat => exact h
  | unary op => cases op <;> exact h
  | binary op => cases op <;> exact h
  | comp => exact h
  | order op => cases op <;> exact h
  | shape op => cases h

theorem builds_bitChain (op : BitOp) (h : ∀ t ∈ a :: ts, t.Typed (.bitVec w)) :
    Builds (leftChain (mkBitOp op) a ts) (.bitVec w)
      fun I => (fromLeft (operation op) ((valuesOf I (a :: ts)).map bits)).value := by
  induction ts generalizing a with
  | nil => exact (Builds.ok (h a (by simp))).congr fun I hI => value_eval (h a (by simp)) hI
  | cons b rest ih =>
    refine (builds_mkBitOp op (h a (by simp)) (h b (by simp))).bind fun u hu huval => ?_
    have hrest : ∀ t ∈ u :: rest, t.Typed (.bitVec w) := by
      simpa using ⟨hu, fun t ht => h t (by simp [ht])⟩
    refine (ih hrest).congr fun I hI => ?_
    simp [fromLeft, valuesOf, huval I hI]

theorem builds_concatChain {widths : List Nat} (ha : a.Typed (.bitVec w))
    (h : Operands ts (widths.map .bitVec)) :
    Builds (leftChain mkConcat a ts) (.bitVec (w + widths.sum))
      fun I => (fromLeft Bits.concat ((valuesOf I (a :: ts)).map bits)).value := by
  induction widths generalizing a w ts with
  | nil =>
    obtain rfl : ts = [] := List.map_eq_nil_iff.mp h.sorts_eq
    exact (Builds.ok ha).congr fun I hI => value_eval ha hI
  | cons v widths ih =>
    obtain ⟨b, rest, rfl, hb, hrest⟩ := h.uncons
    refine (builds_mkConcat ha hb).bind fun u hu huval => ?_
    rw [List.sum_cons, ← Nat.add_assoc]
    refine (ih hu hrest).congr fun I hI => ?_
    simp [fromLeft, valuesOf, huval I hI]

/-- Operators on vectors of one width. -/
theorem VectorBinary.builds_apply {op : VectorBinary} (hw : 1 ≤ w)
    (hts : ∀ t ∈ ts, t.Typed (.bitVec w)) (hlen : 2 ≤ ts.length)
    (htwo : op.isChain = true ∨ ts.length = 2) :
    Builds (op.operator.apply ts) (.bitVec w)
      fun I => (fromLeft op.apply ((valuesOf I ts).map bits)).value := by
  obtain ⟨a, b, rest, rfl⟩ := eq_cons_cons_of_length hlen
  have ha := hts a (by simp)
  have hb := hts b (by simp)
  have hchain (node : BitOp) := (builds_bitChain node hts).monadLift
  have hnone (h : op.isChain = false) : rest = [] := by
    have hcount := htwo.resolve_left (by simp [h])
    simpa using hcount
  have hnode (node : BitOp) := (builds_mkBitOp node ha hb).monadLift
  have hnegated (node : BitOp) := (builds_mkBitNegated node ha hb).monadLift
  cases op with
  | and => exact hchain .and
  | or => exact hchain .or
  | xor => exact hchain .xor
  | add => exact hchain .add
  | mul => exact hchain .mul
  | nand => obtain rfl := hnone rfl; exact hnegated .and
  | nor => obtain rfl := hnone rfl; exact hnegated .or
  | xnor =>
    obtain rfl := hnone rfl
    refine (hnegated .xor).congr fun I hI => ?_
    have hwidths := (width_eval ha hI).trans (width_eval hb hI).symm
    exact congrArg Bits.value (Bits.not_xor hwidths)
  | sub => obtain rfl := hnone rfl; exact hnode .sub
  | udiv => obtain rfl := hnone rfl; exact hnode .udiv
  | urem => obtain rfl := hnone rfl; exact hnode .urem
  | sdiv => obtain rfl := hnone rfl; exact hnode .sdiv
  | srem => obtain rfl := hnone rfl; exact hnode .srem
  | smod => obtain rfl := hnone rfl; exact (builds_mkSMod hw ha hb).monadLift
  | shl => obtain rfl := hnone rfl; exact hnode .shl
  | lshr => obtain rfl := hnone rfl; exact hnode .lshr
  | ashr => obtain rfl := hnone rfl; exact hnode .ashr

/-- Two operands of an operator on vectors of one width. -/
theorem VectorOp.Takes.two {op : VectorBinary}
    (h : VectorOp.Takes (.binary op) [a.sort, b.sort] sort) (ha : a.WellSorted)
    (hb : b.WellSorted) : ∃ w, a.Typed (.bitVec w) ∧ b.Typed (.bitVec w) := by
  generalize hsorts : [a.sort, b.sort] = sorts at h
  cases h with
  | binary hpos hcount htwo =>
    rename_i w count
    have hall : ∀ s ∈ [a.sort, b.sort], s = .bitVec w := by
      rw [hsorts]
      exact fun s hs => List.eq_of_mem_replicate hs
    exact ⟨w, ⟨ha, hall _ (by simp)⟩, ⟨hb, hall _ (by simp)⟩⟩

theorem VectorOrder.builds_apply (op : VectorOrder) (ha : a.Typed (.bitVec w))
    (hb : b.Typed (.bitVec w)) :
    Builds (op.operator.apply [a, b]) .bool
      fun I => .bool (op.holds (bits (a.eval I)) (bits (b.eval I))) := by
  have hnode (node : BitOrder) := (builds_mkBitOrder node ha hb).monadLift
  have hswapped (node : BitOrder) := (builds_mkBitOrder node hb ha).monadLift
  cases op with
  | ult => exact hnode .ult
  | ule => exact hnode .ule
  | ugt => exact hswapped .ult
  | uge => exact hswapped .ule
  | slt => exact hnode .slt
  | sle => exact hnode .sle
  | sgt => exact hswapped .slt
  | sge => exact hswapped .sle

/-- Operands that fit a signature of an operator without indices are accepted, and the term has the
sort and the value that the standard gives. -/
theorem VectorOp.builds_apply {op : VectorOp} {o : Operator} {sorts : List SmtSort}
    (ho : op.operator? = some o) (h : Operands ts sorts) (htakes : op.Takes sorts sort) :
    Builds (o.apply ts) sort fun I => op.value (valuesOf I ts) := by
  cases htakes with
  | concat hlen =>
    rename_i widths
    obtain rfl := Option.some.inj ho
    obtain ⟨w, v, rest, rfl⟩ := eq_cons_cons_of_length hlen
    obtain ⟨a, ts, rfl, ha, hrest⟩ := h.uncons
    obtain ⟨b, ts, rfl, hb, -⟩ := hrest.uncons
    exact (builds_concatChain ha hrest).monadLift
  | unary =>
    obtain rfl := Option.some.inj ho
    obtain ⟨a, rfl, ha⟩ := h.one
    exact (builds_mkBitUnary _ ha).monadLift
  | binary hw hcount htwo =>
    obtain rfl := Option.some.inj ho
    have hlen := h.length_eq
    rw [List.length_replicate] at hlen
    have hts := h.typed fun s hs => List.eq_of_mem_replicate hs
    exact VectorBinary.builds_apply hw hts (by omega) (htwo.imp_right hlen.trans)
  | comp =>
    obtain rfl := Option.some.inj ho
    obtain ⟨a, b, rfl, ha, hb⟩ := h.two
    exact (builds_mkBitEqual ha hb).monadLift
  | order =>
    obtain rfl := Option.some.inj ho
    obtain ⟨a, b, rfl, ha, hb⟩ := h.two
    exact VectorOrder.builds_apply _ ha hb
  | shape => cases ho

end Standard

end SmtScript
