import SmtScript.Proofs.SortTable
import SmtScript.Proofs.Term.HasSort
import SmtScript.Proofs.Term.Substitution

/-!
Terms that can be written.

Scripts have neither conjunctions of nothing nor functions of no arguments, no bit-vectors without
bits and no constant arrays over functions. `Term.Written` says that a term holds none of these, as
far as its roots go; all builders and substitution keep it. The sort of such a term can be written,
`Term.Written.writes_target`.
-/

namespace SmtScript

namespace Term

/-- Whether a node can be written, as far as its root and the number of its operands go. -/
def Spellable (W : SmtSort → Prop) : Term → Prop
  | .apply _ ts | .and ts | .or ts => ts ≠ []
  | t => t.root.HasSorts W

/-- Whether all nodes of a term can be written. -/
inductive Written (W : SmtSort → Prop) : Term → Prop where
  | node {t : Term} (hspellable : t.Spellable W) (hoperands : ∀ a ∈ t.operands, a.Written W) :
      t.Written W

variable {W W' : SmtSort → Prop} {t u : Term} {ts : List Term}

theorem Written.spellable (h : t.Written W) : t.Spellable W := by
  cases h with
  | node hspellable _ => exact hspellable

theorem Written.operand (h : t.Written W) {a : Term} (ha : a ∈ t.operands) : a.Written W := by
  cases h with
  | node _ hoperands => exact hoperands a ha

theorem Spellable.mono (h : t.Spellable W) (hsub : ∀ sort, W sort → W' sort) : t.Spellable W' := by
  cases t with
  | bitVec width value => exact hsub _ h
  | constArray index v => exact hsub _ h
  | _ => exact h

theorem Written.mono (h : t.Written W) (hsub : ∀ sort, W sort → W' sort) : t.Written W' := by
  induction h with
  | node hspellable _ ih => exact .node (hspellable.mono hsub) ih

theorem Made.spellable (h : t.Made W) : t.Spellable W := by
  cases t <;> first | exact h | exact h.elim

theorem hereditary_written (hbits : ∀ {width : Nat}, 0 < width → W (.bitVec width)) :
    Hereditary W (Written W) where
  bits := hbits
  node _ hmade hoperands := .node hmade.spellable hoperands
  negated h := h.operand (by simp [operands])

theorem written_symbol (s : Symbol) : (Term.symbol s).Written W := .node trivial nofun

theorem written_mkApply {f : Symbol} (h : mkApply f ts = .ok u) (hts : ∀ t ∈ ts, t.Written W) :
    u.Written W := by
  unfold mkApply at h
  split at h
  · obtain rfl := Except.ok.inj h
    exact written_symbol f
  · rename_i hnonempty
    obtain ⟨_, rfl⟩ := checked_ok h
    exact .node (fun hnil => hnonempty (List.isEmpty_iff.mpr hnil)) hts

theorem written_mkQuantified {q : Quantifier} {bound : List Symbol}
    (h : mkQuantified q bound t = .ok u) (ht : t.Written W) : u.Written W := by
  unfold mkQuantified at h
  split at h
  · exact Except.ok.inj h ▸ ht
  · obtain ⟨_, rfl⟩ := checked_ok h
    exact .node trivial (by simpa [operands] using ht)

theorem substitutive_written (hbits : ∀ {width : Nat}, 0 < width → W (.bitVec width)) :
    Substitutive W (Written W) where
  toHereditary := hereditary_written hbits
  symbol := written_symbol
  application := written_mkApply
  quantifier _ h ht := written_mkQuantified h ht
  operand ht ha := ht.operand ha
  sorts {t} ht hroot := by
    have hspellable := ht.spellable
    cases t <;> first | exact hspellable | trivial

/-! ### Sorts of written terms -/

/-- Whether a term holds no constant array of functions. -/
def ArraysOfValues (t : Term) : Prop :=
  ∀ index v, (Term.constArray index v).Subterm t → v.sort.isFunction = false

theorem ArraysOfValues.operand (h : t.ArraysOfValues) {a : Term} (ha : a ∈ t.operands) :
    a.ArraysOfValues :=
  fun index v hv => h index v (hv.tail ha)

/-- What a term yields, once it has its arguments if it is a function, is of a sort that can be
written if this is so of its free symbols. -/
theorem Written.writes_target {table : SortTable} (h : t.Written table.Writes)
    (hwell : t.WellSorted) (harrays : t.ArraysOfValues)
    (hfree : ∀ s ∈ t.freeSymbols, table.Writes s.sort.target) :
    table.Writes t.sort.target := by
  induction t using operands_induction with
  | step t ih =>
    have hoperand (a : Term) (ha : a ∈ t.operands)
        (hroot : ∀ q bound body, t ≠ .quantified q bound body) :
        table.Writes a.sort.target :=
      ih a ha (h.operand ha) (hwell.operand ha) (harrays.operand ha) fun s hs =>
        hfree s (mem_freeSymbols_of_operand hroot ha hs)
    have hspellable := h.spellable
    have hfits := hwell.fits
    cases t with
    | bool value => exact .bool
    | int value => exact .int
    | real value => exact .real
    | bitVec width value => exact hspellable
    | symbol s => exact hfree s (by simp [freeSymbols])
    | apply f args =>
      have hlength : args.length = f.sort.domains.length := by
        simp only [fits, beq_iff_eq] at hfits
        simp [hfits]
      rw [sort, hlength, SmtSort.afterArguments_domains, SmtSort.target_target]
      exact hfree f (by simp [freeSymbols])
    | not a => exact .bool
    | and ts => exact .bool
    | or ts => exact .bool
    | implies a b => exact .bool
    | iff a b => exact .bool
    | equal a b => exact .bool
    | order op a b => exact .bool
    | bitOrder op a b => exact .bool
    | quantified q bound body => exact .bool
    | toReal a => exact .real
    | ite c a b => exact hoperand a (by simp [operands]) (by simp)
    | arith op a b => exact hoperand a (by simp [operands]) (by simp)
    | store a i v => exact hoperand a (by simp [operands]) (by simp)
    | bitUnary op a => exact hoperand a (by simp [operands]) (by simp)
    | bitOp op a b => exact hoperand a (by simp [operands]) (by simp)
    | rotate side step a => exact hoperand a (by simp [operands]) (by simp)
    | select a i =>
      have ha := hoperand a (by simp [operands]) (by simp)
      cases hsort : a.sort with
      | array index element =>
        rw [hsort] at ha
        have helement := (SortTable.writes_array.mp ha).2
        rw [sort, hsort, SmtSort.element, helement.target]
        exact helement
      | _ => simp [fits, hsort] at hfits
    | constArray index v =>
      have hv := hoperand v (by simp [operands]) (by simp)
      rw [SmtSort.target_of_isFunction (harrays index v .refl)] at hv
      exact .array hspellable hv
    | bitEqual a b => exact .bitVec Nat.one_pos
    | concat a b =>
      have ha := hoperand a (by simp [operands]) (by simp)
      simp only [fits, Bool.and_eq_true] at hfits
      obtain ⟨left, hleft⟩ := isBitVec_iff.mp hfits.1
      rw [hleft] at ha
      have hpos := SortTable.writes_bitVec.mp ha
      refine .bitVec (Nat.add_pos_left ?_ _)
      simpa [hleft, SmtSort.width, SmtSort.width?] using hpos
    | extract high low a =>
      have hlow : low ≤ high := by
        simp only [fits, Bool.and_eq_true, decide_eq_true_eq] at hfits
        exact hfits.1.2
      exact .bitVec (by omega)
    | widen bits extra a =>
      have ha := hoperand a (by simp [operands]) (by simp)
      obtain ⟨width, hwidth⟩ := isBitVec_iff.mp hfits
      rw [hwidth] at ha
      have hpos := SortTable.writes_bitVec.mp ha
      refine .bitVec (Nat.add_pos_left ?_ _)
      simpa [hwidth, SmtSort.width, SmtSort.width?] using hpos

end Term

end SmtScript
