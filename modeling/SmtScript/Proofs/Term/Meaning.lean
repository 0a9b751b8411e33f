import SmtScript.Proofs.Term.Sound
import SmtScript.Proofs.Value.HasSort
import SmtScript.Term.Eval

/-!
What evaluation depends on, and the sorts of its results.

A well-sorted term has a value of its sort in every well-sorted interpretation, `hasSort_eval`.
Its value depends on the values of its free symbols only, `eval_congr`.
-/

namespace SmtScript

namespace Interpretation

/-- Whether symbols have values, and functions results, of their sorts. -/
structure WellSorted (I : Interpretation) : Prop where
  symbol : ∀ s, (I.symbol s).HasSort s.sort
  apply : ∀ f args, (I.apply f args).HasSort (f.sort.afterArguments args.length)

theorem WellSorted.assign {I : Interpretation} (hI : I.WellSorted) {s : Symbol} {v : Value}
    (hv : v.HasSort s.sort) : (I.assign s v).WellSorted := by
  refine ⟨?_, hI.apply⟩
  intro s'
  by_cases h : s' = s
  · subst h
    simpa [Interpretation.assign] using hv
  · simpa [Interpretation.assign, h] using hI.symbol s'

/-- Whether two interpretations differ in the values of other symbols only. -/
structure Agree (among : Symbol → Prop) (I J : Interpretation) : Prop where
  symbol : ∀ s, among s → I.symbol s = J.symbol s
  apply : I.apply = J.apply
  holdsOfAll : I.holdsOfAll = J.holdsOfAll

variable {among among' : Symbol → Prop} {I J K : Interpretation}

theorem Agree.refl (I : Interpretation) : Agree among I I := ⟨fun _ _ => rfl, rfl, rfl⟩

theorem Agree.symm (h : Agree among I J) : Agree among J I :=
  ⟨fun s hs => (h.symbol s hs).symm, h.apply.symm, h.holdsOfAll.symm⟩

theorem Agree.trans (h : Agree among I J) (h' : Agree among J K) : Agree among I K :=
  ⟨fun s hs => (h.symbol s hs).trans (h'.symbol s hs), h.apply.trans h'.apply,
    h.holdsOfAll.trans h'.holdsOfAll⟩

theorem Agree.mono (h : Agree among I J) (hsub : ∀ s, among' s → among s) : Agree among' I J :=
  ⟨fun s hs => h.symbol s (hsub s hs), h.apply, h.holdsOfAll⟩

theorem Agree.assign (s : Symbol) (v : Value) (h : Agree among I J) :
    Agree (fun s' => s' = s ∨ among s') (I.assign s v) (J.assign s v) := by
  refine ⟨?_, h.apply, h.holdsOfAll⟩
  intro s' hs'
  by_cases heq : s' = s
  · simp [Interpretation.assign, heq]
  · simpa [Interpretation.assign, heq] using h.symbol s' (hs'.resolve_left heq)

/-- A statement that depends on some symbols only holds for all values of several variables
whatever the values of these variables were before. -/
theorem forAll_congr {statement : Interpretation → Bool} (bound : List Symbol)
    (hstatement : ∀ {I J}, Agree among I J → statement I = statement J)
    (h : Agree (fun s => among s ∧ s ∉ bound) I J) :
    I.forAll bound statement = J.forAll bound statement := by
  induction bound generalizing I J with
  | nil => exact hstatement (h.mono fun s hs => ⟨hs, List.not_mem_nil⟩)
  | cons b rest ih =>
    rw [Interpretation.forAll, Interpretation.forAll, h.holdsOfAll]
    congr 1
    funext v
    refine ih ((h.assign b v).mono ?_)
    intro s hs
    by_cases heq : s = b
    · exact .inl heq
    · exact .inr ⟨hs.1, by simp [heq, hs.2]⟩

end Interpretation

namespace Term

variable {I J : Interpretation}

theorem sizeOf_lt_of_mem_operands {t a : Term} (ha : a ∈ t.operands) : sizeOf a < sizeOf t := by
  have hle : sizeOf a ≤ totalSize t.operands := by
    generalize t.operands = ts at ha
    induction ts with
    | nil => cases ha
    | cons b rest ih =>
      rcases List.mem_cons.mp ha with rfl | ha
      · simp [totalSize]
      · have := ih ha
        simp only [totalSize]
        omega
  have hlt := totalSize_operands_lt t
  omega

/-- Induction from the operands up. -/
theorem operands_induction {P : Term → Prop} (step : ∀ t, (∀ a ∈ t.operands, P a) → P t)
    (t : Term) : P t := by
  refine step t fun a ha => ?_
  have hlt := sizeOf_lt_of_mem_operands ha
  exact operands_induction step a
termination_by sizeOf t

theorem eval_eq_rootValue (t : Term) (h : t.root.isInterpreted = false) :
    t.eval I = rootValue t.root (t.operands.map fun a => a.eval I) := by
  cases t <;> simp_all [eval, operands, root, rootValue, evalAll_eq_map, Root.isInterpreted]

/-- The value of a term depends on the values of its free symbols only. -/
theorem eval_congr {t : Term} (h : I.Agree (· ∈ t.freeSymbols) J) : t.eval I = t.eval J := by
  induction t using operands_induction generalizing I J with
  | step t ih =>
    have hoperands (hroot : ∀ q bound body, t ≠ .quantified q bound body) :
        t.operands.map (fun a => a.eval I) = t.operands.map (fun a => a.eval J) := by
      refine List.map_congr_left fun a ha => ih a ha (h.mono fun s hs => ?_)
      exact mem_freeSymbols_of_operand hroot ha hs
    cases t with
    | symbol s => exact h.symbol s (by simp [freeSymbols])
    | apply f args =>
      have hargs := hoperands nofun
      simp only [operands] at hargs
      rw [eval, eval, evalAll_eq_map, evalAll_eq_map, hargs, h.apply]
    | quantified q bound body =>
      have hbody {I J : Interpretation} (hIJ : I.Agree (· ∈ body.freeSymbols) J) :
          body.eval I = body.eval J :=
        ih body (by simp [operands]) hIJ
      have hsub : I.Agree (fun s => s ∈ body.freeSymbols ∧ s ∉ bound) J :=
        h.mono fun s hs => by simpa [freeSymbols] using hs
      cases q with
      | universal =>
        rw [eval, eval, Interpretation.forAll_congr bound (fun hIJ => by rw [hbody hIJ]) hsub]
      | existential =>
        rw [eval, eval, Interpretation.forAll_congr bound (fun hIJ => by rw [hbody hIJ]) hsub]
    | _ => rw [eval_eq_rootValue _ rfl, eval_eq_rootValue _ rfl, hoperands nofun]

theorem length_evalAll (ts : List Term) : (evalAll ts I).length = ts.length := by
  rw [evalAll_eq_map, List.length_map]

theorem isBitVec_iff {t : Term} : t.isBitVec = true ↔ ∃ width, t.sort = .bitVec width := by
  unfold isBitVec width? SmtSort.width?
  split <;> simp_all

/-- A well-sorted term has a value of its sort. -/
theorem hasSort_eval {t : Term} (hI : I.WellSorted) (h : t.WellSorted) :
    (t.eval I).HasSort t.sort := by
  induction h with
  | @node t hfits _ ih =>
    cases t with
    | symbol s => exact hI.symbol s
    | apply f args =>
      rw [eval, sort, ← length_evalAll args]
      exact hI.apply f _
    | ite c a b =>
      simp only [fits, Bool.and_eq_true, beq_iff_eq] at hfits
      rw [eval, sort]
      split
      · exact ih a (by simp [operands])
      · exact hfits.2 ▸ ih b (by simp [operands])
    | arith op a b =>
      have ha := ih a (by simp [operands])
      have hb := ih b (by simp [operands])
      simp only [fits, isInt, isReal, Bool.or_eq_true, Bool.and_eq_true, beq_iff_eq] at hfits
      rw [eval, sort]
      rcases hfits with ⟨hint, hint'⟩ | ⟨hreal, hreal'⟩
      · exact hint ▸ Value.hasSort_arith op (.inl rfl) (hint ▸ ha) (hint' ▸ hb)
      · exact hreal ▸ Value.hasSort_arith op (.inr rfl) (hreal ▸ ha) (hreal' ▸ hb)
    | toReal a =>
      have ha := ih a (by simp [operands])
      simp only [fits, isInt, beq_iff_eq] at hfits
      exact Value.hasSort_toReal (hfits ▸ ha)
    | select a i =>
      have ha := ih a (by simp [operands])
      simp only [fits] at hfits
      split at hfits
      · rename_i index elements hsort
        rw [hsort] at ha
        rw [eval, sort, hsort]
        exact Value.hasSort_select _ ha
      · cases hfits
    | store a i v =>
      have ha := ih a (by simp [operands])
      have hi := ih i (by simp [operands])
      have hv := ih v (by simp [operands])
      simp only [fits] at hfits
      split at hfits
      · rename_i index elements hsort
        simp only [Bool.and_eq_true, beq_iff_eq] at hfits
        rw [hsort] at ha
        rw [eval, sort, hsort]
        exact Value.hasSort_store ha (hfits.1 ▸ hi) (hfits.2 ▸ hv)
      · cases hfits
    | constArray index v => exact ⟨rfl, ih v (by simp [operands])⟩
    | bitUnary op a =>
      have ha := ih a (by simp [operands])
      obtain ⟨width, hsort⟩ := isBitVec_iff.mp hfits
      rw [eval, sort, hsort]
      exact Value.hasSort_bitUnary op (hsort ▸ ha)
    | bitOp op a b =>
      have ha := ih a (by simp [operands])
      have hb := ih b (by simp [operands])
      simp only [fits, Bool.and_eq_true, beq_iff_eq] at hfits
      obtain ⟨width, hsort⟩ := isBitVec_iff.mp hfits.1
      rw [eval, sort, hsort]
      exact Value.hasSort_bitOp op (hsort ▸ ha) (hsort ▸ hfits.2 ▸ hb)
    | concat a b =>
      have ha := ih a (by simp [operands])
      have hb := ih b (by simp [operands])
      simp only [fits, Bool.and_eq_true] at hfits
      obtain ⟨width, hsort⟩ := isBitVec_iff.mp hfits.1
      obtain ⟨width', hsort'⟩ := isBitVec_iff.mp hfits.2
      rw [eval, sort, hsort, hsort']
      exact Value.hasSort_concat (hsort ▸ ha) (hsort' ▸ hb)
    | extract high low a =>
      have ha := ih a (by simp [operands])
      simp only [fits, Bool.and_eq_true] at hfits
      obtain ⟨width, hsort⟩ := isBitVec_iff.mp hfits.1.1
      exact Value.hasSort_extract high low (hsort ▸ ha)
    | rotate side step a =>
      have ha := ih a (by simp [operands])
      simp only [fits, Bool.and_eq_true] at hfits
      obtain ⟨width, hsort⟩ := isBitVec_iff.mp hfits.1
      rw [eval, sort, hsort]
      exact Value.hasSort_rotate side step (hsort ▸ ha)
    | widen bits extra a =>
      have ha := ih a (by simp [operands])
      obtain ⟨width, hsort⟩ := isBitVec_iff.mp hfits
      rw [eval, sort, hsort]
      exact Value.hasSort_widen bits extra (hsort ▸ ha)
    | bitVec width value => rfl
    | bitEqual a b => rfl
    | quantified q bound body => cases q <;> trivial
    | _ => trivial

end Term

end SmtScript
