import Mathlib.Algebra.Field.Rat
import Mathlib.Data.Rat.Cast.Order
import SmtScript.Operator
import SmtScript.Proofs.Term.Meaning

/-!
What the builders build.

`Term.Builds` says that a step succeeds, and gives the sort of the term that it yields and its
value in every well-sorted interpretation. The lemmas of this module say so of the builders of
Boolean and numeric terms, whose operands are known by `Term.Typed`.
-/

namespace SmtScript

namespace Term

/-- A well-sorted term of a sort. -/
structure Typed (t : Term) (sort : SmtSort) : Prop where
  wellSorted : t.WellSorted
  sort_eq : t.sort = sort

/-- Whether a step yields a term of a sort with known values. -/
def Builds {ε : Type} (x : Except ε Term) (sort : SmtSort) (value : Interpretation → Value) :
    Prop :=
  ∃ t, x = .ok t ∧ t.Typed sort ∧ ∀ I : Interpretation, I.WellSorted → t.eval I = value I

variable {ε : Type} {x : Except ε Term} {sort : SmtSort} {value : Interpretation → Value}
variable {t a b c : Term} {I : Interpretation}

theorem Typed.node (hfits : t.fits = true) (hoperands : ∀ a ∈ t.operands, a.WellSorted) :
    t.Typed t.sort :=
  ⟨.node hfits hoperands, rfl⟩

theorem Builds.ok (h : t.Typed sort) : Builds (.ok t : Except ε Term) sort fun I => t.eval I :=
  ⟨t, rfl, h, fun _ _ => rfl⟩

theorem Builds.congr {value' : Interpretation → Value} (h : Builds x sort value)
    (heq : ∀ I : Interpretation, I.WellSorted → value I = value' I) : Builds x sort value' := by
  obtain ⟨t, hx, ht, hval⟩ := h
  exact ⟨t, hx, ht, fun I hI => (hval I hI).trans (heq I hI)⟩

theorem Builds.bind {ε : Type} {x : Except ε Term} {f : Term → Except ε Term} {sort' : SmtSort}
    {value' : Interpretation → Value} (h : Builds x sort value)
    (hf : ∀ t, t.Typed sort → (∀ I : Interpretation, I.WellSorted → t.eval I = value I) →
      Builds (f t) sort' value') : Builds (x >>= f) sort' value' := by
  obtain ⟨t, rfl, ht, hval⟩ := h
  exact hf t ht hval

theorem Builds.mapError {δ : Type} {f : ε → δ} (h : Builds x sort value) :
    Builds (x.mapError f) sort value := by
  obtain ⟨t, rfl, ht, hval⟩ := h
  exact ⟨t, rfl, ht, hval⟩

theorem builds_checked (hfits : t.fits = true) (hoperands : ∀ a ∈ t.operands, a.WellSorted) :
    Builds (checked t) t.sort fun I => t.eval I :=
  ⟨t, by unfold checked; rw [if_pos hfits], .node hfits hoperands, fun _ _ => rfl⟩

/-! ### Booleans -/

theorem Typed.isBool (h : t.Typed .bool) : t.isBool = true := by
  rw [Term.isBool, h.sort_eq]
  rfl

/-- The value of a Boolean term is its truth. -/
theorem Typed.eval_bool (h : t.Typed .bool) (hI : I.WellSorted) :
    t.eval I = .bool (t.eval I).isTrue := by
  have hv := hasSort_eval hI h.wellSorted
  rw [h.sort_eq] at hv
  obtain ⟨b, hb⟩ := Value.hasSort_bool.mp hv
  rw [hb]
  rfl

theorem builds_mkNot (ha : a.Typed .bool) :
    Builds (mkNot a) .bool fun I => .bool !(a.eval I).isTrue := by
  unfold mkNot
  split
  · rename_i body
    have hbody : body.Typed .bool :=
      ⟨ha.wellSorted.operand (by simp [operands]), by simpa [fits, Term.isBool] using
        ha.wellSorted.fits⟩
    refine (Builds.ok hbody).congr fun I hI => ?_
    rw [hbody.eval_bool hI]
    simp [eval, Value.isTrue]
  · exact builds_checked ha.isBool (by simpa [operands] using ha.wellSorted)

theorem builds_mkAnd {ts : List Term} (hts : ∀ t ∈ ts, t.Typed .bool) :
    Builds (mkAnd ts) .bool fun I => .bool (ts.all fun t => (t.eval I).isTrue) := by
  unfold mkAnd
  split
  · exact Builds.ok (.node rfl (by simp [operands]))
  · rename_i part
    have hpart := hts part (by simp)
    refine (Builds.ok hpart).congr fun I hI => ?_
    rw [hpart.eval_bool hI]
    simp [Value.isTrue]
  · refine (builds_checked (t := .and _) ?_ fun t ht => (hts t ht).wellSorted).congr ?_
    · simpa [fits] using fun t ht => (hts t ht).isBool
    · simp [eval, evalAll_eq_map, Function.comp_def]

theorem builds_mkOr {ts : List Term} (hts : ∀ t ∈ ts, t.Typed .bool) :
    Builds (mkOr ts) .bool fun I => .bool (ts.any fun t => (t.eval I).isTrue) := by
  unfold mkOr
  split
  · exact Builds.ok (.node rfl (by simp [operands]))
  · rename_i part
    have hpart := hts part (by simp)
    refine (Builds.ok hpart).congr fun I hI => ?_
    rw [hpart.eval_bool hI]
    simp [Value.isTrue]
  · refine (builds_checked (t := .or _) ?_ fun t ht => (hts t ht).wellSorted).congr ?_
    · simpa [fits] using fun t ht => (hts t ht).isBool
    · simp [eval, evalAll_eq_map, Function.comp_def]

theorem builds_mkImplies (ha : a.Typed .bool) (hb : b.Typed .bool) :
    Builds (mkImplies a b) .bool fun I => .bool (!(a.eval I).isTrue || (b.eval I).isTrue) :=
  builds_checked (by simp [fits, ha.isBool, hb.isBool])
    (by simpa [operands] using ⟨ha.wellSorted, hb.wellSorted⟩)

theorem builds_mkIff (ha : a.Typed .bool) (hb : b.Typed .bool) :
    Builds (mkIff a b) .bool fun I => .bool ((a.eval I).isTrue == (b.eval I).isTrue) := by
  refine (builds_checked (by simp [fits, ha.isBool, hb.isBool])
    (by simpa [operands] using ⟨ha.wellSorted, hb.wellSorted⟩)).congr fun I hI => ?_
  rw [eval, ha.eval_bool hI, hb.eval_bool hI]
  simp [Value.equals, Value.normal, Value.isTrue, Bool.beq_eq_decide_eq]

theorem builds_mkXor (ha : a.Typed .bool) (hb : b.Typed .bool) :
    Builds (mkXor a b) .bool fun I => .bool (Bool.xor (a.eval I).isTrue (b.eval I).isTrue) := by
  refine (builds_mkIff ha hb).bind fun same hsame hval => ?_
  refine (builds_mkNot hsame).congr fun I hI => ?_
  rw [hval I hI]
  cases (a.eval I).isTrue <;> cases (b.eval I).isTrue <;> rfl

/-! ### Numbers -/

theorem Typed.eval_int (h : t.Typed .int) (hI : I.WellSorted) : ∃ n, t.eval I = .int n := by
  have hv := hasSort_eval hI h.wellSorted
  rw [h.sort_eq] at hv
  exact Value.hasSort_int.mp hv

theorem Typed.eval_real (h : t.Typed .real) (hI : I.WellSorted) : ∃ q, t.eval I = .real q := by
  have hv := hasSort_eval hI h.wellSorted
  rw [h.sort_eq] at hv
  exact Value.hasSort_real.mp hv

theorem Typed.isInt (h : t.Typed .int) : t.isInt = true := by
  rw [Term.isInt, h.sort_eq]
  rfl

theorem Typed.isReal (h : t.Typed .real) : t.isReal = true := by
  rw [Term.isReal, h.sort_eq]
  rfl

theorem typed_int (n : Int) : (Term.int n).Typed .int := .node rfl (by simp [operands])

theorem typed_real (q : Rat) : (Term.real q).Typed .real := .node rfl (by simp [operands])

theorem fits_arith (op : ArithOp) (hs : sort = .int ∨ sort = .real) (ha : a.Typed sort)
    (hb : b.Typed sort) : (Term.arith op a b).fits = true := by
  rcases hs with rfl | rfl
  · simp [fits, ha.isInt, hb.isInt]
  · simp [fits, ha.isReal, hb.isReal]

/-- Only arrays cannot be asked whether they are a certain number. -/
theorem askForNumber_eq (hs : sort = .int ∨ sort = .real) (h : t.Typed sort) :
    askForNumber t = .ok () := by
  cases t with
  | constArray index v =>
    have := h.sort_eq
    rcases hs with rfl | rfl <;> cases this
  | _ => rfl

theorem builds_arith (op : ArithOp) (hs : sort = .int ∨ sort = .real) (ha : a.Typed sort)
    (hb : b.Typed sort) :
    Builds (checked (.arith op a b)) sort fun I => Value.arith op (a.eval I) (b.eval I) := by
  have h := builds_checked (fits_arith op hs ha hb)
    (by simpa [operands] using ⟨ha.wellSorted, hb.wellSorted⟩)
  rw [Term.sort, ha.sort_eq] at h
  exact h.congr fun I _ => by rw [eval]

/-- Arithmetic on operands of one sort. A division by a constant is a multiplication. -/
theorem builds_mkArith (op : ArithOp) (hs : sort = .int ∨ sort = .real) (ha : a.Typed sort)
    (hb : b.Typed sort) :
    Builds (mkArith op a b) sort fun I => Value.arith op (a.eval I) (b.eval I) := by
  unfold mkArith
  split
  · rename_i q
    obtain rfl : SmtSort.real = sort := hb.sort_eq
    split
    · exact builds_arith .div hs ha hb
    · refine (builds_arith .mul hs ha (typed_real _)).congr fun I hI => ?_
      obtain ⟨p, hp⟩ := ha.eval_real hI
      rw [hp, eval, eval, Value.arith, Value.arith, div_eq_mul_one_div p q]
  · rw [askForNumber_eq hs hb]
    exact builds_arith .div hs ha hb
  · exact builds_arith op hs ha hb

theorem builds_mkOrder (op : NumOrder) (hs : sort = .int ∨ sort = .real) (ha : a.Typed sort)
    (hb : b.Typed sort) :
    Builds (mkOrder op a b) .bool fun I => .bool (Value.order op (a.eval I) (b.eval I)) := by
  refine (builds_checked ?_ (by simpa [operands] using ⟨ha.wellSorted, hb.wellSorted⟩)).congr ?_
  · exact fits_arith .add hs ha hb
  · exact fun I _ => by rw [eval]

/-- A comparison of numbers of one sort. -/
def compareValues : Comparison → Value → Value → Bool
  | .le, v, w => Value.order .le v w
  | .lt, v, w => Value.order .lt v w
  | .ge, v, w => Value.order .le w v
  | .gt, v, w => Value.order .lt w v

theorem builds_mkComparison (comparison : Comparison) (hs : sort = .int ∨ sort = .real)
    (ha : a.Typed sort) (hb : b.Typed sort) :
    Builds (mkComparison comparison a b) .bool
      fun I => .bool (compareValues comparison (a.eval I) (b.eval I)) := by
  cases comparison with
  | le => exact builds_mkOrder .le hs ha hb
  | lt => exact builds_mkOrder .lt hs ha hb
  | ge => exact builds_mkOrder .le hs hb ha
  | gt => exact builds_mkOrder .lt hs hb ha

theorem builds_mkToReal (hs : sort = .int ∨ sort = .real) (ha : a.Typed sort) :
    Builds (mkToReal a) .real fun I => (a.eval I).toReal := by
  unfold mkToReal
  rw [ha.sort_eq]
  rcases hs with rfl | rfl
  · split
    · rename_i hreal
      cases hreal
    · exact (Builds.ok (typed_real _)).congr fun I _ => by simp [eval, Value.toReal]
    · have hoperand := ha.wellSorted
      refine (builds_checked (t := .toReal _) ha.isInt (by simpa [operands])).congr ?_
      exact fun I _ => by rw [eval]
    · rename_i hint _
      exact absurd rfl hint
  · refine (Builds.ok ha).congr fun I hI => ?_
    obtain ⟨q, hq⟩ := ha.eval_real hI
    rw [hq]
    rfl

/-- Equality of terms of one sort, whatever sort it is. -/
theorem builds_mkSame_equals (ha : a.Typed sort) (hb : b.Typed sort) :
    Builds (mkSame a b) .bool fun I => .bool ((a.eval I).equals (b.eval I)) := by
  have hoperands : ∀ t ∈ [a, b], t.WellSorted := by simpa using ⟨ha.wellSorted, hb.wellSorted⟩
  unfold mkSame
  split
  · rename_i hbool
    have hfits : (Term.iff a b).fits = true := by
      simp [fits, isBool, hb.sort_eq, ← ha.sort_eq, beq_iff_eq.mp hbool]
    exact (builds_checked hfits hoperands).congr fun I _ => by rw [eval]
  · rename_i hbool
    have hfits : (Term.equal a b).fits = true := by
      simp [fits, hbool, ha.sort_eq, hb.sort_eq]
    exact (builds_checked hfits hoperands).congr fun I _ => by rw [eval]

/-- Equality of Booleans or of numbers of one sort. -/
theorem builds_mkSame (hs : sort = .bool ∨ sort = .int ∨ sort = .real) (ha : a.Typed sort)
    (hb : b.Typed sort) :
    Builds (mkSame a b) .bool fun I => .bool (decide (a.eval I = b.eval I)) := by
  refine (builds_mkSame_equals ha hb).congr fun I hI => ?_
  rcases hs with rfl | rfl | rfl
  · rw [ha.eval_bool hI, hb.eval_bool hI]
    rfl
  · obtain ⟨m, hm⟩ := ha.eval_int hI
    obtain ⟨n, hn⟩ := hb.eval_int hI
    rw [hm, hn]
    rfl
  · obtain ⟨p, hp⟩ := ha.eval_real hI
    obtain ⟨q, hq⟩ := hb.eval_real hI
    rw [hp, hq]
    rfl

theorem builds_mkIte (hc : c.Typed .bool) (ha : a.Typed sort) (hb : b.Typed sort) :
    Builds (mkIte c a b) sort
      fun I => if (c.eval I).isTrue then a.eval I else b.eval I := by
  have h := builds_checked (t := .ite c a b)
    (by simp [fits, hc.isBool, ha.sort_eq, hb.sort_eq])
    (by simpa [operands] using ⟨hc.wellSorted, ha.wellSorted, hb.wellSorted⟩)
  rw [Term.sort, ha.sort_eq] at h
  exact h.congr fun I _ => by rw [eval]

/-- The number with the other sign. -/
def negated : Value → Value
  | .int n => .int (-n)
  | .real q => .real (-q)
  | other => other

theorem builds_mkNegative (hs : sort = .int ∨ sort = .real) (ha : a.Typed sort) :
    Builds (mkNegative a) sort fun I => negated (a.eval I) := by
  unfold mkNegative
  split
  · obtain rfl : SmtSort.int = sort := ha.sort_eq
    exact Builds.ok (typed_int _)
  · obtain rfl : SmtSort.real = sort := ha.sort_eq
    exact Builds.ok (typed_real _)
  · rw [askForNumber_eq hs ha, ha.sort_eq]
    rcases hs with rfl | rfl
    · refine (builds_mkArith .mul (.inl rfl) (typed_int (-1)) ha).mapError.congr fun I hI => ?_
      obtain ⟨n, hn⟩ := ha.eval_int hI
      simp [hn, eval, Value.arith, negated]
    · refine (builds_mkArith .mul (.inr rfl) (typed_real (-1)) ha).mapError.congr fun I hI => ?_
      obtain ⟨q, hq⟩ := ha.eval_real hI
      simp [hq, eval, Value.arith, negated]

theorem builds_liftToReal (hs : sort = .int ∨ sort = .real) (ha : a.Typed sort) :
    Builds (liftToReal a) .real fun I => (a.eval I).toReal := by
  unfold liftToReal
  rcases hs with rfl | rfl
  · rw [if_pos ha.isInt]
    exact builds_mkToReal (.inl rfl) ha
  · rw [if_neg (by simp [Term.isInt, ha.sort_eq])]
    refine (Builds.ok ha).congr fun I hI => ?_
    obtain ⟨q, hq⟩ := ha.eval_real hI
    rw [hq]
    rfl

theorem builds_mkRealDiv {sort' : SmtSort} (hs : sort = .int ∨ sort = .real)
    (hs' : sort' = .int ∨ sort' = .real) (ha : a.Typed sort) (hb : b.Typed sort') :
    Builds (mkRealDiv a b) .real
      fun I => Value.arith .div (a.eval I).toReal (b.eval I).toReal := by
  refine (builds_liftToReal hs ha).bind fun left hleft hlval => ?_
  refine (builds_liftToReal hs' hb).bind fun right hright hrval => ?_
  refine (builds_mkArith .div (.inr rfl) hleft hright).congr fun I hI => ?_
  rw [hlval I hI, hrval I hI]

/-- A step that cannot be refused for the sorts or the number of its operands. -/
theorem Builds.monadLift {x : Except Fault Term} (h : Builds x sort value) :
    Builds (MonadLiftT.monadLift x : Except Refusal Term) sort value :=
  h.mapError

theorem builds_mkMod (ha : a.Typed .int) (hb : b.Typed .int) :
    Builds (mkMod a b) .int fun I =>
      Value.arith .sub (a.eval I)
        (Value.arith .mul (b.eval I) (Value.arith .div (a.eval I) (b.eval I))) := by
  unfold mkMod
  rw [if_pos (by simp [ha.isInt, hb.isInt])]
  refine (builds_mkArith .div (.inl rfl) ha hb).monadLift.bind fun quotient hq hqval => ?_
  refine (builds_mkArith .mul (.inl rfl) hb hq).monadLift.bind fun product hp hpval => ?_
  refine (builds_mkArith .sub (.inl rfl) ha hp).monadLift.congr fun I hI => ?_
  rw [hpval I hI, hqval I hI]

theorem builds_mkAbs (ha : a.Typed .int) :
    Builds (mkAbs a) .int fun I =>
      if Value.order .le (.int 0) (a.eval I) then a.eval I else negated (a.eval I) := by
  unfold mkAbs
  rw [ha.sort_eq]
  refine (builds_mkComparison .ge (.inl rfl) ha (typed_int 0)).monadLift.bind fun c hc hcval => ?_
  refine (builds_mkNegative (.inl rfl) ha).bind fun n hn hnval => ?_
  refine (builds_mkIte hc ha hn).monadLift.congr fun I hI => ?_
  rw [hcval I hI, hnval I hI]
  rfl

end Term

end SmtScript
