import SmtScript.Proofs.Standard.Values

/-!
Operators build what the standard says.

`Standard.builds_apply`: operands that fit a signature of the standard are accepted, and the term
has the sort of the signature and the standard value. Operands are lifted in pairs by the operators
that make chains, and all at once by `distinct` and `ite`.
-/

namespace SmtScript

namespace Standard

open Term

/-- The operator of terms that an operator is. -/
def Op.operator : Op → Operator
  | .not => .not
  | .implies => .implies
  | .and => .and
  | .or => .or
  | .xor => .xor
  | .equal => .equal
  | .distinct => .distinct
  | .ite => .ite
  | .add => .add
  | .sub => .sub
  | .mul => .mul
  | .realDiv => .realDiv
  | .intDiv => .intDiv
  | .mod => .mod
  | .abs => .abs
  | .toReal => .toReal
  | .le => .compare .le
  | .lt => .compare .lt
  | .ge => .compare .ge
  | .gt => .compare .gt

/-- Division that yields zero, and the dividend as the remainder, when the divisor is zero. -/
def ZeroDivision.plain : ZeroDivision := ⟨fun _ => 0, fun _ => 0, fun a => a⟩

variable {sort : SmtSort} {sorts : List SmtSort} {a b t : Term} {ts : List Term}
variable {I : Interpretation}

/-! ### Operands -/

/-- The values of several terms. -/
def valuesOf (I : Interpretation) (ts : List Term) : List Value := ts.map fun t => t.eval I

/-- Well-sorted terms with the given sorts. -/
structure Operands (ts : List Term) (sorts : List SmtSort) : Prop where
  wellSorted : ∀ t ∈ ts, t.WellSorted
  sorts_eq : ts.map Term.sort = sorts

theorem Operands.typed (h : Operands ts sorts) (hall : ∀ s ∈ sorts, s = sort) :
    ∀ t ∈ ts, t.Typed sort := by
  intro t ht
  refine ⟨h.wellSorted t ht, hall _ ?_⟩
  rw [← h.sorts_eq]
  exact List.mem_map_of_mem ht

theorem Operands.length_eq (h : Operands ts sorts) : ts.length = sorts.length := by
  rw [← h.sorts_eq, List.length_map]

theorem Numeric.isNumeric (h : Numeric sorts sort) : ∀ s ∈ sorts, IsNumeric s := by
  cases h with
  | int h => exact fun s hs => .inl (h s hs)
  | real h _ => exact h

theorem Operands.isNumeric (h : Operands ts sorts) (hn : Numeric sorts sort) :
    ∀ t ∈ ts, t.WellSorted ∧ IsNumeric t.sort := by
  intro t ht
  refine ⟨h.wellSorted t ht, hn.isNumeric _ ?_⟩
  rw [← h.sorts_eq]
  exact List.mem_map_of_mem ht

theorem isNumber_eval (ht : t.WellSorted) (hs : IsNumeric t.sort) (hI : I.WellSorted) :
    IsNumber (t.eval I) := by
  rcases hs with hs | hs
  · obtain ⟨n, hn⟩ := Typed.eval_int ⟨ht, hs⟩ hI
    exact hn ▸ .int n
  · obtain ⟨q, hq⟩ := Typed.eval_real ⟨ht, hs⟩ hI
    exact hq ▸ .real q

theorem isNumber_valuesOf (h : ∀ t ∈ ts, t.WellSorted ∧ IsNumeric t.sort) (hI : I.WellSorted) :
    ∀ v ∈ valuesOf I ts, IsNumber v := by
  intro v hv
  obtain ⟨t, ht, rfl⟩ := List.mem_map.mp hv
  exact isNumber_eval (h t ht).1 (h t ht).2 hI

theorem eq_cons_cons_of_length {α : Type} {xs : List α} (h : 2 ≤ xs.length) :
    ∃ x y rest, xs = x :: y :: rest := by
  match xs, h with
  | x :: y :: rest, _ => exact ⟨x, y, rest, rfl⟩

/-! ### Lifting -/

theorem typed_of_isReal (h : ∀ t ∈ ts, t.WellSorted ∧ IsNumeric t.sort)
    (hint : ts.any Term.isInt = false) : ∀ t ∈ ts, t.Typed .real := by
  intro t ht
  refine ⟨(h t ht).1, (h t ht).2.resolve_left fun hs => ?_⟩
  have := List.any_eq_false.mp hint t ht
  simp [Term.isInt, hs] at this

/-- Lifting each of several numbers. -/
theorem mapM_liftToReal (h : ∀ t ∈ ts, t.WellSorted ∧ IsNumeric t.sort) :
    ∃ us, ts.mapM liftToReal = .ok us ∧ us.length = ts.length ∧ (∀ u ∈ us, u.Typed .real) ∧
      ∀ I : Interpretation, I.WellSorted →
        valuesOf I us = (valuesOf I ts).map fun v => .real (number v) := by
  induction ts with
  | nil => exact ⟨[], rfl, rfl, by simp, by simp [valuesOf]⟩
  | cons t rest ih =>
    obtain ⟨us, hus, hlen, husort, huval⟩ := ih fun u hu => h u (by simp [hu])
    have ht := h t (by simp)
    obtain ⟨u, hu, hut, hval⟩ := builds_liftToReal (a := t) ht.2 ⟨ht.1, rfl⟩
    refine ⟨u :: us, by rw [List.mapM_cons, hu, hus]; rfl, by simp [hlen],
      by simpa using ⟨hut, husort⟩, ?_⟩
    intro I hI
    have hnumber : (t.eval I).toReal = .real (number (t.eval I)) := by
      generalize hv : t.eval I = v
      have hnum : IsNumber v := hv ▸ isNumber_eval ht.1 ht.2 hI
      cases hnum <;> rfl
    simpa [valuesOf, hval I hI, hnumber] using huval I hI

/-- Operands that go together become operands of one sort, whose values are unified. -/
theorem liftMixed_ok (h : Operands ts sorts) (hc : Common sorts sort) :
    ∃ us, liftMixed ts = .ok us ∧ us.length = ts.length ∧ (∀ u ∈ us, u.Typed sort) ∧
      ∀ I : Interpretation, I.WellSorted → valuesOf I us = unified (valuesOf I ts) := by
  have hsame (htyped : ∀ t ∈ ts, t.Typed sort) (hmix : mixesNumbers ts = false)
      (hval : ∀ I : Interpretation, I.WellSorted → unified (valuesOf I ts) = valuesOf I ts) :
      ∃ us, liftMixed ts = .ok us ∧ us.length = ts.length ∧ (∀ u ∈ us, u.Typed sort) ∧
        ∀ I : Interpretation, I.WellSorted → valuesOf I us = unified (valuesOf I ts) :=
    ⟨ts, by rw [liftMixed, hmix]; rfl, rfl, htyped, fun I hI => (hval I hI).symm⟩
  have hnotReal {s : SmtSort} (htyped : ∀ t ∈ ts, t.Typed s) (hs : s ≠ .real) :
      mixesNumbers ts = false := by
    have : ts.any Term.isReal = false := by
      simpa [Term.isReal] using fun t ht => (htyped t ht).sort_eq ▸ hs
    rw [mixesNumbers, this, Bool.false_and]
  cases hc with
  | bool hall =>
    have htyped := h.typed hall
    refine hsame htyped (hnotReal htyped (by decide)) fun I hI => unified_eq_self fun v hv => ?_
    obtain ⟨t, ht, rfl⟩ := List.mem_map.mp hv
    rw [(htyped t ht).eval_bool hI]
    rfl
  | numeric hn =>
    cases hn with
    | int hall =>
      have htyped := h.typed hall
      refine hsame htyped (hnotReal htyped (by decide)) fun I hI => unified_eq_self fun v hv => ?_
      obtain ⟨t, ht, rfl⟩ := List.mem_map.mp hv
      obtain ⟨n, hn⟩ := (htyped t ht).eval_int hI
      rw [hn]
      rfl
    | real hall hreal =>
      have hnumeric := h.isNumeric (.real hall hreal)
      obtain ⟨r, hr, hrsort⟩ : ∃ r ∈ ts, r.Typed .real := by
        rw [← h.sorts_eq] at hreal
        obtain ⟨r, hr, hrsort⟩ := List.mem_map.mp hreal
        exact ⟨r, hr, h.wellSorted r hr, hrsort⟩
      have hsome : ∀ I : Interpretation, I.WellSorted → ∃ v ∈ valuesOf I ts, isReal v = true := by
        intro I hI
        obtain ⟨q, hq⟩ := hrsort.eval_real hI
        exact ⟨r.eval I, List.mem_map_of_mem hr, by rw [hq]; rfl⟩
      have hany : ts.any Term.isReal = true := List.any_eq_true.mpr ⟨r, hr, hrsort.isReal⟩
      cases hint : ts.any Term.isInt with
      | false =>
        have htyped := typed_of_isReal hnumeric hint
        refine hsame htyped (by rw [mixesNumbers, hint, Bool.and_false]) fun I hI => ?_
        rw [unified_eq_map (hsome I hI)]
        refine (List.map_congr_left fun v hv => ?_).trans (List.map_id _)
        obtain ⟨t, ht, rfl⟩ := List.mem_map.mp hv
        obtain ⟨q, hq⟩ := (htyped t ht).eval_real hI
        rw [hq]
        rfl
      | true =>
        obtain ⟨us, hus, hlen, husort, huval⟩ := mapM_liftToReal hnumeric
        refine ⟨us, ?_, hlen, husort, fun I hI => ?_⟩
        · rw [liftMixed, mixesNumbers, hany, hint]
          exact hus
        · rw [huval I hI, unified_eq_map (hsome I hI)]

/-- Two operands that go together, lifted where they mix. -/
theorem builds_lifted {build : Term → Term → Except Fault Term} {f : Value → Value → Value}
    {result : SmtSort} (h : Operands [a, b] sorts) (hc : Common sorts sort)
    (hbuild : ∀ {a b}, a.Typed sort → b.Typed sort →
      Builds (build a b) result fun I => f (a.eval I) (b.eval I)) :
    Builds (lifted build a b) result fun I => onUnified f (a.eval I) (b.eval I) := by
  obtain ⟨us, hus, hlen, husort, huval⟩ := liftMixed_ok h hc
  obtain ⟨u, v, rfl⟩ := List.length_eq_two.mp hlen
  unfold lifted
  rw [hus]
  refine (hbuild (husort u (by simp)) (husort v (by simp))).congr fun I hI => ?_
  have hvalues : [u.eval I, v.eval I] = unified [a.eval I, b.eval I] := huval I hI
  rw [onUnified, ← hvalues]

/-! ### Chains -/

/-- The sort of two numbers together. -/
def joined (s s' : SmtSort) : SmtSort := if s = s' then s else .real

theorem numeric_joined {s s' : SmtSort} (hs : IsNumeric s) (hs' : IsNumeric s') :
    Numeric [s, s'] (joined s s') := by
  rcases hs with rfl | rfl <;> rcases hs' with rfl | rfl
  · exact .int (by simp)
  · exact .real (by simp [IsNumeric]) (by simp)
  · exact .real (by simp [IsNumeric]) (by simp)
  · exact .real (by simp [IsNumeric]) (by simp)

theorem isNumeric_joined {s : SmtSort} (hs : IsNumeric s) (s' : SmtSort) :
    IsNumeric (joined s s') := by
  unfold joined
  split
  · exact hs
  · exact .inr rfl

/-- Joining the sorts of numbers from the left gives the sort of all of them. -/
theorem foldl_joined {s : SmtSort} (h : Numeric (s :: sorts) sort) :
    sorts.foldl joined s = sort := by
  induction sorts generalizing s with
  | nil =>
    cases h with
    | int h => exact h s (by simp)
    | real _ hreal => exact (List.mem_singleton.mp hreal).symm
  | cons s' rest ih =>
    refine ih ?_
    have hs := h.isNumeric s (by simp)
    have hs' := h.isNumeric s' (by simp)
    have hrest : ∀ u ∈ rest, IsNumeric u := fun u hu => h.isNumeric u (by simp [hu])
    have hall : ∀ u ∈ joined s s' :: rest, IsNumeric u := by
      simpa using ⟨isNumeric_joined hs s', hrest⟩
    cases h with
    | int h =>
      have hints : s = .int ∧ s' = .int := ⟨h s (by simp), h s' (by simp)⟩
      obtain ⟨rfl, rfl⟩ := hints
      exact .int fun u hu => h u (by simpa [joined] using hu)
    | real _ hreal =>
      refine .real hall ?_
      rcases hs with rfl | rfl <;> rcases hs' with rfl | rfl <;> simp_all [joined]

/-- A chain from the left, whose steps are known by the sorts of their operands. -/
theorem builds_leftChain (build : Term → Term → Except Fault Term) (P : SmtSort → Prop)
    (join : SmtSort → SmtSort → SmtSort) {f : Value → Value → Value}
    (hjoin : ∀ {s s'}, P s → P s' → P (join s s'))
    (hbuild : ∀ {a b}, a.WellSorted → b.WellSorted → P a.sort → P b.sort →
      Builds (build a b) (join a.sort b.sort) fun I => f (a.eval I) (b.eval I))
    (ha : a.WellSorted) (hP : P a.sort) (hts : ∀ t ∈ ts, t.WellSorted ∧ P t.sort) :
    Builds (leftChain build a ts) ((ts.map Term.sort).foldl join a.sort)
      fun I => (valuesOf I ts).foldl f (a.eval I) := by
  induction ts generalizing a with
  | nil => exact Builds.ok ⟨ha, rfl⟩
  | cons t rest ih =>
    have ht := hts t (by simp)
    refine (hbuild ha ht.1 hP ht.2).bind fun u hu huval => ?_
    have hPu : P u.sort := hu.sort_eq ▸ hjoin hP ht.2
    have hrest := ih hu.wellSorted hPu fun t ht => hts t (by simp [ht])
    rw [hu.sort_eq] at hrest
    exact hrest.congr fun I hI => by rw [huval I hI]; rfl

/-- A conjunction of terms that are all true exactly if a statement holds. -/
theorem builds_conjunction {P : Interpretation → Prop} [∀ I, Decidable (P I)]
    (hts : ∀ t ∈ ts, t.Typed .bool)
    (h : ∀ I : Interpretation, I.WellSorted → ((∀ t ∈ ts, (t.eval I).isTrue = true) ↔ P I)) :
    Builds (mkAnd ts) .bool fun I => .bool (decide (P I)) := by
  refine (builds_mkAnd hts).congr fun I hI => ?_
  rw [Value.bool.injEq, Bool.eq_iff_iff, List.all_eq_true, decide_eq_true_iff]
  exact h I hI

/-- Each two neighbours of a list. -/
theorem neighbours_ok {build : Term → Term → Except Fault Term} {P : SmtSort → Prop}
    {related : Value → Value → Prop} [DecidableRel related]
    (hbuild : ∀ {a b}, a.WellSorted → b.WellSorted → P a.sort → P b.sort →
      Builds (build a b) .bool fun I => .bool (decide (related (a.eval I) (b.eval I))))
    (hts : ∀ t ∈ ts, t.WellSorted ∧ P t.sort) :
    ∃ us, neighbours build ts = .ok us ∧ (∀ u ∈ us, u.Typed .bool) ∧
      ∀ I : Interpretation, I.WellSorted →
        ((∀ u ∈ us, (u.eval I).isTrue = true) ↔ (valuesOf I ts).IsChain related) := by
  induction ts with
  | nil => exact ⟨[], rfl, by simp, by simp [valuesOf]⟩
  | cons a rest ih =>
    cases rest with
    | nil => exact ⟨[], rfl, by simp, by simp [valuesOf]⟩
    | cons b rest =>
      have ha := hts a (by simp)
      have hb := hts b (by simp)
      obtain ⟨us, hus, husort, huval⟩ := ih fun t ht => hts t (List.mem_cons_of_mem a ht)
      obtain ⟨u, hu, hut, hval⟩ := hbuild ha.1 hb.1 ha.2 hb.2
      refine ⟨u :: us, by rw [neighbours, hu, hus]; rfl, by simpa using ⟨hut, husort⟩, ?_⟩
      intro I hI
      have hrest := huval I hI
      simp only [valuesOf, List.map_cons, List.isChain_cons_cons, List.forall_mem_cons] at hrest ⊢
      rw [hrest, hval I hI]
      simp [Value.isTrue]

theorem builds_chained {build : Term → Term → Except Fault Term} (P : SmtSort → Prop)
    (related : Value → Value → Prop) [DecidableRel related]
    (hbuild : ∀ {a b}, a.WellSorted → b.WellSorted → P a.sort → P b.sort →
      Builds (build a b) .bool fun I => .bool (decide (related (a.eval I) (b.eval I))))
    (hts : ∀ t ∈ ts, t.WellSorted ∧ P t.sort) :
    Builds (chained build ts) .bool
      fun I => .bool (decide ((valuesOf I ts).IsChain related)) := by
  obtain ⟨us, hus, husort, huval⟩ := neighbours_ok hbuild hts
  unfold chained
  rw [hus]
  exact builds_conjunction husort huval

/-- Implications associate to the right. -/
theorem builds_impliesChain (ha : a.Typed .bool) (hts : ∀ t ∈ ts, t.Typed .bool) :
    Builds (impliesChain a ts) .bool
      fun I => .bool <|
        fromRight (fun p q => !p || q) ((valuesOf I (a :: ts)).map Value.isTrue) := by
  induction ts generalizing a with
  | nil => exact (Builds.ok ha).congr fun I hI => ha.eval_bool hI
  | cons t rest ih =>
    refine (ih (hts t (by simp)) fun u hu => hts u (by simp [hu])).bind fun u hu huval => ?_
    refine (builds_mkImplies ha hu).congr fun I hI => ?_
    rw [huval I hI]
    rfl

/-! ### Operators -/

theorem Operands.pair (ha : a.WellSorted) (hb : b.WellSorted) :
    Operands [a, b] [a.sort, b.sort] :=
  ⟨by simpa using ⟨ha, hb⟩, rfl⟩

theorem Operands.uncons (h : Operands ts (sort :: sorts)) :
    ∃ a rest, ts = a :: rest ∧ a.Typed sort ∧ Operands rest sorts := by
  obtain ⟨a, rest, rfl, hsort, hsorts⟩ := List.map_eq_cons_iff.mp h.sorts_eq
  exact ⟨a, rest, rfl, ⟨h.wellSorted a (by simp), hsort⟩,
    fun t ht => h.wellSorted t (by simp [ht]), hsorts⟩

theorem Operands.one (h : Operands ts [sort]) : ∃ a, ts = [a] ∧ a.Typed sort := by
  obtain ⟨a, rest, rfl, ha, hrest⟩ := h.uncons
  obtain rfl := List.map_eq_nil_iff.mp hrest.sorts_eq
  exact ⟨a, rfl, ha⟩

theorem Operands.two {sort' : SmtSort} (h : Operands ts [sort, sort']) :
    ∃ a b, ts = [a, b] ∧ a.Typed sort ∧ b.Typed sort' := by
  obtain ⟨a, rest, rfl, ha, hrest⟩ := h.uncons
  obtain ⟨b, rfl, hb⟩ := hrest.one
  exact ⟨a, b, rfl, ha, hb⟩

/-- Arithmetic on several numbers. -/
theorem builds_arithChain (op : ArithOp) {onInt : Int → Int → Int} {onReal : Rat → Rat → Rat}
    (hint : ∀ a b, Value.arith op (.int a) (.int b) = .int (onInt a b))
    (hreal : ∀ a b, Value.arith op (.real a) (.real b) = .real (onReal a b))
    (hom : ∀ a b, ((onInt a b : Int) : Rat) = onReal a b)
    (h : Operands (a :: ts) sorts) (hn : Numeric sorts sort) :
    Builds (leftChain (lifted (mkArith op)) a ts) sort
      fun I => combined onInt onReal (valuesOf I (a :: ts)) := by
  have hall := h.isNumeric hn
  have ha := hall a (by simp)
  have hts : ∀ t ∈ ts, t.WellSorted ∧ IsNumeric t.sort := fun t ht => hall t (by simp [ht])
  have hsort : (ts.map Term.sort).foldl joined a.sort = sort := by
    refine foldl_joined ?_
    rw [← List.map_cons, h.sorts_eq]
    exact hn
  have hbuilds := builds_leftChain (lifted (mkArith op)) IsNumeric joined
    (f := onUnified (Value.arith op)) (fun hs _ => isNumeric_joined hs _)
    (fun ha hb hs hs' => builds_lifted (.pair ha hb) (.numeric (numeric_joined hs hs'))
      (builds_mkArith op (isNumeric_joined hs _))) ha.1 ha.2 hts
  rw [hsort] at hbuilds
  refine hbuilds.congr fun I hI => ?_
  have hvalues := isNumber_valuesOf hts hI
  have hpaired : ∀ (vs : List Value) (v : Value), IsNumber v → (∀ w ∈ vs, IsNumber w) →
      vs.foldl (onUnified (Value.arith op)) v = vs.foldl (paired onInt onReal) v := by
    intro vs
    induction vs with
    | nil => exact fun _ _ _ => rfl
    | cons w rest ih =>
      intro v hv hvs
      rw [List.foldl_cons, List.foldl_cons, onUnified_arith hint hreal hv (hvs w (by simp))]
      exact ih _ isNumber_paired fun u hu => hvs u (by simp [hu])
  have hfirst := isNumber_eval ha.1 ha.2 hI
  rw [hpaired _ _ hfirst hvalues, foldl_paired hom _ _ hfirst hvalues]
  rfl

/-- A comparison of several numbers. -/
theorem builds_compareChain {comparison : Comparison} {related : Rat → Rat → Prop}
    [DecidableRel related]
    (hrelated : ∀ {v w}, IsNumber v → IsNumber w →
      onUnified (fun v w => .bool (compareValues comparison v w)) v w =
        .bool (decide (related (number v) (number w))))
    (h : Operands ts sorts) (hn : Numeric sorts sort) :
    Builds (chained (lifted (mkComparison comparison)) ts) .bool
      fun I => .bool (decide (((valuesOf I ts).map number).IsChain related)) := by
  refine (builds_chained IsNumeric (fun v w => related (number v) (number w)) ?_
    (h.isNumeric hn)).congr ?_
  · intro a b ha hb hs hs'
    refine (builds_lifted (f := fun v w => .bool (compareValues comparison v w)) (.pair ha hb)
      (.numeric (numeric_joined hs hs'))
      (builds_mkComparison comparison (isNumeric_joined hs _))).congr fun I hI => ?_
    exact hrelated (isNumber_eval ha hs hI) (isNumber_eval hb hs' hI)
  · intro I _
    simp [List.isChain_map]

/-- What the numbers of two values say about a comparison of them. -/
theorem onUnified_compare {comparison : Comparison} {related : Rat → Rat → Prop}
    [DecidableRel related]
    (hint : ∀ a b : Int, compareValues comparison (.int a) (.int b) = decide (related a b))
    (hreal : ∀ a b, compareValues comparison (.real a) (.real b) = decide (related a b))
    {v w : Value} (hv : IsNumber v) (hw : IsNumber w) :
    onUnified (fun v w => .bool (compareValues comparison v w)) v w =
      .bool (decide (related (number v) (number w))) := by
  cases hv <;> cases hw <;> simp [onUnified, unified, isReal, number, hint, hreal] <;> rfl

/-- Equality of several operands, each with the next one. -/
theorem builds_equalChain (h : Operands ts sorts) (hc : Common sorts sort) :
    Builds (chained (lifted mkSame) ts) .bool
      fun I => .bool (decide ((unified (valuesOf I ts)).IsChain (· = ·))) := by
  cases hc with
  | bool hall =>
    have htyped := h.typed hall
    refine (builds_chained (· = .bool) (· = ·) ?_
      fun t ht => ⟨(htyped t ht).wellSorted, (htyped t ht).sort_eq⟩).congr fun I hI => ?_
    · intro a b ha hb hs hs'
      refine (builds_lifted (f := fun v w => .bool (decide (v = w))) (.pair ha hb)
        (.bool (by simp [hs, hs'])) (builds_mkSame (.inl rfl))).congr fun I hI => ?_
      rw [Typed.eval_bool ⟨ha, hs⟩ hI, Typed.eval_bool ⟨hb, hs'⟩ hI, onUnified_bool]
    · rw [unified_eq_self]
      intro v hv
      obtain ⟨t, ht, rfl⟩ := List.mem_map.mp hv
      rw [(htyped t ht).eval_bool hI]
      rfl
  | numeric hn =>
    have hall := h.isNumeric hn
    refine (builds_chained IsNumeric (fun v w => number v = number w) ?_
      hall).congr fun I hI => ?_
    · intro a b ha hb hs hs'
      refine (builds_lifted (f := fun v w => .bool (decide (v = w))) (.pair ha hb)
        (.numeric (numeric_joined hs hs'))
        (builds_mkSame (.inr (isNumeric_joined hs _)))).congr fun I hI => ?_
      exact onUnified_eq (isNumber_eval ha hs hI) (isNumber_eval hb hs' hI)
    · simp [isChain_eq_unified (isNumber_valuesOf hall hI), List.isChain_map]

/-- That a term differs from each of several others. -/
theorem differAll_ok (hs : sort = .bool ∨ sort = .int ∨ sort = .real) (ha : a.Typed sort)
    (hts : ∀ t ∈ ts, t.Typed sort) :
    ∃ us, differAll a ts = .ok us ∧ (∀ u ∈ us, u.Typed .bool) ∧
      ∀ I : Interpretation, I.WellSorted →
        ((∀ u ∈ us, (u.eval I).isTrue = true) ↔ ∀ v ∈ valuesOf I ts, a.eval I ≠ v) := by
  induction ts with
  | nil => exact ⟨[], rfl, by simp, by simp [valuesOf]⟩
  | cons t rest ih =>
    obtain ⟨us, hus, husort, huval⟩ := ih fun u hu => hts u (by simp [hu])
    obtain ⟨u, hu, hut, hval⟩ := (builds_mkSame hs ha (hts t (by simp))).bind
      (f := mkNot) fun same hsame hval => (builds_mkNot hsame).congr fun I hI => by rw [hval I hI]
    refine ⟨u :: us, ?_, by simpa using ⟨hut, husort⟩, ?_⟩
    · have hbind : differAll a (t :: rest) = (mkSame a t >>= mkNot) >>= fun first =>
          differAll a rest >>= fun later => .ok (first :: later) := by
        rw [differAll, bind_assoc]
        rfl
      rw [hbind, hu, hus]
      rfl
    · intro I hI
      have hrest := huval I hI
      simp only [valuesOf, List.map_cons, List.forall_mem_cons] at hrest ⊢
      rw [hrest, hval I hI]
      simp [Value.isTrue]

theorem differences_ok (hs : sort = .bool ∨ sort = .int ∨ sort = .real)
    (hts : ∀ t ∈ ts, t.Typed sort) :
    ∃ us, differences ts = .ok us ∧ (∀ u ∈ us, u.Typed .bool) ∧
      ∀ I : Interpretation, I.WellSorted →
        ((∀ u ∈ us, (u.eval I).isTrue = true) ↔ (valuesOf I ts).Pairwise (· ≠ ·)) := by
  induction ts with
  | nil => exact ⟨[], rfl, by simp, by simp [valuesOf]⟩
  | cons t rest ih =>
    have hrest : ∀ u ∈ rest, u.Typed sort := fun u hu => hts u (by simp [hu])
    obtain ⟨us, hus, husort, huval⟩ := ih hrest
    obtain ⟨first, hfirst, hfsort, hfval⟩ := differAll_ok hs (hts t (by simp)) hrest
    refine ⟨first ++ us, by rw [differences, hfirst, hus]; rfl, ?_, ?_⟩
    · intro u hu
      rcases List.mem_append.mp hu with hu | hu
      · exact hfsort u hu
      · exact husort u hu
    · intro I hI
      have hlater := huval I hI
      have hnow := hfval I hI
      simp only [valuesOf, List.map_cons, List.pairwise_cons, List.forall_mem_append] at *
      rw [hlater, hnow]

theorem isScalar_of_common (h : Common sorts sort) :
    sort = .bool ∨ sort = .int ∨ sort = .real := by
  cases h with
  | bool => exact .inl rfl
  | numeric h =>
    cases h with
    | int => exact .inr (.inl rfl)
    | real => exact .inr (.inr rfl)

theorem builds_distinct (h : Operands ts sorts) (hc : Common sorts sort) :
    Builds (do mkDistinct (← liftMixed ts)) .bool
      fun I => .bool (decide ((unified (valuesOf I ts)).Pairwise (· ≠ ·))) := by
  obtain ⟨us, hus, -, husort, huval⟩ := liftMixed_ok h hc
  obtain ⟨parts, hparts, hpsort, hpval⟩ := differences_ok (isScalar_of_common hc) husort
  rw [hus]
  show Builds (mkDistinct us) .bool _
  unfold mkDistinct
  rw [hparts]
  refine builds_conjunction hpsort fun I hI => ?_
  rw [hpval I hI, huval I hI]

/-- A choice between two operands that go together. The condition is never lifted. -/
theorem builds_choice {c : Term} (hc : c.Typed .bool) (h : Operands [a, b] sorts)
    (hcommon : Common sorts sort) :
    Builds (Operator.apply .ite [c, a, b]) sort fun I =>
      onUnified (fun v w => if (c.eval I).isTrue then v else w) (a.eval I) (b.eval I) := by
  have hcint : c.isInt = false := by simp [Term.isInt, hc.sort_eq]
  have hcreal : c.isReal = false := by simp [Term.isReal, hc.sort_eq]
  obtain ⟨us, hus, hlen, husort, huval⟩ := liftMixed_ok h hcommon
  obtain ⟨u, v, rfl⟩ := List.length_eq_two.mp hlen
  have hlift : liftMixed [c, a, b] = .ok [c, u, v] := by
    have hmix : mixesNumbers [c, a, b] = mixesNumbers [a, b] := by
      simp [mixesNumbers, hcint, hcreal]
    unfold liftMixed at hus ⊢
    rw [hmix]
    split
    · rename_i hmixes
      rw [if_pos hmixes] at hus
      have hcl : liftToReal c = .ok c := by simp [liftToReal, hcint]
      rw [List.mapM_cons, hcl, hus]
      rfl
    · rename_i hmixes
      rw [if_neg hmixes] at hus
      rw [Except.ok.inj hus]
  have happly : Operator.apply .ite [c, a, b] = (mkIte c u v : Except Refusal Term) := by
    rw [Operator.apply, hlift]
    rfl
  rw [happly]
  refine (builds_mkIte hc (husort u (by simp)) (husort v (by simp))).monadLift.congr fun I hI => ?_
  have hvalues : [u.eval I, v.eval I] = unified [a.eval I, b.eval I] := huval I hI
  rw [onUnified, ← hvalues]

/-- Division from the left; all operands become Real. -/
theorem builds_realDivChain {sort' : SmtSort} (h : Operands (a :: b :: ts) sorts)
    (hn : Numeric sorts sort') :
    Builds (leftChain mkRealDiv a (b :: ts)) .real
      fun I => .real (fromLeft (· / ·) ((valuesOf I (a :: b :: ts)).map number)) := by
  have hall := h.isNumeric hn
  have ha := hall a (by simp)
  have hts : ∀ t ∈ b :: ts, t.WellSorted ∧ IsNumeric t.sort := fun t ht => hall t (by simp_all)
  have hbuilds := builds_leftChain mkRealDiv IsNumeric (fun _ _ => .real)
    (f := fun v w => Value.arith .div v.toReal w.toReal)
    (fun _ _ => .inr rfl)
    (fun ha hb hs hs' => builds_mkRealDiv hs hs' ⟨ha, rfl⟩ ⟨hb, rfl⟩) ha.1 ha.2 hts
  have hsort : ((b :: ts).map Term.sort).foldl (fun _ _ => SmtSort.real) a.sort = .real := by
    rw [List.map_cons, List.foldl_cons]
    generalize ts.map Term.sort = rest
    induction rest with
    | nil => rfl
    | cons _ _ ih => exact ih
  rw [hsort] at hbuilds
  refine hbuilds.congr fun I hI => ?_
  have hdiv {v w : Value} (hv : IsNumber v) (hw : IsNumber w) :
      Value.arith .div v.toReal w.toReal = .real (number v / number w) := by
    cases hv <;> cases hw <;> rfl
  have hfold : ∀ (vs : List Value) (q : Rat), (∀ w ∈ vs, IsNumber w) →
      vs.foldl (fun v w => Value.arith .div v.toReal w.toReal) (.real q) =
        .real ((vs.map number).foldl (· / ·) q) := by
    intro vs
    induction vs with
    | nil => exact fun _ _ => rfl
    | cons w rest ih =>
      intro q hvs
      rw [List.foldl_cons, hdiv (.real q) (hvs w (by simp))]
      exact ih _ fun u hu => hvs u (by simp [hu])
  have hvalues := isNumber_valuesOf hts hI
  simp only [valuesOf, List.map_cons, List.forall_mem_cons, List.foldl_cons] at hvalues ⊢
  rw [hdiv (isNumber_eval ha.1 ha.2 hI) hvalues.1, hfold _ _ hvalues.2]
  rfl

/-- Division of integers from the left. -/
theorem builds_intDivChain (h : ∀ t ∈ a :: ts, t.Typed .int) :
    Builds (leftChain (mkArith .div) a ts) .int
      fun I => .int (fromLeft Int.ediv ((valuesOf I (a :: ts)).map integer)) := by
  have ha := h a (by simp)
  have hts : ∀ t ∈ ts, t.WellSorted ∧ t.sort = .int :=
    fun t ht => ⟨(h t (by simp [ht])).wellSorted, (h t (by simp [ht])).sort_eq⟩
  have hbuilds := builds_leftChain (mkArith .div) (· = .int) (fun s _ => s)
    (f := Value.arith .div) (fun hs _ => hs)
    (fun ha hb hs hs' => builds_mkArith .div (.inl hs) ⟨ha, rfl⟩ ⟨hb, hs'.trans hs.symm⟩)
    ha.wellSorted ha.sort_eq hts
  have hsort : (ts.map Term.sort).foldl (fun s _ => s) a.sort = .int := by
    rw [ha.sort_eq]
    generalize ts.map Term.sort = rest
    induction rest with
    | nil => rfl
    | cons _ _ ih => exact ih
  rw [hsort] at hbuilds
  refine hbuilds.congr fun I hI => ?_
  have hfold : ∀ (vs : List Value) (n : Int), (∀ w ∈ vs, ∃ m, w = .int m) →
      vs.foldl (Value.arith .div) (.int n) = .int ((vs.map integer).foldl Int.ediv n) := by
    intro vs
    induction vs with
    | nil => exact fun _ _ => rfl
    | cons w rest ih =>
      intro n hvs
      obtain ⟨m, rfl⟩ := hvs w (by simp)
      exact ih _ fun u hu => hvs u (by simp [hu])
  have hvalues : ∀ w ∈ valuesOf I ts, ∃ m, w = .int m := by
    intro w hw
    obtain ⟨t, ht, rfl⟩ := List.mem_map.mp hw
    exact (h t (by simp [ht])).eval_int hI
  obtain ⟨n, hn⟩ := ha.eval_int hI
  rw [hn, hfold _ _ hvalues]
  simp [fromLeft, valuesOf, hn, integer]

/-- An exclusive disjunction from the left. -/
theorem builds_xorChain (h : ∀ t ∈ a :: ts, t.Typed .bool) :
    Builds (leftChain mkXor a ts) .bool
      fun I => .bool (fromLeft Bool.xor ((valuesOf I (a :: ts)).map Value.isTrue)) := by
  induction ts generalizing a with
  | nil => exact (Builds.ok (h a (by simp))).congr fun I hI => (h a (by simp)).eval_bool hI
  | cons b rest ih =>
    have hb := h b (by simp)
    refine (builds_mkXor (h a (by simp)) hb).bind fun u hu huval => ?_
    have hrest : ∀ t ∈ u :: rest, t.Typed .bool := by
      simpa using ⟨hu, fun t ht => h t (by simp [ht])⟩
    refine (ih hrest).congr fun I hI => ?_
    simp [fromLeft, valuesOf, huval I hI, Value.isTrue]

theorem isNumber_negated {v : Value} (hv : IsNumber v) :
    negated v = if isReal v then .real (-number v) else .int (-integer v) := by
  cases hv <;> rfl

theorem divReal_plain : ZeroDivision.plain.divReal = (· / ·) := by
  funext a b
  by_cases hb : b = 0 <;> simp [ZeroDivision.divReal, ZeroDivision.plain, hb]

theorem divInt_plain : ZeroDivision.plain.divInt = Int.ediv := by
  funext a b
  by_cases hb : b = 0
  · subst hb
    exact (Int.ediv_zero a).symm
  · simp [ZeroDivision.divInt, hb]

theorem modInt_plain (a b : Int) : ZeroDivision.plain.modInt a b = a - b * Int.ediv a b := by
  have hmod : Int.emod a b = a - b * Int.ediv a b := Int.emod_def a b
  by_cases hb : b = 0 <;> simp [ZeroDivision.modInt, ZeroDivision.plain, hb, hmod]

/-- Operands that fit a signature are accepted, and the term has the sort and the value that the
standard gives. -/
theorem builds_apply {op : Op} (h : Operands ts sorts) (htakes : op.Takes sorts sort) :
    Builds (op.operator.apply ts) sort fun I => op.value .plain (valuesOf I ts) := by
  cases htakes with
  | not =>
    obtain ⟨a, rfl, ha⟩ := h.one
    exact (builds_mkNot ha).monadLift
  | implies hlen hall =>
    obtain ⟨a, b, rest, rfl⟩ := eq_cons_cons_of_length (h.length_eq ▸ hlen)
    have htyped := h.typed hall
    exact (builds_impliesChain (htyped a (by simp))
      fun t ht => htyped t (List.mem_cons_of_mem a ht)).monadLift
  | and hlen hall =>
    obtain ⟨a, b, rest, rfl⟩ := eq_cons_cons_of_length (h.length_eq ▸ hlen)
    refine (builds_mkAnd (h.typed hall)).monadLift.congr fun I _ => ?_
    simp [Op.value, valuesOf, Function.comp_def]
  | or hlen hall =>
    obtain ⟨a, b, rest, rfl⟩ := eq_cons_cons_of_length (h.length_eq ▸ hlen)
    refine (builds_mkOr (h.typed hall)).monadLift.congr fun I _ => ?_
    simp [Op.value, valuesOf, Function.comp_def]
  | xor hlen hall =>
    obtain ⟨a, b, rest, rfl⟩ := eq_cons_cons_of_length (h.length_eq ▸ hlen)
    exact (builds_xorChain (h.typed hall)).monadLift
  | equal hlen hc =>
    obtain ⟨a, b, rest, rfl⟩ := eq_cons_cons_of_length (h.length_eq ▸ hlen)
    exact (builds_equalChain h hc).monadLift
  | distinct hlen hc =>
    obtain ⟨a, b, rest, rfl⟩ := eq_cons_cons_of_length (h.length_eq ▸ hlen)
    have hbuilds := builds_distinct h hc
    obtain ⟨us, hus, -, -, -⟩ := liftMixed_ok h hc
    rw [hus] at hbuilds
    have happly : Operator.apply .distinct (a :: b :: rest) =
        (mkDistinct us : Except Refusal Term) := by
      rw [Operator.apply, hus]
      rfl
    exact happly ▸ hbuilds.monadLift
  | ite hc =>
    obtain ⟨c, rest, rfl, hcond, hrest⟩ := h.uncons
    obtain ⟨a, b, rfl, -, -⟩ := hrest.two
    refine (builds_choice hcond hrest hc).congr fun I _ => ?_
    have hlen : (unified [a.eval I, b.eval I]).length = 2 := by
      unfold unified
      split <;> rfl
    obtain ⟨v, w, hvw⟩ := List.length_eq_two.mp hlen
    simp [Op.value, valuesOf, onUnified, hvw]
  | add hlen hn =>
    obtain ⟨a, b, rest, rfl⟩ := eq_cons_cons_of_length (h.length_eq ▸ hlen)
    exact (builds_arithChain .add (fun _ _ => rfl) (fun _ _ => rfl) Rat.intCast_add
      h hn).monadLift
  | sub hlen hn =>
    cases ts with
    | nil => rw [← h.length_eq] at hlen; cases hlen
    | cons a rest =>
      cases rest with
      | nil =>
        have ha := h.isNumeric hn a (by simp)
        have hsort : a.sort = sort :=
          have hone : Numeric [a.sort] sort := by simpa [← h.sorts_eq] using hn
          foldl_joined hone
        refine hsort ▸ (builds_mkNegative ha.2 ⟨ha.1, rfl⟩).congr fun I hI => ?_
        rw [isNumber_negated (isNumber_eval ha.1 ha.2 hI)]
        rfl
      | cons b rest =>
        exact (builds_arithChain .sub (fun _ _ => rfl) (fun _ _ => rfl) Rat.intCast_sub
          h hn).monadLift
  | mul hlen hn =>
    obtain ⟨a, b, rest, rfl⟩ := eq_cons_cons_of_length (h.length_eq ▸ hlen)
    exact (builds_arithChain .mul (fun _ _ => rfl) (fun _ _ => rfl) Rat.intCast_mul
      h hn).monadLift
  | realDiv hlen hn =>
    obtain ⟨a, b, rest, rfl⟩ := eq_cons_cons_of_length (h.length_eq ▸ hlen)
    refine (builds_realDivChain h hn).monadLift.congr fun I _ => ?_
    rw [Op.value, divReal_plain]
  | intDiv hlen hall =>
    obtain ⟨a, b, rest, rfl⟩ := eq_cons_cons_of_length (h.length_eq ▸ hlen)
    have htyped := h.typed hall
    have happly : Operator.apply .intDiv (a :: b :: rest) =
        (leftChain (mkArith .div) a (b :: rest) : Except Refusal Term) := by
      rw [Operator.apply, (htyped a (by simp)).sort_eq]
    refine happly ▸ (builds_intDivChain htyped).monadLift.congr fun I _ => ?_
    rw [Op.value, divInt_plain]
  | mod =>
    obtain ⟨a, b, rfl, ha, hb⟩ := h.two
    refine (builds_mkMod ha hb).congr fun I hI => ?_
    obtain ⟨m, hm⟩ := ha.eval_int hI
    obtain ⟨n, hn⟩ := hb.eval_int hI
    simp only [Op.value, valuesOf, List.map_cons, List.map_nil, hm, hn, modInt_plain, integer]
    rfl
  | abs =>
    obtain ⟨a, rfl, ha⟩ := h.one
    refine (builds_mkAbs ha).congr fun I hI => ?_
    obtain ⟨n, hn⟩ := ha.eval_int hI
    simp only [Op.value, valuesOf, List.map_cons, List.map_nil, hn, integer, Value.order, negated]
    split
    · rename_i hle
      rw [Int.natAbs_of_nonneg (by simpa using hle)]
    · rename_i hlt
      rw [Int.ofNat_natAbs_of_nonpos (by simp at hlt; omega)]
  | toReal =>
    obtain ⟨a, rfl, ha⟩ := h.one
    refine (builds_mkToReal (.inl rfl) ha).monadLift.congr fun I hI => ?_
    obtain ⟨n, hn⟩ := ha.eval_int hI
    simp [Op.value, valuesOf, hn, integer, Value.toReal]
  | le hlen hn =>
    obtain ⟨a, b, rest, rfl⟩ := eq_cons_cons_of_length (h.length_eq ▸ hlen)
    exact (builds_compareChain (onUnified_compare (by simp [compareValues, Value.order])
      (by simp [compareValues, Value.order])) h hn).monadLift
  | lt hlen hn =>
    obtain ⟨a, b, rest, rfl⟩ := eq_cons_cons_of_length (h.length_eq ▸ hlen)
    exact (builds_compareChain (onUnified_compare (by simp [compareValues, Value.order])
      (by simp [compareValues, Value.order])) h hn).monadLift
  | ge hlen hn =>
    obtain ⟨a, b, rest, rfl⟩ := eq_cons_cons_of_length (h.length_eq ▸ hlen)
    exact (builds_compareChain (onUnified_compare (by simp [compareValues, Value.order])
      (by simp [compareValues, Value.order])) h hn).monadLift
  | gt hlen hn =>
    obtain ⟨a, b, rest, rfl⟩ := eq_cons_cons_of_length (h.length_eq ▸ hlen)
    exact (builds_compareChain (onUnified_compare (by simp [compareValues, Value.order])
      (by simp [compareValues, Value.order])) h hn).monadLift

/-- Where no divisor is zero, nothing depends on what division by zero yields. -/
theorem value_eq_plain (z : ZeroDivision) {op : Op} {vs : List Value}
    (h : ∀ d ∈ op.divisors vs, d ≠ 0) : op.value z vs = op.value .plain vs := by
  cases op with
  | realDiv =>
    have hfold : fromLeft z.divReal (vs.map number) = fromLeft (· / ·) (vs.map number) := by
      cases vs with
      | nil => rfl
      | cons v rest =>
        refine List.foldl_ext _ _ _ fun a b hb => ?_
        exact if_neg (h b hb)
    rw [Op.value, Op.value, divReal_plain, hfold]
  | intDiv =>
    have hfold : fromLeft z.divInt (vs.map integer) = fromLeft Int.ediv (vs.map integer) := by
      cases vs with
      | nil => rfl
      | cons v rest =>
        refine List.foldl_ext _ _ _ fun a b hb => ?_
        obtain ⟨w, hw, rfl⟩ := List.mem_map.mp hb
        have hne : (integer w : Rat) ≠ 0 := h _ (List.mem_map_of_mem hw)
        exact if_neg (by simpa using hne)
    rw [Op.value, Op.value, divInt_plain, hfold]
  | mod =>
    match vs, h with
    | [a, b], h =>
      have hne : (integer b : Rat) ≠ 0 := h _ (by simp [Op.divisors])
      have hne : integer b ≠ 0 := by simpa using hne
      simp [Op.value, ZeroDivision.modInt, hne]
    | [], _ | [_], _ | _ :: _ :: _ :: _, _ => rfl
  | _ => rcases vs with _ | ⟨a, _ | ⟨b, _ | ⟨c, _ | ⟨d, rest⟩⟩⟩⟩ <;> rfl

end Standard

end SmtScript
