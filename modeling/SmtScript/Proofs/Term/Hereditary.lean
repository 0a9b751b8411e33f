import SmtScript.Term.Substitute

/-!
What builders keep.

A property of terms is hereditary if a node has it whose operands have it, and what is negated has
it if the negation has it. Whatever the functions of `Term.Build` make of terms with a hereditary
property has this property. Symbols, applications of functions and quantifiers are left out; what
is to be said of them depends on the property. So are nodes that no script leads to: conjunctions
and disjunctions of nothing, and literals and constant arrays with sorts that cannot be written.
-/

namespace SmtScript

namespace Term

/-- Whether what a root stands for is up to the interpretation. -/
def Root.isInterpreted : Root → Bool
  | .symbol _ | .apply _ | .quantified _ _ => true
  | _ => false

/-- Whether the sorts that stand in a root are of a kind: that of a bit-vector, and the index sort
of a constant array. -/
def Root.HasSorts (W : SmtSort → Prop) : Root → Prop
  | .bitVec width _ => W (.bitVec width)
  | .constArray index => W index
  | _ => True

/-- Any sort at all. -/
def anySort : SmtSort → Prop := fun _ => True

/-- Whether operations of scripts can lead to a node, as far as its root goes: conjunctions and
disjunctions join something, and sorts in the root are of a kind. -/
def Made (W : SmtSort → Prop) : Term → Prop
  | .symbol _ | .apply _ _ | .quantified _ _ _ => False
  | .and ts | .or ts => ts ≠ []
  | t => t.root.HasSorts W

theorem Made.isInterpreted {W : SmtSort → Prop} {t : Term} (h : t.Made W) :
    t.root.isInterpreted = false := by
  cases t <;> first | rfl | exact h.elim

structure Hereditary (W : SmtSort → Prop) (P : Term → Prop) : Prop where
  bits : ∀ {width : Nat}, 0 < width → W (.bitVec width)
  node : ∀ {t : Term}, t.fits = true → t.Made W → (∀ a ∈ t.operands, P a) → P t
  negated : ∀ {a : Term}, P (.not a) → P a

theorem Hereditary.and {W : SmtSort → Prop} {P Q : Term → Prop} (hP : Hereditary W P)
    (hQ : Hereditary W Q) : Hereditary W fun t => P t ∧ Q t where
  bits := hP.bits
  node hfits hmade hoperands :=
    ⟨hP.node hfits hmade fun a ha => (hoperands a ha).1,
      hQ.node hfits hmade fun a ha => (hoperands a ha).2⟩
  negated h := ⟨hP.negated h.1, hQ.negated h.2⟩

theorem checked_ok (h : checked t = .ok u) : t.fits = true ∧ u = t := by
  unfold checked at h
  split at h
  · rename_i hfits
    exact ⟨hfits, (Except.ok.inj h).symm⟩
  · split at h
    · split at h <;> cases h
    · cases h

/-- A value that a step yields comes from the steps that it is put together from. -/
theorem bind_ok {ε α β : Type} {x : Except ε α} {f : α → Except ε β} {r : β}
    (h : (x >>= f) = .ok r) : ∃ a, x = .ok a ∧ f a = .ok r := by
  cases x with
  | error e => cases h
  | ok a => exact ⟨a, rfl, h⟩

variable {W : SmtSort → Prop} {P : Term → Prop} {t u a b c : Term} {ts : List Term}

section

variable (hP : Hereditary W P)

include hP

theorem keeps_checked (h : checked t = .ok u) (hmade : t.Made W)
    (hoperands : ∀ a ∈ t.operands, P a) : P u := by
  obtain ⟨hfits, rfl⟩ := checked_ok h
  exact hP.node hfits hmade hoperands

theorem keeps_bool (b : Bool) : P (.bool b) :=
  hP.node rfl trivial nofun

theorem keeps_real (q : Rat) : P (.real q) :=
  hP.node rfl trivial nofun

theorem keeps_int (n : Int) : P (.int n) :=
  hP.node rfl trivial nofun

theorem keeps_bitVec {width : Nat} (hwidth : W (.bitVec width)) (value : BitVec width) :
    P (.bitVec width value) :=
  hP.node rfl hwidth nofun

theorem keeps_mkNot (h : mkNot a = .ok u) (ha : P a) : P u := by
  unfold mkNot at h
  split at h
  · rename_i body
    obtain rfl := Except.ok.inj h
    exact hP.negated ha
  · exact keeps_checked hP h trivial (by simpa [operands] using ha)

theorem keeps_mkAnd (h : mkAnd ts = .ok u) (hts : ∀ t ∈ ts, P t) :
    P u := by
  unfold mkAnd at h
  split at h
  · obtain rfl := Except.ok.inj h
    exact keeps_bool hP _
  · obtain rfl := Except.ok.inj h
    exact hts _ (by simp)
  · rename_i hne _
    exact keeps_checked hP h hne hts

theorem keeps_mkOr (h : mkOr ts = .ok u) (hts : ∀ t ∈ ts, P t) :
    P u := by
  unfold mkOr at h
  split at h
  · obtain rfl := Except.ok.inj h
    exact keeps_bool hP _
  · obtain rfl := Except.ok.inj h
    exact hts _ (by simp)
  · rename_i hne _
    exact keeps_checked hP h hne hts

theorem keeps_mkImplies (h : mkImplies a b = .ok u) (ha : P a)
    (hb : P b) : P u :=
  keeps_checked hP h trivial (by simpa [operands] using ⟨ha, hb⟩)

theorem keeps_mkIff (h : mkIff a b = .ok u) (ha : P a) (hb : P b) :
    P u :=
  keeps_checked hP h trivial (by simpa [operands] using ⟨ha, hb⟩)

theorem keeps_mkSame (h : mkSame a b = .ok u) (ha : P a) (hb : P b) :
    P u := by
  unfold mkSame at h
  split at h <;> exact keeps_checked hP h trivial (by simpa [operands] using ⟨ha, hb⟩)

theorem keeps_mkXor (h : mkXor a b = .ok u) (ha : P a) (hb : P b) :
    P u := by
  obtain ⟨same, hsame, h⟩ := bind_ok h
  exact keeps_mkNot hP h (keeps_mkIff hP hsame ha hb)

theorem keeps_differAll {ts us : List Term} (h : differAll a ts = .ok us)
    (ha : P a) (hts : ∀ t ∈ ts, P t) : ∀ u ∈ us, P u := by
  induction ts generalizing us with
  | nil =>
    obtain rfl := Except.ok.inj h
    simp
  | cons t rest ih =>
    obtain ⟨same, hsame, h⟩ := bind_ok h
    obtain ⟨first, hfirst, h⟩ := bind_ok h
    obtain ⟨later, hlater, h⟩ := bind_ok h
    obtain rfl := Except.ok.inj h
    have ht : P t := hts t (by simp)
    have hrest := ih hlater fun u hu => hts u (by simp [hu])
    simpa using ⟨keeps_mkNot hP hfirst (keeps_mkSame hP hsame ha ht), hrest⟩

theorem keeps_differences {ts us : List Term} (h : differences ts = .ok us)
    (hts : ∀ t ∈ ts, P t) : ∀ u ∈ us, P u := by
  induction ts generalizing us with
  | nil =>
    obtain rfl := Except.ok.inj h
    simp
  | cons t rest ih =>
    obtain ⟨first, hfirst, h⟩ := bind_ok h
    obtain ⟨later, hlater, h⟩ := bind_ok h
    obtain rfl := Except.ok.inj h
    have hkept : ∀ u ∈ rest, P u := fun u hu => hts u (by simp [hu])
    intro u hu
    rcases List.mem_append.mp hu with hu | hu
    · exact keeps_differAll hP hfirst (hts t (by simp)) hkept u hu
    · exact ih hlater hkept u hu

theorem keeps_mkDistinct (h : mkDistinct ts = .ok u) (hts : ∀ t ∈ ts, P t) :
    P u := by
  obtain ⟨parts, hparts, h⟩ := bind_ok h
  exact keeps_mkAnd hP h (keeps_differences hP hparts hts)

theorem keeps_mkIte (h : mkIte c a b = .ok u) (hc : P c) (ha : P a)
    (hb : P b) : P u :=
  keeps_checked hP h trivial (by simpa [operands] using ⟨hc, ha, hb⟩)

theorem keeps_mkArith {op : ArithOp} (h : mkArith op a b = .ok u) (ha : P a)
    (hb : P b) : P u := by
  unfold mkArith at h
  split at h
  · split at h
    · exact keeps_checked hP h trivial (by simpa [operands] using ⟨ha, hb⟩)
    · exact keeps_checked hP h trivial (by simpa [operands] using ⟨ha, keeps_real hP _⟩)
  · obtain ⟨_, _, h⟩ := bind_ok h
    exact keeps_checked hP h trivial (by simpa [operands] using ⟨ha, hb⟩)
  · exact keeps_checked hP h trivial (by simpa [operands] using ⟨ha, hb⟩)

theorem keeps_mkOrder {op : NumOrder} (h : mkOrder op a b = .ok u) (ha : P a)
    (hb : P b) : P u :=
  keeps_checked hP h trivial (by simpa [operands] using ⟨ha, hb⟩)

theorem keeps_mkToReal (h : mkToReal a = .ok u) (ha : P a) : P u := by
  unfold mkToReal at h
  split at h
  · obtain rfl := Except.ok.inj h
    exact ha
  · obtain rfl := Except.ok.inj h
    exact keeps_real hP _
  · exact keeps_checked hP h trivial (by simpa [operands] using ha)
  · cases h

theorem keeps_mkSelect (h : mkSelect a b = .ok u) (ha : P a)
    (hb : P b) : P u :=
  keeps_checked hP h trivial (by simpa [operands] using ⟨ha, hb⟩)

theorem keeps_mkStore (h : mkStore a b c = .ok u) (ha : P a)
    (hb : P b) (hc : P c) : P u :=
  keeps_checked hP h trivial (by simpa [operands] using ⟨ha, hb, hc⟩)

theorem keeps_mkConstArray {index : SmtSort} (h : mkConstArray index a = .ok u)
    (hindex : W index) (ha : P a) : P u :=
  keeps_checked hP h hindex (by simpa [operands] using ha)

theorem keeps_mkBits {width value : Nat} (h : mkBits width value = .ok u) (hwidth : 0 < width) :
    P u := by
  unfold mkBits at h
  split at h
  · obtain rfl := Except.ok.inj h
    exact keeps_bitVec hP (hP.bits hwidth) _
  · cases h

theorem keeps_mkBitUnary {op : BitUnary} (h : mkBitUnary op a = .ok u) (ha : P a) :
    P u := by
  obtain ⟨_, _, h⟩ := bind_ok h
  exact keeps_checked hP h trivial (by simpa [operands] using ha)

theorem keeps_mkBitOp {op : BitOp} (h : mkBitOp op a b = .ok u) (ha : P a)
    (hb : P b) : P u := by
  obtain ⟨_, _, h⟩ := bind_ok h
  exact keeps_checked hP h trivial (by simpa [operands] using ⟨ha, hb⟩)

theorem keeps_mkBitNegated {op : BitOp} (h : mkBitNegated op a b = .ok u)
    (ha : P a) (hb : P b) : P u := by
  obtain ⟨positive, hpositive, h⟩ := bind_ok h
  exact keeps_mkBitUnary hP h (keeps_mkBitOp hP hpositive ha hb)

theorem keeps_mkBitOrder {op : BitOrder} (h : mkBitOrder op a b = .ok u)
    (ha : P a) (hb : P b) : P u := by
  obtain ⟨_, _, h⟩ := bind_ok h
  exact keeps_checked hP h trivial (by simpa [operands] using ⟨ha, hb⟩)

theorem keeps_mkBitEqual (h : mkBitEqual a b = .ok u) (ha : P a)
    (hb : P b) : P u :=
  keeps_checked hP h trivial (by simpa [operands] using ⟨ha, hb⟩)

theorem keeps_mkConcat (h : mkConcat a b = .ok u) (ha : P a)
    (hb : P b) : P u := by
  obtain ⟨_, _, h⟩ := bind_ok h
  obtain ⟨_, _, h⟩ := bind_ok h
  exact keeps_checked hP h trivial (by simpa [operands] using ⟨ha, hb⟩)

theorem keeps_mkExtract {high low : Nat} (h : mkExtract high low a = .ok u)
    (ha : P a) : P u := by
  obtain ⟨_, _, h⟩ := bind_ok h
  split at h
  · exact keeps_checked hP h trivial (by simpa [operands] using ha)
  · cases h

theorem keeps_mkRotate {side : Side} {step : Nat} (h : mkRotate side step a = .ok u)
    (ha : P a) : P u := by
  obtain ⟨_, _, h⟩ := bind_ok h
  exact keeps_checked hP h trivial (by simpa [operands] using ha)

theorem keeps_mkWiden {bits : Widening} {extra : Nat} (h : mkWiden bits extra a = .ok u)
    (ha : P a) : P u := by
  obtain ⟨_, _, h⟩ := bind_ok h
  exact keeps_checked hP h trivial (by simpa [operands] using ha)

theorem keeps_mkCopies {copies : Nat} (h : mkCopies a copies = .ok u) (ha : P a) :
    P u := by
  induction copies generalizing u with
  | zero =>
    obtain rfl := Except.ok.inj h
    exact ha
  | succ copies ih =>
    obtain ⟨fewer, hfewer, h⟩ := bind_ok h
    exact keeps_mkConcat hP h (ih hfewer) ha

theorem keeps_mkBitAbs (h : mkBitAbs c a = .ok u) (hc : P c) (ha : P a) :
    P u := by
  obtain ⟨same, hsame, h⟩ := bind_ok h
  obtain ⟨negated, hnegated, h⟩ := bind_ok h
  exact keeps_mkIte hP h (keeps_mkSame hP hsame hc (keeps_bitVec hP (hP.bits Nat.one_pos) _)) ha
    (keeps_mkBitUnary hP hnegated ha)

omit hP in
/-- What bits are taken out of has bits. -/
theorem pos_of_mkExtract {high low width : Nat} (h : mkExtract high low a = .ok u)
    (hwidth : needWidth a = .ok width) : 0 < width := by
  unfold mkExtract at h
  rw [hwidth] at h
  obtain ⟨_, hw, h⟩ := bind_ok h
  obtain rfl := Except.ok.inj hw
  split at h
  · rename_i hbits
    simp only [Bool.and_eq_true, decide_eq_true_eq] at hbits
    omega
  · cases h

theorem keeps_mkSMod (h : mkSMod a b = .ok u) (ha : P a) (hb : P b) :
    P u := by
  obtain ⟨width, hneed, h⟩ := bind_ok h
  obtain ⟨leftSign, hleftSign, h⟩ := bind_ok h
  obtain ⟨rightSign, hrightSign, h⟩ := bind_ok h
  obtain ⟨leftAbs, hleftAbs, h⟩ := bind_ok h
  obtain ⟨rightAbs, hrightAbs, h⟩ := bind_ok h
  obtain ⟨rest, hrest, h⟩ := bind_ok h
  obtain ⟨negRest, hnegRest, h⟩ := bind_ok h
  have hsl := keeps_mkExtract hP hleftSign ha
  have hsr := keeps_mkExtract hP hrightSign hb
  have hr := keeps_mkBitOp hP hrest (keeps_mkBitAbs hP hleftAbs hsl ha)
    (keeps_mkBitAbs hP hrightAbs hsr hb)
  have hn := keeps_mkBitUnary hP hnegRest hr
  have hpair {x y : Term} (hx : P x) (hy : P y) :
      ∀ t ∈ [x, y], P t := by simpa using ⟨hx, hy⟩
  obtain ⟨restZero, hrestZero, h⟩ := bind_ok h
  obtain ⟨leftZero, hleftZero, h⟩ := bind_ok h
  obtain ⟨rightZero, hrightZero, h⟩ := bind_ok h
  obtain ⟨bothZero, hbothZero, h⟩ := bind_ok h
  obtain ⟨asIs, hasIs, h⟩ := bind_ok h
  obtain ⟨leftOne, hleftOne, h⟩ := bind_ok h
  obtain ⟨rightZero', hrightZero', h⟩ := bind_ok h
  obtain ⟨leftNegative, hleftNegative, h⟩ := bind_ok h
  obtain ⟨leftZero', hleftZero', h⟩ := bind_ok h
  obtain ⟨rightOne, hrightOne, h⟩ := bind_ok h
  obtain ⟨rightNegative, hrightNegative, h⟩ := bind_ok h
  obtain ⟨sumLeft, hsumLeft, h⟩ := bind_ok h
  obtain ⟨sumRight, hsumRight, h⟩ := bind_ok h
  obtain ⟨inner, hinner, h⟩ := bind_ok h
  obtain ⟨outer, houter, h⟩ := bind_ok h
  have hsign {s t : Term} {v : BitVec 1} (hs : P s) (h : mkSame s (.bitVec 1 v) = .ok t) : P t :=
    keeps_mkSame hP h hs (keeps_bitVec hP (hP.bits Nat.one_pos) _)
  have hzero : W (.bitVec width) := hP.bits (pos_of_mkExtract hleftSign hneed)
  have hboth := keeps_mkAnd hP hbothZero (hpair (hsign hsl hleftZero) (hsign hsr hrightZero))
  have hcases := keeps_mkOr hP hasIs 
    (hpair (keeps_mkSame hP hrestZero hr (keeps_bitVec hP hzero _)) hboth)
  have hleft := keeps_mkAnd hP hleftNegative (hpair (hsign hsl hleftOne) (hsign hsr hrightZero'))
  have hright := keeps_mkAnd hP hrightNegative (hpair (hsign hsl hleftZero') (hsign hsr hrightOne))
  exact keeps_mkIte hP h hcases hr
    (keeps_mkIte hP houter hleft (keeps_mkBitOp hP hsumLeft hn hb)
      (keeps_mkIte hP hinner hright (keeps_mkBitOp hP hsumRight hr hb) hn))

end

end Term

end SmtScript
