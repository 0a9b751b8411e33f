import SmtScript.Operator
import SmtScript.Proofs.Term.Hereditary

/-!
What operators keep: whatever an operator makes of operands with a hereditary property has this
property.
-/

namespace SmtScript

namespace Term

variable {W : SmtSort → Prop} {P : Term → Prop} {t u a b : Term} {ts us : List Term}

/-- A fault is no result of an operator, either. -/
theorem ok_of_lift {α : Type} {x : Except Fault α} {r : α}
    (h : (MonadLiftT.monadLift x : Except Refusal α) = .ok r) : x = .ok r := by
  cases x with
  | error f => cases h
  | ok a => exact congrArg Except.ok (Except.ok.inj h)

theorem mapError_ok {ε δ α : Type} {x : Except ε α} {f : ε → δ} {r : α}
    (h : x.mapError f = .ok r) : x = .ok r := by
  cases x with
  | error e => cases h
  | ok a => exact congrArg Except.ok (Except.ok.inj h)

/-- What is done to each of several terms keeps a property if it does so for one. -/
theorem keeps_mapM {f : Term → Except Fault Term}
    (hf : ∀ {t u}, f t = .ok u → P t → P u) (h : ts.mapM f = .ok us)
    (hts : ∀ t ∈ ts, P t) : ∀ u ∈ us, P u := by
  induction ts generalizing us with
  | nil =>
    obtain rfl := Except.ok.inj h
    simp
  | cons t rest ih =>
    rw [List.mapM_cons] at h
    obtain ⟨first, hfirst, h⟩ := bind_ok h
    obtain ⟨later, hlater, h⟩ := bind_ok h
    obtain rfl := Except.ok.inj h
    have hrest := ih hlater fun t ht => hts t (by simp [ht])
    simpa using ⟨hf hfirst (hts t (by simp)), hrest⟩

/-- Whether a builder of binary nodes keeps a property of terms. -/
def KeepsBuilder (P : Term → Prop) (build : Term → Term → Except Fault Term) : Prop :=
  ∀ {a b u}, build a b = .ok u → P a → P b → P u

variable {build : Term → Term → Except Fault Term}

theorem keeps_leftChain (hbuild : KeepsBuilder P build) (h : leftChain build a ts = .ok u)
    (ha : P a) (hts : ∀ t ∈ ts, P t) : P u := by
  induction ts generalizing a with
  | nil =>
    obtain rfl := Except.ok.inj h
    exact ha
  | cons t rest ih =>
    obtain ⟨next, hnext, h⟩ := bind_ok h
    exact ih h (hbuild hnext ha (hts t (by simp))) fun t ht => hts t (by simp [ht])

theorem keeps_neighbours (hbuild : KeepsBuilder P build)
    (h : neighbours build ts = .ok us) (hts : ∀ t ∈ ts, P t) :
    ∀ u ∈ us, P u := by
  induction ts generalizing us with
  | nil =>
    obtain rfl := Except.ok.inj h
    simp
  | cons a rest ih =>
    cases rest with
    | nil =>
      obtain rfl := Except.ok.inj h
      simp
    | cons b rest =>
      obtain ⟨first, hfirst, h⟩ := bind_ok h
      obtain ⟨later, hlater, h⟩ := bind_ok h
      obtain rfl := Except.ok.inj h
      have hrest := ih hlater fun t ht => hts t (List.mem_cons_of_mem a ht)
      simpa using ⟨hbuild hfirst (hts a (by simp)) (hts b (by simp)), hrest⟩

section

variable (hP : Hereditary W P)

include hP

theorem keeps_liftToReal (h : liftToReal t = .ok u) (ht : P t) : P u := by
  unfold liftToReal at h
  split at h
  · exact keeps_mkToReal hP h ht
  · obtain rfl := Except.ok.inj h
    exact ht

theorem keeps_liftMixed (h : liftMixed ts = .ok us) (hts : ∀ t ∈ ts, P t) :
    ∀ u ∈ us, P u := by
  unfold liftMixed at h
  split at h
  · exact keeps_mapM (keeps_liftToReal hP) h hts
  · obtain rfl := Except.ok.inj h
    exact hts

theorem keepsBuilder_lifted (hbuild : KeepsBuilder P build) :
    KeepsBuilder P (lifted build) := by
  intro a b u h ha hb
  obtain ⟨us, hus, h⟩ := bind_ok h
  have hkept := keeps_liftMixed hP hus (by simpa using ⟨ha, hb⟩)
  split at h
  · exact hbuild h (hkept _ (by simp)) (hkept _ (by simp))
  · cases h

theorem keeps_impliesChain (h : impliesChain a ts = .ok u) (ha : P a)
    (hts : ∀ t ∈ ts, P t) : P u := by
  induction ts generalizing a u with
  | nil =>
    obtain rfl := Except.ok.inj h
    exact ha
  | cons t rest ih =>
    obtain ⟨conclusion, hconclusion, h⟩ := bind_ok h
    exact keeps_mkImplies hP h ha
      (ih hconclusion (hts t (by simp)) fun t ht => hts t (by simp [ht]))

theorem keeps_chained (hbuild : KeepsBuilder P build) (h : chained build ts = .ok u)
    (hts : ∀ t ∈ ts, P t) : P u := by
  obtain ⟨parts, hparts, h⟩ := bind_ok h
  exact keeps_mkAnd hP h (keeps_neighbours hbuild hparts hts)

theorem keepsBuilder_comparison (comparison : Comparison) :
    KeepsBuilder P (mkComparison comparison) := by
  intro a b u h ha hb
  cases comparison with
  | le => exact keeps_mkOrder hP h ha hb
  | lt => exact keeps_mkOrder hP h ha hb
  | ge => exact keeps_mkOrder hP h hb ha
  | gt => exact keeps_mkOrder hP h hb ha

theorem keeps_mkNegative (h : mkNegative a = .ok u) (ha : P a) :
    P u := by
  unfold mkNegative at h
  split at h
  · obtain rfl := Except.ok.inj h
    exact keeps_int hP _
  · obtain rfl := Except.ok.inj h
    exact keeps_real hP _
  · split at h
    · cases h
    · exact keeps_mkArith hP (mapError_ok h) (keeps_int hP _) ha
    · exact keeps_mkArith hP (mapError_ok h) (keeps_real hP _) ha
    · cases h

theorem keepsBuilder_realDiv : KeepsBuilder P mkRealDiv := by
  intro a b u h ha hb
  obtain ⟨left, hleft, h⟩ := bind_ok h
  obtain ⟨right, hright, h⟩ := bind_ok h
  exact keeps_mkArith hP h (keeps_liftToReal hP hleft ha) (keeps_liftToReal hP hright hb)

theorem keeps_mkMod (h : mkMod a b = .ok u) (ha : P a) (hb : P b) :
    P u := by
  unfold mkMod at h
  split at h
  · obtain ⟨quotient, hquotient, h⟩ := bind_ok h
    obtain ⟨product, hproduct, h⟩ := bind_ok h
    exact keeps_mkArith hP (ok_of_lift h) ha
      (keeps_mkArith hP (ok_of_lift hproduct) hb (keeps_mkArith hP (ok_of_lift hquotient) ha hb))
  · cases h

theorem keeps_mkAbs (h : mkAbs a = .ok u) (ha : P a) : P u := by
  have hcases {zero : Term} (hzero : P zero)
      (h : (do mkIte (← mkComparison .ge a zero) a (← mkNegative a) : Except Refusal Term) =
        .ok u) : P u := by
    obtain ⟨c, hc, h⟩ := bind_ok h
    obtain ⟨negative, hnegative, h⟩ := bind_ok h
    exact keeps_mkIte hP (ok_of_lift h) (keepsBuilder_comparison hP .ge (ok_of_lift hc) ha hzero) ha
      (keeps_mkNegative hP hnegative ha)
  unfold mkAbs at h
  split at h
  · exact hcases (keeps_int hP 0) h
  · exact hcases (keeps_real hP 0) h
  · cases h

/-- Whatever an operator makes of operands with a hereditary property has it. -/
theorem keeps_apply {op : Operator} (h : op.apply ts = .ok u)
    (hts : ∀ t ∈ ts, P t) : P u := by
  have htail {a : Term} {rest : List Term} (hts : ∀ t ∈ a :: rest, P t) :
      ∀ t ∈ rest, P t := fun t ht => hts t (by simp [ht])
  unfold Operator.apply at h
  split at h
  · exact keeps_mkNot hP (ok_of_lift h) (hts _ (by simp))
  · exact keeps_impliesChain hP (ok_of_lift h) (hts _ (by simp)) (htail hts)
  · exact keeps_mkAnd hP (ok_of_lift h) hts
  · exact keeps_mkOr hP (ok_of_lift h) hts
  · exact keeps_leftChain (keeps_mkXor hP) (ok_of_lift h) (hts _ (by simp)) (htail hts)
  · exact keeps_chained hP (keepsBuilder_lifted hP (keeps_mkSame hP)) (ok_of_lift h) hts
  · obtain ⟨us, hus, h⟩ := bind_ok h
    exact keeps_mkDistinct hP (ok_of_lift h) (keeps_liftMixed hP (ok_of_lift hus) hts)
  · obtain ⟨us, hus, h⟩ := bind_ok h
    have hkept := keeps_liftMixed hP (ok_of_lift hus) hts
    split at h
    · exact keeps_mkIte hP (ok_of_lift h) (hkept _ (by simp)) (hkept _ (by simp))
        (hkept _ (by simp))
    · cases h
  · exact keeps_leftChain (keepsBuilder_lifted hP (keeps_mkArith hP)) (ok_of_lift h)
      (hts _ (by simp)) (htail hts)
  · exact keeps_mkNegative hP h (hts _ (by simp))
  · exact keeps_leftChain (keepsBuilder_lifted hP (keeps_mkArith hP)) (ok_of_lift h)
      (hts _ (by simp)) (htail hts)
  · exact keeps_leftChain (keepsBuilder_lifted hP (keeps_mkArith hP)) (ok_of_lift h)
      (hts _ (by simp)) (htail hts)
  · exact keeps_leftChain (keepsBuilder_realDiv hP) (ok_of_lift h) (hts _ (by simp)) (htail hts)
  · split at h
    · exact keeps_leftChain (keeps_mkArith hP) (ok_of_lift h) (hts _ (by simp)) (htail hts)
    · exact keeps_leftChain (keepsBuilder_lifted hP (keeps_mkArith hP)) (ok_of_lift h)
        (hts _ (by simp)) (htail hts)
    · cases h
  · exact keeps_mkMod hP h (hts _ (by simp)) (hts _ (by simp))
  · exact keeps_mkAbs hP h (hts _ (by simp))
  · exact keeps_chained hP (keepsBuilder_lifted hP (keepsBuilder_comparison hP _)) (ok_of_lift h)
      hts
  · exact keeps_mkToReal hP (ok_of_lift h) (hts _ (by simp))
  · exact keeps_mkSelect hP (ok_of_lift h) (hts _ (by simp)) (hts _ (by simp))
  · exact keeps_mkStore hP (ok_of_lift h) (hts _ (by simp)) (hts _ (by simp)) (hts _ (by simp))
  · exact keeps_leftChain (keeps_mkConcat hP) (ok_of_lift h) (hts _ (by simp)) (htail hts)
  · exact keeps_mkBitUnary hP (ok_of_lift h) (hts _ (by simp))
  · exact keeps_leftChain (keeps_mkBitOp hP) (ok_of_lift h) (hts _ (by simp)) (htail hts)
  · exact keeps_mkBitOp hP (ok_of_lift h) (hts _ (by simp)) (hts _ (by simp))
  · exact keeps_mkBitNegated hP (ok_of_lift h) (hts _ (by simp)) (hts _ (by simp))
  · exact keeps_mkBitEqual hP (ok_of_lift h) (hts _ (by simp)) (hts _ (by simp))
  · exact keeps_mkSMod hP (ok_of_lift h) (hts _ (by simp)) (hts _ (by simp))
  · exact keeps_mkBitOrder hP (ok_of_lift h) (hts _ (by simp)) (hts _ (by simp))
  · exact keeps_mkBitOrder hP (ok_of_lift h) (hts _ (by simp)) (hts _ (by simp))
  · cases h

end

end Term

end SmtScript
