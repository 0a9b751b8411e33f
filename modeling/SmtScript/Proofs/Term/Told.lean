import SmtScript.Proofs.Error
import SmtScript.Proofs.Operator
import SmtScript.Proofs.Term.Meaning

/-!
Builders that tell why they fail.

What a builder refuses is told, unless the builder asks for the width of an operand that has no
bits. So it is with the operators: all but those on bit-vectors tell why they refuse their
operands, and those on bit-vectors do if each operand has bits, `Operator.apply_told`.
-/

namespace SmtScript

/-- Whether nothing is told about a refusal. -/
def Refusal.Silent : Refusal → Prop
  | .count => False
  | .wrongSort errorAt => ∃ sexpr, (errorAt sexpr).isSilent = true
  | .fault f => f.isSilent = true

theorem Refusal.silent_of_toError {name : String} {sexpr : SExpr} {operands : List Term}
    {r : Refusal} (h : (r.toError name sexpr operands).isSilent = true) : r.Silent := by
  cases r with
  | count => cases h
  | wrongSort errorAt => exact ⟨sexpr, h⟩
  | fault f => exact h

namespace Term

/-- Whether a builder tells why it fails. -/
abbrev Told {α : Type} (x : Except Fault α) : Prop := Tells (·.isSilent = true) x

/-- Whether an operator tells why it refuses its operands. -/
abbrev Answered {α : Type} (x : Except Refusal α) : Prop := Tells Refusal.Silent x

variable {α : Type} {t u a b : Term} {ts us : List Term} {build : Term → Term → Except Fault Term}

theorem answered_lift {x : Except Fault α} (h : Told x) :
    Answered (MonadLiftT.monadLift x : Except Refusal α) :=
  h.mapError fun _ hsilent => hsilent

theorem told_checked (t : Term) : Told (checked t) := by
  unfold checked
  split
  · exact .ok _
  · split
    · split
      · exact .error (by simp [Fault.isSilent])
      · exact .error (by simp [Fault.isSilent])
    · exact .error (by simp [Fault.isSilent])

theorem told_mkNot (t : Term) : Told (mkNot t) := by
  unfold mkNot
  split
  · exact .ok _
  · exact told_checked _

theorem told_mkAnd (ts : List Term) : Told (mkAnd ts) := by
  unfold mkAnd
  split
  · exact .ok _
  · exact .ok _
  · exact told_checked _

theorem told_mkOr (ts : List Term) : Told (mkOr ts) := by
  unfold mkOr
  split
  · exact .ok _
  · exact .ok _
  · exact told_checked _

theorem told_mkSame (a b : Term) : Told (mkSame a b) := by
  unfold mkSame
  split <;> exact told_checked _

theorem told_mkXor (a b : Term) : Told (mkXor a b) :=
  .bind (told_checked _) fun _ _ => told_mkNot _

theorem told_differAll (t : Term) (ts : List Term) : Told (differAll t ts) := by
  induction ts with
  | nil => exact .ok _
  | cons other rest ih =>
    exact .bind (told_mkSame t other) fun same _ => .bind (told_mkNot same) fun _ _ =>
      .bind ih fun _ _ => .ok _

theorem told_mkDistinct (ts : List Term) : Told (mkDistinct ts) := by
  have hdifferences : Told (differences ts) := by
    induction ts with
    | nil => exact .ok _
    | cons t rest ih =>
      exact .bind (told_differAll t rest) fun _ _ => .bind ih fun _ _ => .ok _
  exact .bind hdifferences fun _ _ => told_mkAnd _

theorem told_askForNumber (t : Term) : Told (askForNumber t) := by
  unfold askForNumber
  split
  · split
    · exact .error (by simp [Fault.isSilent])
    · exact .ok _
  · exact .ok _

theorem told_mkArith (op : ArithOp) (a b : Term) : Told (mkArith op a b) := by
  unfold mkArith
  split
  · split <;> exact told_checked _
  · exact .bind (told_askForNumber _) fun _ _ => told_checked _
  · exact told_checked _

theorem told_mkToReal (t : Term) : Told (mkToReal t) := by
  unfold mkToReal
  split
  · exact .ok _
  · exact .ok _
  · exact told_checked _
  · exact .error (by simp [Fault.isSilent])

theorem told_mkApply (f : Symbol) (ts : List Term) : Told (mkApply f ts) := by
  unfold mkApply
  split
  · exact .ok _
  · exact told_checked _

theorem told_mkQuantified (q : Quantifier) (bound : List Symbol) (t : Term) :
    Told (mkQuantified q bound t) := by
  unfold mkQuantified
  split
  · exact .ok _
  · exact told_checked _

theorem told_mkBits (width value : Nat) : Told (mkBits width value) := by
  unfold mkBits
  split
  · exact .ok _
  · exact .error (by simp [Fault.isSilent])

/-! ### Operators on numbers -/

theorem told_liftToReal (t : Term) : Told (liftToReal t) := by
  unfold liftToReal
  split
  · exact told_mkToReal t
  · exact .ok _

theorem told_liftMixed (ts : List Term) : Told (liftMixed ts) := by
  unfold liftMixed
  split
  · exact .mapM fun t _ => told_liftToReal t
  · exact .ok _

theorem length_of_mapM {f : Term → Except Fault Term} (h : ts.mapM f = .ok us) :
    us.length = ts.length := by
  induction ts generalizing us with
  | nil =>
    obtain rfl := Except.ok.inj h
    rfl
  | cons t rest ih =>
    rw [List.mapM_cons] at h
    obtain ⟨first, _, h⟩ := bind_ok h
    obtain ⟨later, hlater, h⟩ := bind_ok h
    obtain rfl := Except.ok.inj h
    simp [ih hlater]

theorem length_liftMixed (h : liftMixed ts = .ok us) : us.length = ts.length := by
  unfold liftMixed at h
  split at h
  · exact length_of_mapM h
  · rw [← Except.ok.inj h]

theorem told_lifted (hbuild : ∀ a b, Told (build a b)) (a b : Term) : Told (lifted build a b) := by
  refine .bind (told_liftMixed _) fun us hus => ?_
  split
  · exact hbuild _ _
  · rename_i hpair
    match us, length_liftMixed hus with
    | [left, right], _ => exact (hpair left right rfl).elim

theorem told_leftChain {P : Term → Prop} (hkeeps : KeepsBuilder P build)
    (hbuild : ∀ a b, P a → P b → Told (build a b)) (ha : P a) (hts : ∀ t ∈ ts, P t) :
    Told (leftChain build a ts) := by
  induction ts generalizing a with
  | nil => exact .ok _
  | cons t rest ih =>
    obtain ⟨ht, hrest⟩ := List.forall_mem_cons.mp hts
    exact .bind (hbuild a t ha ht) fun next hnext => ih (hkeeps hnext ha ht) hrest

/-- A chain of nodes that can be built of all operands. -/
theorem told_anyChain (hbuild : ∀ a b, Told (build a b)) (a : Term) (ts : List Term) :
    Told (leftChain build a ts) :=
  told_leftChain (P := fun _ => True) (fun _ _ _ => trivial) (fun a b _ _ => hbuild a b) trivial
    fun _ _ => trivial

theorem told_impliesChain (a : Term) (ts : List Term) : Told (impliesChain a ts) := by
  induction ts generalizing a with
  | nil => exact .ok _
  | cons t rest ih => exact .bind (ih t) fun _ _ => told_checked _

theorem told_chained (hbuild : ∀ a b, Told (build a b)) (ts : List Term) :
    Told (chained build ts) := by
  have hneighbours : Told (neighbours build ts) := by
    induction ts with
    | nil => exact .ok _
    | cons a rest ih =>
      cases rest with
      | nil => exact .ok _
      | cons b rest =>
        exact .bind (hbuild a b) fun _ _ => .bind ih fun _ _ => .ok _
  exact .bind hneighbours fun _ _ => told_mkAnd _

theorem told_mkComparison (comparison : Comparison) (a b : Term) :
    Told (mkComparison comparison a b) := by
  cases comparison <;> exact told_checked _

theorem told_mkRealDiv (a b : Term) : Told (mkRealDiv a b) :=
  .bind (told_liftToReal a) fun _ _ => .bind (told_liftToReal b) fun _ _ => told_mkArith _ _ _

theorem answered_mkNegative (t : Term) : Answered (mkNegative t) := by
  unfold mkNegative
  split
  · exact .ok _
  · exact .ok _
  · split
    · rename_i hask
      exact .error (told_askForNumber _ _ hask)
    · exact (told_mkArith .mul (.int (-1)) _).mapError fun _ hsilent => hsilent
    · exact (told_mkArith .mul (.real (-1)) _).mapError fun _ hsilent => hsilent
    · exact .error (by simp [Refusal.Silent, Error.isSilent])

theorem answered_mkMod (a b : Term) : Answered (mkMod a b) := by
  unfold mkMod
  split
  · exact .bind (answered_lift (told_mkArith _ _ _)) fun _ _ =>
      .bind (answered_lift (told_mkArith _ _ _)) fun _ _ => answered_lift (told_mkArith _ _ _)
  · exact .error (by simp [Refusal.Silent, Error.isSilent])

theorem answered_mkAbs (t : Term) : Answered (mkAbs t) := by
  have hzero (zero : Term) :
      Answered (do mkIte (← mkComparison .ge t zero) t (← mkNegative t)) :=
    .bind (answered_lift (told_mkComparison _ _ _)) fun _ _ =>
      .bind (answered_mkNegative t) fun _ _ => answered_lift (told_checked _)
  unfold mkAbs
  split
  · exact hzero (.int 0)
  · exact hzero (.real 0)
  · exact .bind (.error (by simp [Refusal.Silent, Error.isSilent])) fun zero _ => hzero zero

/-! ### Operators on bit-vectors -/

theorem told_needWidth (h : t.isBitVec = true) : Told (needWidth t) := by
  obtain ⟨width, hsort⟩ := isBitVec_iff.mp h
  rw [needWidth, width?, hsort]
  exact .ok _

theorem told_mkBitUnary (op : BitUnary) (h : a.isBitVec = true) : Told (mkBitUnary op a) :=
  .bind (told_needWidth h) fun _ _ => told_checked _

theorem told_mkBitOp (op : BitOp) (b : Term) (h : a.isBitVec = true) : Told (mkBitOp op a b) :=
  .bind (told_needWidth h) fun _ _ => told_checked _

theorem told_mkBitOrder (op : BitOrder) (b : Term) (h : a.isBitVec = true) :
    Told (mkBitOrder op a b) :=
  .bind (told_needWidth h) fun _ _ => told_checked _

theorem told_mkConcat (ha : a.isBitVec = true) (hb : b.isBitVec = true) : Told (mkConcat a b) :=
  .bind (told_needWidth ha) fun _ _ => .bind (told_needWidth hb) fun _ _ => told_checked _

theorem told_mkRotate (side : Side) (step : Nat) (h : a.isBitVec = true) :
    Told (mkRotate side step a) :=
  .bind (told_needWidth h) fun _ _ => told_checked _

theorem told_mkWiden (bits : Widening) (extra : Nat) (h : a.isBitVec = true) :
    Told (mkWiden bits extra a) :=
  .bind (told_needWidth h) fun _ _ => told_checked _

theorem told_mkExtract {high low : Nat} (hwidth : high + 1 - low ≤ a.sort.width)
    (hle : low ≤ high) : Told (mkExtract high low a) := by
  unfold SmtSort.width at hwidth
  unfold mkExtract needWidth width?
  cases hsome : a.sort.width? with
  | none =>
    simp only [hsome, Option.getD_none] at hwidth
    omega
  | some width =>
    rw [hsome, Option.getD_some] at hwidth
    refine .bind (.ok _) fun width' hok => ?_
    obtain rfl := Except.ok.inj hok
    rw [if_pos (by simp [hwidth, hle])]
    exact told_checked _

theorem sort_mkBitUnary {op : BitUnary} (h : mkBitUnary op a = .ok u) : u.sort = a.sort := by
  obtain ⟨_, _, h⟩ := bind_ok h
  rw [(checked_ok h).2, sort.eq_def]

theorem sort_mkBitOp {op : BitOp} (h : mkBitOp op a b = .ok u) : u.sort = a.sort := by
  obtain ⟨_, _, h⟩ := bind_ok h
  rw [(checked_ok h).2, sort.eq_def]

theorem isBitVec_mkConcat (h : mkConcat a b = .ok u) : u.isBitVec = true := by
  obtain ⟨_, _, h⟩ := bind_ok h
  obtain ⟨_, _, h⟩ := bind_ok h
  rw [(checked_ok h).2, isBitVec_iff, sort.eq_def]
  exact ⟨_, rfl⟩

theorem told_mkCopies (h : a.isBitVec = true) (count : Nat) :
    Told (mkCopies a count) ∧ ∀ u, mkCopies a count = .ok u → u.isBitVec = true := by
  induction count with
  | zero => exact ⟨.ok _, fun u hu => Except.ok.inj hu ▸ h⟩
  | succ count ih =>
    refine ⟨.bind ih.1 fun u hu => told_mkConcat (ih.2 u hu) h, fun u hu => ?_⟩
    obtain ⟨v, _, hu⟩ := bind_ok hu
    exact isBitVec_mkConcat hu

theorem told_mkBitAbs (sign : Term) (h : a.isBitVec = true) : Told (mkBitAbs sign a) :=
  .bind (told_mkSame _ _) fun _ _ => .bind (told_mkBitUnary _ h) fun _ _ => told_checked _

theorem sort_mkBitAbs {sign : Term} (h : mkBitAbs sign a = .ok u) : u.sort = a.sort := by
  obtain ⟨_, _, h⟩ := bind_ok h
  obtain ⟨_, _, h⟩ := bind_ok h
  rw [(checked_ok h).2, sort.eq_def]

theorem isBitVec_of_sort (h : u.sort = a.sort) (ha : a.isBitVec = true) : u.isBitVec = true := by
  rw [isBitVec_iff, h]
  exact isBitVec_iff.mp ha

/-- Whether a term is a bit-vector that has bits. -/
def HasBits (t : Term) : Prop := 0 < t.sort.width

theorem HasBits.isBitVec (h : t.HasBits) : t.isBitVec = true := by
  rw [isBitVec_iff]
  cases hsort : t.sort <;> simp [HasBits, hsort, SmtSort.width, SmtSort.width?] at h ⊢

/-- The sign bits are there to be asked for. -/
theorem told_mkSMod (ha : a.HasBits) (hb : b.HasBits) : Told (mkSMod a b) := by
  have hsign (width : Nat) {t : Term} (ht : t.HasBits) :
      Told (mkExtract (width - 1) (width - 1) t) := by
    have hone : width - 1 + 1 - (width - 1) = 1 := by omega
    exact told_mkExtract (hone.symm ▸ ht) (Nat.le_refl _)
  unfold mkSMod
  refine .bind (told_needWidth ha.isBitVec) fun width _ => ?_
  refine .bind (hsign width ha) fun leftSign _ => .bind (hsign width hb) fun rightSign _ => ?_
  refine .bind (told_mkBitAbs _ ha.isBitVec) fun leftAbs hleft => ?_
  refine .bind (told_mkBitAbs _ hb.isBitVec) fun rightAbs _ => ?_
  have hleftAbs := isBitVec_of_sort (sort_mkBitAbs hleft) ha.isBitVec
  refine .bind (told_mkBitOp _ _ hleftAbs) fun rest hrest => ?_
  have hrestBits := isBitVec_of_sort (sort_mkBitOp hrest) hleftAbs
  refine .bind (told_mkBitUnary _ hrestBits) fun negRest hneg => ?_
  have hnegBits := isBitVec_of_sort (sort_mkBitUnary hneg) hrestBits
  -- The conditions compare bits and are told whatever they compare.
  refine .bind (told_mkSame _ _) fun _ _ => .bind (told_mkSame _ _) fun _ _ => ?_
  refine .bind (told_mkSame _ _) fun _ _ => .bind (told_mkAnd _) fun _ _ => ?_
  refine .bind (told_mkOr _) fun _ _ => .bind (told_mkSame _ _) fun _ _ => ?_
  refine .bind (told_mkSame _ _) fun _ _ => .bind (told_mkAnd _) fun _ _ => ?_
  refine .bind (told_mkSame _ _) fun _ _ => .bind (told_mkSame _ _) fun _ _ => ?_
  refine .bind (told_mkAnd _) fun _ _ => ?_
  refine .bind (told_mkBitOp _ _ hnegBits) fun _ _ => ?_
  refine .bind (told_mkBitOp _ _ hrestBits) fun _ _ => ?_
  exact .bind (told_checked _) fun _ _ => .bind (told_checked _) fun _ _ => told_checked _

end Term

open Term

/-- Whether an operator asks for the widths of its operands. -/
def Operator.takesBits : Operator → Bool
  | .concat | .bitUnary _ | .bitChain _ | .bitBinary _ | .bitNegated _ | .smod | .bitOrder _
  | .bitOrderSwapped _ => true
  | _ => false

theorem Operator.apply_told {op : Operator} {ts : List Term}
    (h : op.takesBits = true → ∀ t ∈ ts, t.HasBits) : Answered (op.apply ts) := by
  unfold Operator.apply
  split
  · exact answered_lift (told_mkNot _)
  · exact answered_lift (told_impliesChain _ _)
  · exact answered_lift (told_mkAnd _)
  · exact answered_lift (told_mkOr _)
  · exact answered_lift (told_anyChain told_mkXor _ _)
  · exact answered_lift (told_chained (told_lifted told_mkSame) _)
  · exact .bind (answered_lift (told_liftMixed _)) fun _ _ => answered_lift (told_mkDistinct _)
  · refine .bind (answered_lift (told_liftMixed _)) fun _ _ => ?_
    split
    · exact answered_lift (told_checked _)
    · exact .error (by simp [Refusal.Silent])
  · exact answered_lift (told_anyChain (told_lifted (told_mkArith _)) _ _)
  · exact answered_mkNegative _
  · exact answered_lift (told_anyChain (told_lifted (told_mkArith _)) _ _)
  · exact answered_lift (told_anyChain (told_lifted (told_mkArith _)) _ _)
  · exact answered_lift (told_anyChain told_mkRealDiv _ _)
  · split
    · exact answered_lift (told_anyChain (told_mkArith _) _ _)
    · exact answered_lift (told_anyChain (told_lifted (told_mkArith _)) _ _)
    · exact .error (by simp [Refusal.Silent, Error.isSilent])
  · exact answered_mkMod _ _
  · exact answered_mkAbs _
  · exact answered_lift (told_chained (told_lifted (told_mkComparison _)) _)
  · exact answered_lift (told_mkToReal _)
  · exact answered_lift (told_checked _)
  · exact answered_lift (told_checked _)
  · obtain ⟨ha, hrest⟩ := List.forall_mem_cons.mp fun t ht => (h rfl t ht).isBitVec
    exact answered_lift (told_leftChain (fun hu _ _ => isBitVec_mkConcat hu)
      (fun _ _ => told_mkConcat) ha hrest)
  · exact answered_lift (told_mkBitUnary _ (h rfl _ (by simp)).isBitVec)
  · obtain ⟨ha, hrest⟩ := List.forall_mem_cons.mp fun t ht => (h rfl t ht).isBitVec
    exact answered_lift (told_leftChain (P := fun t => t.isBitVec = true)
      (fun hu ha _ => isBitVec_of_sort (sort_mkBitOp hu) ha)
      (fun _ b ha _ => told_mkBitOp _ b ha) ha hrest)
  · exact answered_lift (told_mkBitOp _ _ (h rfl _ (by simp)).isBitVec)
  · have ha := (h rfl _ List.mem_cons_self).isBitVec
    exact answered_lift (.bind (told_mkBitOp _ _ ha) fun _ hu =>
      told_mkBitUnary _ (isBitVec_of_sort (sort_mkBitOp hu) ha))
  · exact answered_lift (told_checked _)
  · exact answered_lift (told_mkSMod (h rfl _ (by simp)) (h rfl _ (by simp)))
  · exact answered_lift (told_mkBitOrder _ _ (h rfl _ (by simp)).isBitVec)
  · exact answered_lift (told_mkBitOrder _ _ (h rfl _ (by simp)).isBitVec)
  · exact .error (by simp [Refusal.Silent])

end SmtScript
