import SmtScript.Proofs.SortTable
import SmtScript.Proofs.Term.HasSort
import SmtScript.Proofs.Term.Tame
import SmtScript.Proofs.Term.Written

/-!
Widths of bit-vectors in terms.

`SmtSort.HasBits` says that no bit-vector in a sort has width zero. Where the literals, the constant
arrays and the symbols of a term have such sorts, `Term.Bounded`, all its subterms do,
`Term.Bounded.hasBits`. Builders and substitution keep terms bounded.
-/

namespace SmtScript

/-! ### Sorts -/

namespace SmtSort

/-- Whether all bit-vectors in a sort have bits. -/
def HasBits : SmtSort → Prop
  | .bitVec width => 0 < width
  | .array index element => index.HasBits ∧ element.HasBits
  | .arrow domain codomain => domain.HasBits ∧ codomain.HasBits
  | _ => True

variable {sort : SmtSort}

theorem HasBits.function {domains : List SmtSort} (hdomains : ∀ domain ∈ domains, domain.HasBits)
    (h : sort.HasBits) : (function domains sort).HasBits := by
  induction domains with
  | nil => exact h
  | cons domain rest ih =>
    obtain ⟨hdomain, hrest⟩ := List.forall_mem_cons.mp hdomains
    exact ⟨hdomain, ih hrest⟩

theorem HasBits.afterArguments (h : sort.HasBits) (count : Nat) :
    (sort.afterArguments count).HasBits := by
  fun_induction SmtSort.afterArguments count sort with
  | case1 count domain codomain ih => exact ih h.2
  | case2 => exact h

theorem HasBits.element (h : sort.HasBits) : sort.element.HasBits := by
  cases sort with
  | array index element => exact h.2
  | _ => exact h

/-- The width of a bit-vector sort is the number of its bits. -/
theorem HasBits.width_pos (h : sort.HasBits) {width : Nat} (hsort : sort = .bitVec width) :
    0 < sort.width := by
  subst hsort
  exact h

end SmtSort

namespace SortTable

variable {table : SortTable} {sort : SmtSort}

theorem Writes.hasBits (h : table.Writes sort) : sort.HasBits := by
  induction h with
  | bitVec hwidth => exact hwidth
  | array _ _ hindex helement => exact ⟨hindex, helement⟩
  | _ => trivial

/-- No bit-vector in a sort that is read has width zero. -/
theorem hasBits_of_parse {s : SExpr} (h : table.parse s = .ok sort) : sort.HasBits :=
  (writes_of_parse h).hasBits

theorem hasBits_of_mapM {domains : List SExpr} {sorts : List SmtSort}
    (h : domains.mapM table.parse = .ok sorts) : ∀ sort ∈ sorts, sort.HasBits := by
  induction domains generalizing sorts with
  | nil =>
    obtain rfl := Except.ok.inj h
    exact nofun
  | cons domain rest ih =>
    rw [List.mapM_cons] at h
    obtain ⟨first, hfirst, h⟩ := Term.bind_ok h
    obtain ⟨later, hlater, h⟩ := Term.bind_ok h
    obtain rfl := Except.ok.inj h
    exact List.forall_mem_cons.mpr ⟨hasBits_of_parse hfirst, ih hlater⟩

end SortTable

/-! ### Terms -/

namespace Term

variable {W W' : SmtSort → Prop} {P P' : Term → Prop} {σ : Substitution}
  {allowed allowed' : Symbol → Prop} {t u a : Term} {ts : List Term}

theorem Made.mono (h : t.Made W) (hsub : ∀ sort, W sort → W' sort) : t.Made W' := by
  cases t with
  | bitVec width value => exact hsub _ h
  | constArray index v => exact hsub _ h
  | _ => exact h

theorem Substituted.and (h : Substituted σ P) (h' : Substituted σ P') :
    Substituted σ fun t => P t ∧ P' t where
  atOnce ht hu := ⟨h.atOnce ht.1 hu, h'.atOnce ht.2 hu⟩
  walked :=
    { operand := fun ht ha => ⟨h.walked.operand ht.1 ha, h'.walked.operand ht.2 ha⟩
      compute := fun ht hts hu =>
        ⟨h.walked.compute ht.1 (fun a ha => (hts a ha).1) hu,
          h'.walked.compute ht.2 (fun a ha => (hts a ha).2) hu⟩ }

/-- Whether a term is well-sorted, its literals and constant arrays have sorts with bits, and its
symbols, bound or not, are allowed ones. -/
def Bounded (allowed : Symbol → Prop) (t : Term) : Prop :=
  (t.Sound allowed ∧ t.Tame allowed) ∧ t.Written SmtSort.HasBits

theorem Bounded.mono (h : t.Bounded allowed) (hsub : ∀ s, allowed s → allowed' s) :
    t.Bounded allowed' :=
  ⟨⟨h.1.1.mono hsub, h.1.2.mono hsub⟩, h.2⟩

theorem bounded_symbol {s : Symbol} (hs : allowed s) : (Term.symbol s).Bounded allowed :=
  ⟨⟨sound_symbol.mpr hs, tame_symbol s⟩, written_symbol s⟩

theorem hereditary_bounded (allowed : Symbol → Prop) :
    Hereditary SmtSort.HasBits (Bounded allowed) where
  bits := id
  node hfits hmade hoperands :=
    have hany := hmade.mono fun _ _ => trivial
    ⟨⟨(hereditary_sound allowed).node hfits hany fun a ha => (hoperands a ha).1.1,
      (hereditary_tame allowed).node hfits hany fun a ha => (hoperands a ha).1.2⟩,
      (hereditary_written id).node hfits hmade fun a ha => (hoperands a ha).2⟩
  negated h := ⟨⟨(hereditary_sound allowed).negated h.1.1, (hereditary_tame allowed).negated h.1.2⟩,
    (hereditary_written id).negated h.2⟩

theorem bounded_mkApply {f : Symbol} (h : mkApply f ts = .ok u) (hf : allowed f)
    (hts : ∀ t ∈ ts, t.Bounded allowed) : u.Bounded allowed :=
  ⟨⟨sound_mkApply h hf fun t ht => (hts t ht).1.1, tame_mkApply h fun t ht => (hts t ht).1.2⟩,
    written_mkApply h fun t ht => (hts t ht).2⟩

theorem bounded_mkQuantified {q : Quantifier} {bound : List Symbol}
    (h : mkQuantified q bound t = .ok u) (ht : t.Bounded allowed)
    (hbound : ∀ s ∈ bound, allowed s) : u.Bounded allowed :=
  ⟨⟨sound_mkQuantified h (ht.1.1.mono fun _ => .inl), tame_mkQuantified h ht.1.2 hbound⟩,
    written_mkQuantified h ht.2⟩

/-- What is put in bounded terms leaves bounded terms behind. -/
theorem substituted_bounded (hσ : ∀ p ∈ σ, p.2.Bounded allowed) :
    Substituted σ (Bounded allowed) := by
  have hsound : SoundSubstitution allowed σ := fun p hp => (hσ p hp).1.1
  have htame := (substitutive_tame allowed).substituted fun p hp => (hσ p hp).1.2
  have hwritten := (substitutive_written (W := SmtSort.HasBits) id).substituted fun p hp =>
    (hσ p hp).2
  exact (hsound.substituted.and htame).and hwritten

theorem Bounded.operand (h : t.Bounded allowed) (ha : a ∈ t.operands) : a.Bounded allowed := by
  refine ⟨⟨?_, h.1.2.operand ha⟩, h.2.operand ha⟩
  by_cases hquantified : ∃ q bound body, t = .quantified q bound body
  · obtain ⟨q, bound, body, rfl⟩ := hquantified
    obtain rfl : a = body := by simpa [operands] using ha
    exact h.1.1.body.mono fun s hs => hs.elim id (h.1.2.bound s)
  · exact h.1.1.operand (fun q bound body heq => hquantified ⟨q, bound, body, heq⟩) ha

theorem Bounded.subterm (h : t.Bounded allowed) (hu : u.Subterm t) : u.Bounded allowed := by
  induction hu using Relation.ReflTransGen.head_induction_on with
  | refl => exact h
  | head hoperand _ ih => exact ih.operand hoperand

/-- The sort of a bounded term over symbols with bits has bits. -/
theorem Bounded.hasBits (h : t.Bounded fun s => s.sort.HasBits) : t.sort.HasBits := by
  induction t using operands_induction with
  | step t ih =>
    have hoperand (a : Term) (ha : a ∈ t.operands) : a.sort.HasBits := ih a ha (h.operand ha)
    have hspellable := h.2.spellable
    have hhead := head_allowed h.1.1
    have hfits := h.1.1.wellSorted.fits
    -- most nodes have a sort of an operand or of the head; the others get bits from their check
    cases t with
    | bitVec width value => exact hspellable
    | symbol s => exact hhead s rfl
    | apply f args => exact (hhead f rfl).afterArguments _
    | ite c a b => exact hoperand a (by simp [operands])
    | arith op a b => exact hoperand a (by simp [operands])
    | select a i => exact (hoperand a (by simp [operands])).element
    | store a i v => exact hoperand a (by simp [operands])
    | constArray index v => exact ⟨hspellable, hoperand v (by simp [operands])⟩
    | bitUnary op a => exact hoperand a (by simp [operands])
    | bitOp op a b => exact hoperand a (by simp [operands])
    | rotate side step a => exact hoperand a (by simp [operands])
    | bitEqual a b => exact Nat.one_pos
    | concat a b =>
      simp only [fits, Bool.and_eq_true] at hfits
      obtain ⟨_, hleft⟩ := isBitVec_iff.mp hfits.1
      exact Nat.add_pos_left ((hoperand a (by simp [operands])).width_pos hleft) _
    | extract high low a =>
      simp only [fits, Bool.and_eq_true, decide_eq_true_eq] at hfits
      exact Nat.sub_pos_of_lt (Nat.lt_succ_of_le hfits.1.2)
    | widen bits extra a =>
      obtain ⟨_, hsort⟩ := isBitVec_iff.mp hfits
      exact Nat.add_pos_left ((hoperand a (by simp [operands])).width_pos hsort) _
    | _ => trivial

end Term

end SmtScript
