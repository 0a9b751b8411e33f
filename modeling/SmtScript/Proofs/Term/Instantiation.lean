import Mathlib.Data.List.Forall2
import SmtScript.Proofs.Term.Builds
import SmtScript.Proofs.Term.Tame

/-!
What a substitution means.

A node that is built again from operands of the sorts that it had has the sort that it had, and
its value depends on those of its operands in the same way, `builds_rebuild`. So a substitution of
terms of the right sorts succeeds and keeps the sort, `substitute_typed`, and the result has the
value that the term has once the symbols have the values of what is put in their place,
`substitute_becomes`, if no bound variable is free in what is put under it.
-/

namespace SmtScript

namespace Term

variable {t a b c : Term} {us : List Term} {σ : Substitution}

/-- A term of the sort of a bit-vector has the width that is asked for. -/
theorem Typed.with_width {sort : SmtSort} {value : Interpretation → Value}
    {f : Nat → Except Fault Term} (ha : a.Typed b.sort) (hb : b.isBitVec = true)
    (hf : ∀ width, b.width? = some width → Builds (f width) sort value) :
    Builds (needWidth a >>= f) sort value := by
  obtain ⟨width, hwidth⟩ := Option.isSome_iff_exists.mp hb
  have hneed : needWidth a = .ok width := by
    rw [needWidth, width?, ha.sort_eq]
    simp [width?] at hwidth
    simp [hwidth]
  rw [hneed]
  exact hf width hwidth

/-- Whether operands are well-sorted and of the sorts of others. -/
abbrev SameSorts (ts us : List Term) : Prop :=
  List.Forall₂ (fun a u => u.Typed a.sort) ts us

theorem SameSorts.wellSorted {ts : List Term} (h : SameSorts ts us) : ∀ u ∈ us, u.WellSorted := by
  induction h with
  | nil => nofun
  | cons hu _ ih => exact List.forall_mem_cons.mpr ⟨hu.wellSorted, ih⟩

theorem SameSorts.map_sort {ts : List Term} (h : SameSorts ts us) :
    us.map Term.sort = ts.map Term.sort := by
  induction h with
  | nil => rfl
  | cons hu _ ih => rw [List.map_cons, List.map_cons, hu.sort_eq, ih]

theorem SameSorts.typed {ts : List Term} {sort : SmtSort} (h : SameSorts ts us)
    (hts : ∀ t ∈ ts, t.sort = sort) : ∀ u ∈ us, u.Typed sort := by
  induction h with
  | nil => nofun
  | cons hu _ ih =>
    obtain ⟨hfirst, hrest⟩ := List.forall_mem_cons.mp hts
    exact List.forall_mem_cons.mpr ⟨hfirst ▸ hu, ih hrest⟩

theorem SameSorts.one (h : SameSorts [a] us) : ∃ a', us = [a'] ∧ a'.Typed a.sort := by
  cases h with
  | cons ha hnil =>
    cases hnil
    exact ⟨_, rfl, ha⟩

theorem SameSorts.two (h : SameSorts [a, b] us) :
    ∃ a' b', us = [a', b'] ∧ a'.Typed a.sort ∧ b'.Typed b.sort := by
  cases h with
  | cons ha h =>
    obtain ⟨b', rfl, hb⟩ := SameSorts.one h
    exact ⟨_, b', rfl, ha, hb⟩

theorem SameSorts.three (h : SameSorts [a, b, c] us) :
    ∃ a' b' c', us = [a', b', c'] ∧ a'.Typed a.sort ∧ b'.Typed b.sort ∧ c'.Typed c.sort := by
  cases h with
  | cons ha h =>
    obtain ⟨b', c', rfl, hb, hc⟩ := SameSorts.two h
    exact ⟨_, b', c', rfl, ha, hb, hc⟩

/-- A node with other operands of the same sorts. -/
theorem builds_same {u : Term} (hfits : u.fits = t.fits) (hsort : u.sort = t.sort)
    (hroot : u.root = t.root) (hinterpreted : t.root.isInterpreted = false) (ht : t.fits = true)
    (hoperands : ∀ a ∈ u.operands, a.WellSorted) :
    Builds (checked u) t.sort fun I => rootValue t.root (u.operands.map fun a => a.eval I) := by
  have h := builds_checked (hfits.trans ht) hoperands
  rw [hsort] at h
  exact h.congr fun I _ => by rw [eval_eq_rootValue u (hroot ▸ hinterpreted), hroot]

/-- A node that is built again from operands of the sorts that it had. -/
theorem builds_rebuild (hfits : t.fits = true) (hroot : t.root.isInterpreted = false)
    (hus : SameSorts t.operands us) :
    Builds (rebuild t.root us) t.sort fun I => rootValue t.root (us.map fun u => u.eval I) := by
  have hwell := hus.wellSorted
  cases t with
  | bool value => exact Builds.ok (.node rfl nofun)
  | int value => exact Builds.ok (typed_int value)
  | real value => exact Builds.ok (typed_real value)
  | bitVec width value => exact Builds.ok (.node rfl nofun)
  | symbol s => cases hroot
  | apply f args => cases hroot
  | quantified q bound body => cases hroot
  | not a =>
    obtain ⟨a', rfl, ha⟩ := hus.one
    have hbool : a.sort = .bool := by simpa [fits, isBool] using hfits
    exact builds_mkNot (hbool ▸ ha)
  | and ts =>
    have hts : ∀ t ∈ ts, t.sort = .bool := by simpa [fits, isBool] using hfits
    refine (builds_mkAnd (hus.typed hts)).congr fun I _ => ?_
    simp [root, rootValue, Function.comp_def]
  | or ts =>
    have hts : ∀ t ∈ ts, t.sort = .bool := by simpa [fits, isBool] using hfits
    refine (builds_mkOr (hus.typed hts)).congr fun I _ => ?_
    simp [root, rootValue, Function.comp_def]
  | arith op a b =>
    obtain ⟨a', b', rfl, ha, hb⟩ := hus.two
    have hsorts : (a.sort = .int ∨ a.sort = .real) ∧ b.sort = a.sort := by
      simp [fits, isInt, isReal] at hfits
      grind
    exact builds_mkArith op hsorts.1 ha (hsorts.2 ▸ hb)
  | toReal a =>
    obtain ⟨a', rfl, ha⟩ := hus.one
    have hint : a.sort = .int := by simpa [fits, isInt] using hfits
    exact builds_mkToReal (.inl rfl) (hint ▸ ha)
  | implies a b =>
    obtain ⟨a', b', rfl, ha, hb⟩ := hus.two
    exact builds_same (t := .implies a b) (u := .implies a' b')
      (by simp [fits, isBool, ha.sort_eq, hb.sort_eq]) rfl rfl rfl hfits hwell
  | iff a b =>
    obtain ⟨a', b', rfl, ha, hb⟩ := hus.two
    exact builds_same (t := .iff a b) (u := .iff a' b')
      (by simp [fits, isBool, ha.sort_eq, hb.sort_eq]) rfl rfl rfl hfits hwell
  | equal a b =>
    obtain ⟨a', b', rfl, ha, hb⟩ := hus.two
    exact builds_same (t := .equal a b) (u := .equal a' b')
      (by simp [fits, isBool, ha.sort_eq, hb.sort_eq]) rfl rfl rfl hfits hwell
  | order op a b =>
    obtain ⟨a', b', rfl, ha, hb⟩ := hus.two
    exact builds_same (t := .order op a b) (u := .order op a' b')
      (by simp [fits, isInt, isReal, ha.sort_eq, hb.sort_eq]) rfl rfl rfl hfits hwell
  | ite c a b =>
    obtain ⟨c', a', b', rfl, hc, ha, hb⟩ := hus.three
    exact builds_same (t := .ite c a b) (u := .ite c' a' b')
      (by simp [fits, isBool, hc.sort_eq, ha.sort_eq, hb.sort_eq]) ha.sort_eq rfl rfl hfits hwell
  | select a i =>
    obtain ⟨a', i', rfl, ha, hi⟩ := hus.two
    exact builds_same (t := .select a i) (u := .select a' i')
      (by simp [fits, ha.sort_eq, hi.sort_eq]) (by simp [sort, ha.sort_eq]) rfl rfl hfits hwell
  | store a i v =>
    obtain ⟨a', i', v', rfl, ha, hi, hv⟩ := hus.three
    exact builds_same (t := .store a i v) (u := .store a' i' v')
      (by simp [fits, ha.sort_eq, hi.sort_eq, hv.sort_eq]) ha.sort_eq rfl rfl hfits hwell
  | constArray index v =>
    obtain ⟨v', rfl, hv⟩ := hus.one
    exact builds_same (t := .constArray index v) (u := .constArray index v')
      rfl (by simp [sort, hv.sort_eq]) rfl rfl hfits hwell
  | bitEqual a b =>
    obtain ⟨a', b', rfl, ha, hb⟩ := hus.two
    exact builds_same (t := .bitEqual a b) (u := .bitEqual a' b')
      (by simp [fits, isBitVec, width?, ha.sort_eq, hb.sort_eq]) rfl rfl rfl hfits hwell
  | bitUnary op a =>
    obtain ⟨a', rfl, ha⟩ := hus.one
    refine ha.with_width hfits fun _ _ => ?_
    exact builds_same (t := .bitUnary op a) (u := .bitUnary op a')
      (by simp [fits, isBitVec, width?, ha.sort_eq]) ha.sort_eq rfl rfl hfits hwell
  | bitOp op a b =>
    obtain ⟨a', b', rfl, ha, hb⟩ := hus.two
    refine ha.with_width (Bool.and_eq_true_iff.mp hfits).1 fun _ _ => ?_
    exact builds_same (t := .bitOp op a b) (u := .bitOp op a' b')
      (by simp [fits, isBitVec, width?, ha.sort_eq, hb.sort_eq]) ha.sort_eq rfl rfl hfits hwell
  | bitOrder op a b =>
    obtain ⟨a', b', rfl, ha, hb⟩ := hus.two
    refine ha.with_width (Bool.and_eq_true_iff.mp hfits).1 fun _ _ => ?_
    exact builds_same (t := .bitOrder op a b) (u := .bitOrder op a' b')
      (by simp [fits, isBitVec, width?, ha.sort_eq, hb.sort_eq]) rfl rfl rfl hfits hwell
  | concat a b =>
    obtain ⟨a', b', rfl, ha, hb⟩ := hus.two
    have hwidths := Bool.and_eq_true_iff.mp hfits
    refine ha.with_width hwidths.1 fun _ _ => hb.with_width hwidths.2 fun _ _ => ?_
    exact builds_same (t := .concat a b) (u := .concat a' b')
      (by simp [fits, isBitVec, width?, ha.sort_eq, hb.sort_eq])
      (by simp [sort, ha.sort_eq, hb.sort_eq]) rfl rfl hfits hwell
  | extract high low a =>
    obtain ⟨a', rfl, ha⟩ := hus.one
    have hbits : (a.isBitVec = true ∧ low ≤ high) ∧ high < a.sort.width := by
      simpa [fits] using hfits
    refine ha.with_width hbits.1.1 fun width hwidth => ?_
    have hwidth' : a.sort.width = width := congrArg (Option.getD · 0) hwidth
    rw [if_pos (by simp; omega)]
    exact builds_same (t := .extract high low a) (u := .extract high low a')
      (by simp [fits, isBitVec, width?, ha.sort_eq]) rfl rfl rfl hfits hwell
  | rotate side step a =>
    obtain ⟨a', rfl, ha⟩ := hus.one
    refine ha.with_width (Bool.and_eq_true_iff.mp hfits).1 fun _ _ => ?_
    exact builds_same (t := .rotate side step a) (u := .rotate side step a')
      (by simp [fits, isBitVec, width?, ha.sort_eq]) ha.sort_eq rfl rfl hfits hwell
  | widen bits extra a =>
    obtain ⟨a', rfl, ha⟩ := hus.one
    refine ha.with_width hfits fun _ _ => ?_
    exact builds_same (t := .widen bits extra a) (u := .widen bits extra a')
      (by simp [fits, isBitVec, width?, ha.sort_eq]) (by simp [sort, ha.sort_eq]) rfl rfl hfits
      hwell

end Term

/-! ### Interpretations -/

namespace Interpretation

variable {I : Interpretation} {σ : Substitution} {s : Symbol} {v : Value}

/-- Whether, besides, only values of a sort count where all values of it are asked for. -/
structure Proper (I : Interpretation) : Prop extends WellSorted I where
  ranges : ∀ (sort : SmtSort) (p q : Value → Bool), (∀ v : Value, v.HasSort sort → p v = q v) →
    I.holdsOfAll sort p = I.holdsOfAll sort q

theorem Proper.assign (hI : I.Proper) (hv : v.HasSort s.sort) : (I.assign s v).Proper :=
  ⟨hI.toWellSorted.assign hv, hI.ranges⟩

/-- The interpretation in which symbols have the values of what is put in their place. -/
def bind (I : Interpretation) (σ : Substitution) : Interpretation :=
  { I with symbol := fun s =>
      match σ.lookup s with
      | some t => t.eval I
      | none => I.symbol s }

/-- A value for a symbol that has nothing to do with a substitution. -/
theorem bind_assign (hs : σ.lookup s = none) (hfree : ∀ p ∈ σ, s ∉ p.2.freeSymbols) (v : Value) :
    (I.assign s v).bind σ = (I.bind σ).assign s v := by
  have heval (p : Symbol × Term) (hp : p ∈ σ) : p.2.eval (I.assign s v) = p.2.eval I := by
    refine Term.eval_congr ⟨fun s' hs' => ?_, rfl, rfl⟩
    have hne : s' ≠ s := fun heq => hfree p hp (heq ▸ hs')
    simp [Interpretation.assign, hne]
  simp only [Interpretation.bind, Interpretation.assign, Interpretation.mk.injEq, and_true]
  funext s'
  by_cases heq : s' = s
  · simp [heq, hs]
  · simp only [heq, if_false]
    split
    · rename_i t hlookup
      obtain ⟨before, after, hsplit, _⟩ := List.lookup_eq_some_iff.mp hlookup
      exact heval (s', t) (by simp [hsplit])
    · rfl

/-- Asking for all values of variables that have nothing to do with a substitution. -/
theorem forAll_bind {f g : Interpretation → Bool} {bound : List Symbol}
    (hbound : ∀ s ∈ bound, σ.lookup s = none ∧ ∀ p ∈ σ, s ∉ p.2.freeSymbols) (hI : I.Proper)
    (hfg : ∀ J : Interpretation, J.Proper → f J = g (J.bind σ)) :
    I.forAll bound f = (I.bind σ).forAll bound g := by
  induction bound generalizing I with
  | nil => exact hfg I hI
  | cons s rest ih =>
    obtain ⟨⟨hs, hfree⟩, hrest⟩ := List.forall_mem_cons.mp hbound
    refine hI.ranges s.sort _ _ fun v hv => ?_
    rw [ih hrest (hI.assign hv), bind_assign hs hfree]

end Interpretation

/-! ### Substitution -/

namespace Term

variable {t : Term} {σ : Substitution} {hidden : Symbol → Prop}

/-- Whether a term has become another one by a substitution, as far as its sort and its value go. -/
structure Becomes (σ : Substitution) (t u : Term) : Prop where
  typed : u.Typed t.sort
  eval : ∀ I : Interpretation, I.Proper → u.eval I = t.eval (I.bind σ)

theorem collect_forall₂ {α β : Type} {f : α → Except Fault β} {P : α → β → Prop} {as : List α}
    (h : ∀ a ∈ as, ∃ b, f a = .ok b ∧ P a b) :
    ∃ bs, collect (as.map f) = .ok bs ∧ List.Forall₂ P as bs := by
  induction as with
  | nil => exact ⟨[], rfl, .nil⟩
  | cons a rest ih =>
    obtain ⟨⟨b, hb, hP⟩, hrest⟩ := List.forall_mem_cons.mp h
    obtain ⟨bs, hbs, hPs⟩ := ih hrest
    exact ⟨b :: bs, by simp [collect, hb, hbs]; rfl, .cons hP hPs⟩

theorem sameSorts_of_becomes {ts us : List Term} (h : List.Forall₂ (Becomes σ) ts us) :
    SameSorts ts us :=
  List.Forall₂.imp (fun _ _ hbecomes => hbecomes.typed) h

theorem map_eval_of_becomes {ts us : List Term} (h : List.Forall₂ (Becomes σ) ts us)
    {I : Interpretation} (hI : I.Proper) :
    us.map (fun u => u.eval I) = ts.map fun t => t.eval (I.bind σ) := by
  induction h with
  | nil => rfl
  | cons hbecomes _ ih => rw [List.map_cons, List.map_cons, hbecomes.eval I hI, ih]

theorem becomes_symbol (hσ : ∀ p ∈ σ, p.2.Typed p.1.sort) (s : Symbol) :
    Becomes σ (.symbol s) ((σ.lookup s).getD (.symbol s)) := by
  cases hlookup : σ.lookup s with
  | none =>
    exact ⟨.node rfl nofun, fun I _ => by simp [eval, Interpretation.bind, hlookup]⟩
  | some t =>
    obtain ⟨before, after, hsplit, _⟩ := List.lookup_eq_some_iff.mp hlookup
    exact ⟨hσ (s, t) (by simp [hsplit]), fun I _ => by simp [eval, Interpretation.bind, hlookup]⟩

theorem mkApply_typed {f : Symbol} {args us : List Term} (hfits : (Term.apply f args).fits = true)
    (hus : SameSorts args us) : ∃ u, mkApply f us = .ok u ∧ u.Typed (Term.apply f args).sort := by
  have hlength : us.length = args.length := hus.length_eq.symm
  unfold mkApply
  split
  · rename_i hempty
    obtain rfl := List.isEmpty_iff.mp hempty
    obtain rfl := List.length_eq_zero_iff.mp hlength.symm
    exact ⟨_, rfl, .node rfl nofun, rfl⟩
  · have hfits' : (Term.apply f us).fits = true := by
      simpa [fits, hlength, hus.map_sort] using hfits
    obtain ⟨u, hu, htyped, _⟩ := builds_checked hfits' hus.wellSorted
    exact ⟨u, hu, htyped.wellSorted, by simp [htyped.sort_eq, sort, hlength]⟩

theorem mkQuantified_typed {q : Quantifier} {bound : List Symbol} {body v : Term}
    (hbool : body.sort = .bool) (hv : v.Typed body.sort) :
    ∃ u, mkQuantified q bound v = .ok u ∧ u.Typed .bool := by
  unfold mkQuantified
  split
  · exact ⟨v, rfl, hbool ▸ hv⟩
  · have hfits : (Term.quantified q bound v).fits = true := by
      simpa [fits, isBool, hv.sort_eq] using hbool
    obtain ⟨u, hu, htyped, _⟩ := builds_checked hfits (by simpa [operands] using hv.wellSorted)
    exact ⟨u, hu, htyped⟩

/-- Terms of the right sorts can be put in the place of symbols, and the sort stays. -/
theorem substitute_typed (hwell : t.WellSorted) (hσ : ∀ p ∈ σ, p.2.Typed p.1.sort) :
    ∃ u, t.substitute σ = .ok u ∧ u.Typed t.sort := by
  induction t using operands_induction with
  | step t ih =>
    by_cases hsymbol : ∃ s, t = .symbol s
    · obtain ⟨s, rfl⟩ := hsymbol
      exact ⟨_, rfl, (becomes_symbol hσ s).typed⟩
    obtain ⟨us, hus, hsorts⟩ := collect_forall₂ fun a ha => ih a ha (hwell.operand ha)
    rw [substitute_eq_rebuild σ t fun s hs => hsymbol ⟨s, hs⟩, hus]
    cases t with
    | symbol s => exact absurd ⟨s, rfl⟩ hsymbol
    | apply f args => exact mkApply_typed hwell.fits hsorts
    | quantified q bound body =>
      obtain ⟨v, rfl, hv⟩ := SameSorts.one hsorts
      exact mkQuantified_typed (by simpa [fits, isBool] using hwell.fits) hv
    | _ =>
      obtain ⟨u, hu, htyped, _⟩ := builds_rebuild hwell.fits rfl hsorts
      exact ⟨u, hu, htyped⟩

theorem mkApply_becomes {f : Symbol} {args us : List Term} (hfits : (Term.apply f args).fits = true)
    (hargs : args ≠ []) (h : List.Forall₂ (Becomes σ) args us) :
    ∃ u, mkApply f us = .ok u ∧ Becomes σ (.apply f args) u := by
  have hsorts := sameSorts_of_becomes h
  have hlength : us.length = args.length := h.length_eq.symm
  have hnonempty : us.isEmpty = false := by
    cases us with
    | nil => exact absurd (List.length_eq_zero_iff.mp hlength.symm) hargs
    | cons _ _ => rfl
  have hfits' : (Term.apply f us).fits = true := by
    simpa [fits, hlength, hsorts.map_sort] using hfits
  obtain ⟨u, hu, htyped, heval⟩ := builds_checked hfits' hsorts.wellSorted
  have hsort : (Term.apply f us).sort = (Term.apply f args).sort := by simp [sort, hlength]
  refine ⟨u, by simpa [mkApply, hnonempty] using hu, hsort ▸ htyped, fun I hI => ?_⟩
  rw [heval I hI.toWellSorted]
  simp only [eval, evalAll_eq_map, map_eval_of_becomes h hI]
  rfl

theorem mkQuantified_becomes {q : Quantifier} {bound : List Symbol} {body v : Term}
    (hbool : body.sort = .bool) (h : Becomes σ body v)
    (hbound : ∀ s ∈ bound, σ.lookup s = none ∧ ∀ p ∈ σ, s ∉ p.2.freeSymbols) :
    ∃ u, mkQuantified q bound v = .ok u ∧ Becomes σ (.quantified q bound body) u := by
  have hv : v.Typed .bool := hbool ▸ h.typed
  have heval (I : Interpretation) (hI : I.Proper) :
      (Term.quantified q bound v).eval I = (Term.quantified q bound body).eval (I.bind σ) := by
    cases q with
    | universal =>
      rw [eval, eval, Interpretation.forAll_bind (g := fun J => (body.eval J).isTrue) hbound hI
        fun J hJ => by rw [h.eval J hJ]]
    | existential =>
      rw [eval, eval, Interpretation.forAll_bind (g := fun J => !(body.eval J).isTrue) hbound hI
        fun J hJ => by rw [h.eval J hJ]]
  unfold mkQuantified
  split
  · rename_i hempty
    obtain rfl := List.isEmpty_iff.mp hempty
    refine ⟨v, rfl, hv, fun I hI => ?_⟩
    rw [← heval I hI, hv.eval_bool hI.toWellSorted]
    cases q <;> simp [eval, Interpretation.forAll]
  · obtain ⟨u, hu, htyped, hval⟩ := builds_checked (t := .quantified q bound v) hv.isBool
      (by simpa [operands] using hv.wellSorted)
    exact ⟨u, hu, htyped, fun I hI => (hval I hI.toWellSorted).trans (heval I hI)⟩

/-- Terms of the right sorts can be put in the place of symbols, and if no bound variable has to do
with them, then the value is that with the symbols bound to their values. -/
theorem substitute_becomes (hwell : t.WellSorted) (htame : t.Tame hidden)
    (hσ : ∀ p ∈ σ, p.2.Typed p.1.sort)
    (hhidden : ∀ s, hidden s → σ.lookup s = none ∧ ∀ p ∈ σ, s ∉ p.2.freeSymbols) :
    ∃ u, t.substitute σ = .ok u ∧ Becomes σ t u := by
  induction t using operands_induction with
  | step t ih =>
    by_cases hsymbol : ∃ s, t = .symbol s
    · obtain ⟨s, rfl⟩ := hsymbol
      exact ⟨_, rfl, becomes_symbol hσ s⟩
    obtain ⟨us, hus, hbecomes⟩ := collect_forall₂ fun a ha =>
      ih a ha (hwell.operand ha) (htame.operand ha)
    rw [substitute_eq_rebuild σ t fun s hs => hsymbol ⟨s, hs⟩, hus]
    cases t with
    | symbol s => exact absurd ⟨s, rfl⟩ hsymbol
    | apply f args =>
      exact mkApply_becomes hwell.fits (fun hargs => htame.ne_apply f (hargs ▸ rfl)) hbecomes
    | quantified q bound body =>
      cases hbecomes with
      | cons hbody hnil =>
        cases hnil
        have hbool : body.sort = .bool := by simpa [fits, isBool] using hwell.fits
        exact mkQuantified_becomes hbool hbody fun s hs => hhidden s (htame.bound s hs)
    | _ =>
      obtain ⟨u, hu, htyped, heval⟩ :=
        builds_rebuild hwell.fits rfl (sameSorts_of_becomes hbecomes)
      refine ⟨u, hu, htyped, fun I hI => (heval I hI.toWellSorted).trans ?_⟩
      dsimp only
      rw [map_eval_of_becomes hbecomes hI, eval_eq_rootValue _ rfl]

end Term

end SmtScript
