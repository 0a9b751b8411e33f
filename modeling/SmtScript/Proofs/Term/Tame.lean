import SmtScript.Proofs.Term.Substitution

/-!
Bound variables of terms.

`Term.Tame` says of a term that its bound variables are of a given kind, and that each application
has arguments. Both are kept by all builders and by substitution.
-/

namespace SmtScript

namespace Term

/-- The variables that a root binds. -/
def Root.bound : Root → List Symbol
  | .quantified _ bound => bound
  | _ => []

theorem Root.bound_eq_nil {r : Root} (h : r.isInterpreted = false) : r.bound = [] := by
  cases r <;> simp_all [isInterpreted, bound]

/-- Whether all bound variables are of a kind and no function is applied to nothing. -/
inductive Tame (hidden : Symbol → Prop) : Term → Prop where
  | node {t : Term} (hbound : ∀ s ∈ t.root.bound, hidden s) (happly : ∀ f, t ≠ .apply f [])
      (hoperands : ∀ a ∈ t.operands, a.Tame hidden) : t.Tame hidden

variable {hidden hidden' : Symbol → Prop} {t u : Term} {ts : List Term} {σ : Substitution}

theorem Tame.bound (h : t.Tame hidden) : ∀ s ∈ t.root.bound, hidden s := by
  cases h with
  | node hbound _ _ => exact hbound

theorem Tame.ne_apply (h : t.Tame hidden) (f : Symbol) : t ≠ .apply f [] := by
  cases h with
  | node _ happly _ => exact happly f

theorem Tame.operand (h : t.Tame hidden) {a : Term} (ha : a ∈ t.operands) : a.Tame hidden := by
  cases h with
  | node _ _ hoperands => exact hoperands a ha

theorem Tame.mono (h : t.Tame hidden) (hsub : ∀ s, hidden s → hidden' s) : t.Tame hidden' := by
  induction h with
  | node hbound happly _ ih => exact .node (fun s hs => hsub s (hbound s hs)) happly ih

/-- Whatever is built from tame terms is tame. -/
theorem hereditary_tame (hidden : Symbol → Prop) : Hereditary anySort (Tame hidden) where
  bits _ := trivial
  node := by
    intro t _ hmade hoperands
    refine .node ?_ ?_ hoperands
    · simp [Root.bound_eq_nil hmade.isInterpreted]
    · rintro f rfl
      exact hmade.elim
  negated h := h.operand (by simp [operands])

theorem tame_symbol (s : Symbol) : (Term.symbol s).Tame hidden :=
  .node nofun nofun nofun

theorem tame_mkApply {f : Symbol} (h : mkApply f ts = .ok u) (hts : ∀ t ∈ ts, t.Tame hidden) :
    u.Tame hidden := by
  unfold mkApply at h
  split at h
  · obtain rfl := Except.ok.inj h
    exact tame_symbol f
  · rename_i hnonempty
    obtain ⟨_, rfl⟩ := checked_ok h
    refine .node nofun (fun f' heq => ?_) hts
    obtain ⟨_, rfl⟩ := Term.apply.inj heq
    exact hnonempty rfl

theorem tame_mkQuantified {q : Quantifier} {bound : List Symbol}
    (h : mkQuantified q bound t = .ok u) (ht : t.Tame hidden) (hbound : ∀ s ∈ bound, hidden s) :
    u.Tame hidden := by
  unfold mkQuantified at h
  split at h
  · exact Except.ok.inj h ▸ ht
  · obtain ⟨_, rfl⟩ := checked_ok h
    exact .node hbound nofun (by simpa [operands] using ht)

theorem substitutive_tame (hidden : Symbol → Prop) : Substitutive anySort (Tame hidden) where
  toHereditary := hereditary_tame hidden
  symbol := tame_symbol
  application := tame_mkApply
  quantifier ht h hbody := tame_mkQuantified h hbody ht.bound
  operand ht ha := ht.operand ha
  sorts {t} _ _ := by cases t <;> trivial

/-! ### Occurrences -/

/-- Whether a symbol occurs in a term: it stands for a part of it, is applied there, or is bound. -/
inductive Mentions (s : Symbol) : Term → Prop where
  | head {t : Term} (h : s ∈ t.root.head?) : t.Mentions s
  | bound {t : Term} (h : s ∈ t.root.bound) : t.Mentions s
  | operand {t a : Term} (ha : a ∈ t.operands) (h : a.Mentions s) : t.Mentions s

/-- What occurs in a term is free in it or bound there. -/
theorem Mentions.allowed {allowed : Symbol → Prop} {s : Symbol} (h : t.Mentions s)
    (ht : t.Sound allowed) (htame : t.Tame allowed) : allowed s := by
  induction h with
  | head h => exact head_allowed ht s h
  | bound h => exact htame.bound s h
  | @operand t a ha _ ih =>
    refine ih ?_ (htame.operand ha)
    by_cases hquantified : ∃ q bound body, t = .quantified q bound body
    · obtain ⟨q, bound, body, rfl⟩ := hquantified
      obtain rfl : a = body := by simpa [operands] using ha
      exact ht.body.mono fun s' hs' => hs'.elim id (htame.bound s')
    · exact ht.operand (fun q bound body heq => hquantified ⟨q, bound, body, heq⟩) ha

/-! ### Free symbols -/

theorem hereditary_free (allowed : Symbol → Prop) :
    Hereditary anySort fun t => ∀ s ∈ t.freeSymbols, allowed s where
  bits _ := trivial
  node := by
    intro t _ hmade hoperands s hs
    rcases mem_freeSymbols_cases hs with hhead | ⟨a, ha, hsa⟩
    · rw [Root.head?_eq_none hmade.isInterpreted] at hhead
      cases hhead
    · exact hoperands a ha s hsa
  negated h := h

theorem mem_freeSymbols_mkQuantified {q : Quantifier} {bound : List Symbol}
    (h : mkQuantified q bound t = .ok u) {s : Symbol} (hs : s ∈ u.freeSymbols) :
    s ∈ t.freeSymbols ∧ s ∉ bound := by
  unfold mkQuantified at h
  split at h
  · rename_i hempty
    obtain rfl := Except.ok.inj h
    obtain rfl := List.isEmpty_iff.mp hempty
    exact ⟨hs, List.not_mem_nil⟩
  · obtain ⟨_, rfl⟩ := checked_ok h
    simpa [freeSymbols] using hs

/-- What is applied to arguments has a function sort. -/
theorem isFunction_of_fits {f : Symbol} {args : List Term} (h : (Term.apply f args).fits = true)
    (hargs : args ≠ []) : f.sort.isFunction = true := by
  cases args with
  | nil => exact absurd rfl hargs
  | cons a rest =>
    cases hsort : f.sort <;> simp_all [fits, SmtSort.domains, SmtSort.isFunction]

/-- The free symbols of the result of a substitution come from the term, as far as nothing is put
in their place, and from what is put there. -/
theorem mem_freeSymbols_substitute (h : t.substitute σ = .ok u) (hwell : t.WellSorted)
    (ht : t.Tame hidden) (hσ : ∀ p ∈ σ, p.1.sort.isFunction = false) :
    ∀ s ∈ u.freeSymbols,
      (s ∈ t.freeSymbols ∧ σ.lookup s = none) ∨ ∃ p ∈ σ, s ∈ p.2.freeSymbols := by
  induction t using operands_induction generalizing u with
  | step t ih =>
    by_cases hsymbol : ∃ s, t = .symbol s
    · obtain ⟨s', rfl⟩ := hsymbol
      obtain rfl := Except.ok.inj h
      intro s hs
      cases hlookup : σ.lookup s' with
      | none =>
        obtain rfl : s = s' := by simpa [hlookup, freeSymbols] using hs
        exact .inl ⟨by simp [freeSymbols], hlookup⟩
      | some v =>
        obtain ⟨before, after, hsplit, _⟩ := List.lookup_eq_some_iff.mp hlookup
        exact .inr ⟨(s', v), by simp [hsplit], by simpa [hlookup] using hs⟩
    rw [substitute_eq_rebuild σ t fun s hs => hsymbol ⟨s, hs⟩] at h
    obtain ⟨us, hus, h⟩ := bind_ok h
    have hoperand (a v : Term) (ha : a ∈ t.operands) (hv : a.substitute σ = .ok v) :=
      ih a ha hv (hwell.operand ha) (ht.operand ha)
    by_cases hquantified : ∃ q bound body, t = .quantified q bound body
    · obtain ⟨q, bound, body, rfl⟩ := hquantified
      obtain ⟨v, rfl, hv⟩ := collect_singleton hus
      intro s hs
      obtain ⟨hsv, hbound⟩ := mem_freeSymbols_mkQuantified h hs
      rcases hoperand body v (by simp [operands]) hv s hsv with ⟨hfree, hlookup⟩ | hput
      · exact .inl ⟨by simpa [freeSymbols] using ⟨hfree, hbound⟩, hlookup⟩
      · exact .inr hput
    have hroot : ∀ q bound body, t ≠ .quantified q bound body := fun q bound body heq =>
      hquantified ⟨q, bound, body, heq⟩
    have hoperands : ∀ v ∈ us, ∀ s ∈ v.freeSymbols,
        (s ∈ t.freeSymbols ∧ σ.lookup s = none) ∨ ∃ p ∈ σ, s ∈ p.2.freeSymbols := by
      intro v hv s hs
      obtain ⟨a, ha, hav⟩ := List.mem_map.mp (mem_of_collect hus v hv)
      rcases hoperand a v ha hav s hs with ⟨hfree, hlookup⟩ | hput
      · exact .inl ⟨mem_freeSymbols_of_operand hroot ha hfree, hlookup⟩
      · exact .inr hput
    cases t with
    | symbol s => exact absurd ⟨s, rfl⟩ hsymbol
    | quantified q bound body => exact absurd rfl (hroot q bound body)
    | apply f args =>
      -- a function is never replaced, as nothing that has a value has a function sort
      have hfunction := isFunction_of_fits hwell.fits fun hargs => ht.ne_apply f (hargs ▸ rfl)
      have hkept : σ.lookup f = none := by
        rw [Option.eq_none_iff_forall_ne_some]
        intro v hlookup
        obtain ⟨before, after, hsplit, _⟩ := List.lookup_eq_some_iff.mp hlookup
        have := hσ (f, v) (by simp [hsplit])
        simp [hfunction] at this
      intro s hs
      have hcases : s = f ∨ ∃ v ∈ us, s ∈ v.freeSymbols := by
        unfold root rebuild mkApply at h
        simp only at h
        split at h
        · obtain rfl := Except.ok.inj h
          exact .inl (by simpa [freeSymbols] using hs)
        · obtain ⟨_, rfl⟩ := checked_ok h
          simpa [freeSymbols, mem_freeSymbolsAll] using hs
      rcases hcases with rfl | ⟨v, hv, hsv⟩
      · exact .inl ⟨by simp [freeSymbols], hkept⟩
      · exact hoperands v hv s hsv
    | _ => exact keeps_rebuild (hereditary_free _) h rfl trivial hoperands

end Term

end SmtScript
