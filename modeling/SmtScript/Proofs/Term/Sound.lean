import SmtScript.Proofs.Term.Hereditary

/-!
Sound terms.

A term is well-sorted if the operands fit at every node. `Term.Sound` says so of a term, and that
all symbols that occur free in it are allowed ones. Whatever the functions of `Term.Build` make of
sound terms is sound.
-/

namespace SmtScript

namespace Term

/-- Whether the operands fit at every node of a term. -/
inductive WellSorted : Term → Prop where
  | node {t : Term} (hfits : t.fits = true) (hoperands : ∀ a ∈ t.operands, a.WellSorted) :
      t.WellSorted

theorem WellSorted.fits {t : Term} (h : t.WellSorted) : t.fits = true := by
  cases h with
  | node hfits _ => exact hfits

theorem WellSorted.operand {t a : Term} (h : t.WellSorted) (ha : a ∈ t.operands) :
    a.WellSorted := by
  cases h with
  | node _ hoperands => exact hoperands a ha

structure Sound (allowed : Symbol → Prop) (t : Term) : Prop where
  wellSorted : t.WellSorted
  free : ∀ s ∈ t.freeSymbols, allowed s

/-- The symbol or function at the root of a term. -/
def Root.head? : Root → Option Symbol
  | .symbol s | .apply s => some s
  | _ => none

theorem Root.head?_eq_none {r : Root} (h : r.isInterpreted = false) : r.head? = none := by
  cases r <;> simp_all [isInterpreted, head?]

theorem mem_freeSymbolsAll {s : Symbol} {ts : List Term} :
    s ∈ freeSymbolsAll ts ↔ ∃ t ∈ ts, s ∈ t.freeSymbols := by
  induction ts with
  | nil => simp [freeSymbolsAll]
  | cons t rest ih => simp [freeSymbolsAll, ih]

/-- A symbol is free in a term only if it is the head of the term or free in an operand. -/
theorem mem_freeSymbols_cases {s : Symbol} {t : Term} (h : s ∈ t.freeSymbols) :
    t.root.head? = some s ∨ ∃ a ∈ t.operands, s ∈ a.freeSymbols := by
  cases t <;> simp only [freeSymbols, mem_joined, mem_freeSymbolsAll, List.mem_singleton,
    List.mem_filter, List.not_mem_nil] at h <;> simp only [root, Root.head?, operands] <;> grind

/-- Below anything but a quantifier the free symbols of operands stay free. -/
theorem mem_freeSymbols_of_operand {s : Symbol} {t a : Term}
    (hroot : ∀ q bound body, t ≠ .quantified q bound body) (ha : a ∈ t.operands)
    (hs : s ∈ a.freeSymbols) : s ∈ t.freeSymbols := by
  cases t with
  | quantified q bound body => exact absurd rfl (hroot q bound body)
  | _ =>
    simp only [operands, List.mem_cons, List.not_mem_nil, or_false] at ha <;>
    simp only [freeSymbols, mem_joined, mem_freeSymbolsAll] <;> grind

variable {allowed : Symbol → Prop} {t u a b c : Term} {ts : List Term}

theorem Sound.mono {allowed' : Symbol → Prop} (h : t.Sound allowed)
    (hsub : ∀ s, allowed s → allowed' s) : t.Sound allowed' :=
  ⟨h.wellSorted, fun s hs => hsub s (h.free s hs)⟩

theorem Sound.operand (h : t.Sound allowed)
    (hroot : ∀ q bound body, t ≠ .quantified q bound body) (ha : a ∈ t.operands) :
    a.Sound allowed :=
  ⟨h.wellSorted.operand ha, fun s hs => h.free s (mem_freeSymbols_of_operand hroot ha hs)⟩

/-- A node whose operands are sound and fit is sound, if its head is allowed. -/
theorem sound_node (hfits : t.fits = true) (hhead : ∀ s ∈ t.root.head?, allowed s)
    (hoperands : ∀ a ∈ t.operands, a.Sound allowed) : t.Sound allowed := by
  refine ⟨.node hfits fun a ha => (hoperands a ha).wellSorted, ?_⟩
  intro s hs
  rcases mem_freeSymbols_cases hs with hroot | ⟨a, ha, hsa⟩
  · exact hhead s hroot
  · exact (hoperands a ha).free s hsa

theorem sound_symbol {s : Symbol} : (Term.symbol s).Sound allowed ↔ allowed s := by
  constructor
  · intro h
    exact h.free s (by simp [freeSymbols])
  · intro h
    exact sound_node rfl (by simpa [root, Root.head?] using h) (by simp [operands])

/-- Whatever is built from sound terms is sound. -/
theorem hereditary_sound (allowed : Symbol → Prop) : Hereditary anySort (Sound allowed) where
  bits _ := trivial
  node hfits hmade hoperands := by
    refine sound_node hfits (fun s hs => ?_) hoperands
    rw [Root.head?_eq_none hmade.isInterpreted] at hs
    cases hs
  negated h := h.operand nofun (by simp [operands])

theorem sound_int (n : Int) : (Term.int n).Sound allowed := keeps_int (hereditary_sound allowed) n

theorem sound_mkApply {f : Symbol} (h : mkApply f ts = .ok u) (hf : allowed f)
    (hts : ∀ t ∈ ts, t.Sound allowed) : u.Sound allowed := by
  unfold mkApply at h
  split at h
  · obtain rfl := Except.ok.inj h
    exact sound_symbol.mpr hf
  · obtain ⟨hfits, rfl⟩ := checked_ok h
    exact sound_node hfits (by simpa [root, Root.head?] using hf) hts

/-- The variables that a quantifier binds need not be allowed outside of it. -/
theorem sound_mkQuantified {q : Quantifier} {bound : List Symbol}
    (h : mkQuantified q bound a = .ok u) (ha : a.Sound fun s => allowed s ∨ s ∈ bound) :
    u.Sound allowed := by
  unfold mkQuantified at h
  split at h
  · rename_i hempty
    obtain rfl := Except.ok.inj h
    obtain rfl := List.isEmpty_iff.mp hempty
    exact ha.mono fun s hs => hs.resolve_right List.not_mem_nil
  · obtain ⟨hfits, rfl⟩ := checked_ok h
    refine ⟨.node hfits (by simpa [operands] using ha.wellSorted), fun s hs => ?_⟩
    have hs : s ∈ a.freeSymbols ∧ s ∉ bound := by simpa [freeSymbols] using hs
    exact (ha.free s hs.1).resolve_right hs.2

/-- Below a quantifier its variables are allowed, too. -/
theorem Sound.body {q : Quantifier} {bound : List Symbol}
    (h : (Term.quantified q bound a).Sound allowed) : a.Sound fun s => allowed s ∨ s ∈ bound := by
  refine ⟨h.wellSorted.operand (by simp [operands]), fun s hs => ?_⟩
  by_cases hbound : s ∈ bound
  · exact .inr hbound
  · exact .inl (h.free s (by simpa [freeSymbols] using ⟨hs, hbound⟩))

end Term

end SmtScript
