import SmtScript.Proofs.Term.Meaning

/-!
Substitution keeps terms sound.

What is substituted into a sound term has to be sound, and so is the result, whether the
substitution is done at once or as a walk that goes on with what an earlier one has left behind.
-/

namespace SmtScript

namespace Term

variable {allowed : Symbol → Prop} {t u : Term} {ts : List Term} {σ : Substitution}

/-- Whether only sound terms are put in the place of symbols. -/
def SoundSubstitution (allowed : Symbol → Prop) (σ : Substitution) : Prop :=
  ∀ p ∈ σ, p.2.Sound allowed

theorem SoundSubstitution.mono {allowed' : Symbol → Prop} (h : SoundSubstitution allowed σ)
    (hsub : ∀ s, allowed s → allowed' s) : SoundSubstitution allowed' σ :=
  fun p hp => (h p hp).mono hsub

theorem sound_lookup {s : Symbol} (hσ : SoundSubstitution allowed σ) (hs : allowed s) :
    ((σ.lookup s).getD (.symbol s)).Sound allowed := by
  cases h : σ.lookup s with
  | none => exact sound_symbol.mpr hs
  | some u =>
    obtain ⟨before, after, hsplit, _⟩ := List.lookup_eq_some_iff.mp h
    exact hσ (s, u) (by rw [hsplit]; simp)

/-- What is built again from operands with a hereditary property has it. -/
theorem keeps_rebuild {W : SmtSort → Prop} {P : Term → Prop} (hP : Hereditary W P) {r : Root}
    (h : rebuild r ts = .ok u) (hroot : r.isInterpreted = false) (hsorts : r.HasSorts W)
    (hts : ∀ t ∈ ts, P t) : P u := by
  unfold rebuild at h
  split at h
  · obtain rfl := Except.ok.inj h
    exact keeps_bool hP _
  · obtain rfl := Except.ok.inj h
    exact keeps_int hP _
  · obtain rfl := Except.ok.inj h
    exact keeps_real hP _
  · obtain rfl := Except.ok.inj h
    exact keeps_bitVec hP hsorts _
  · cases hroot
  · cases hroot
  · exact keeps_mkNot hP h (hts _ (by simp))
  · exact keeps_mkAnd hP h hts
  · exact keeps_mkOr hP h hts
  · exact keeps_mkImplies hP h (hts _ (by simp)) (hts _ (by simp))
  · exact keeps_mkIff hP h (hts _ (by simp)) (hts _ (by simp))
  · exact keeps_checked hP h trivial hts
  · exact keeps_mkIte hP h (hts _ (by simp)) (hts _ (by simp)) (hts _ (by simp))
  · exact keeps_mkArith hP h (hts _ (by simp)) (hts _ (by simp))
  · exact keeps_mkOrder hP h (hts _ (by simp)) (hts _ (by simp))
  · exact keeps_mkToReal hP h (hts _ (by simp))
  · exact keeps_mkSelect hP h (hts _ (by simp)) (hts _ (by simp))
  · exact keeps_mkStore hP h (hts _ (by simp)) (hts _ (by simp)) (hts _ (by simp))
  · exact keeps_mkConstArray hP h hsorts (hts _ (by simp))
  · exact keeps_mkBitUnary hP h (hts _ (by simp))
  · exact keeps_mkBitOp hP h (hts _ (by simp)) (hts _ (by simp))
  · exact keeps_mkBitOrder hP h (hts _ (by simp)) (hts _ (by simp))
  · exact keeps_mkBitEqual hP h (hts _ (by simp)) (hts _ (by simp))
  · exact keeps_mkConcat hP h (hts _ (by simp)) (hts _ (by simp))
  · exact keeps_mkExtract hP h (hts _ (by simp))
  · exact keeps_mkRotate hP h (hts _ (by simp))
  · exact keeps_mkWiden hP h (hts _ (by simp))
  · cases hroot
  · cases h

/-- A node that is built again from sound operands is sound. -/
theorem sound_rebuild {r : Root} (h : rebuild r ts = .ok u) (hhead : ∀ s ∈ r.head?, allowed s)
    (hquantifier : ∀ q bound, r ≠ .quantified q bound) (hts : ∀ t ∈ ts, t.Sound allowed) :
    u.Sound allowed := by
  cases r with
  | symbol s =>
    obtain rfl := Except.ok.inj h
    exact sound_symbol.mpr (hhead _ rfl)
  | apply f => exact sound_mkApply h (hhead _ rfl) hts
  | quantified q bound => exact absurd rfl (hquantifier q bound)
  | _ => exact keeps_rebuild (hereditary_sound allowed) h rfl trivial hts

theorem mem_of_collect {α : Type} {xs : List (Except Fault α)} {as : List α}
    (h : collect xs = .ok as) : ∀ a ∈ as, .ok a ∈ xs := by
  induction xs generalizing as with
  | nil =>
    obtain rfl := Except.ok.inj h
    simp
  | cons x rest ih =>
    obtain ⟨later, hlater, h⟩ := bind_ok h
    obtain ⟨first, hfirst, h⟩ := bind_ok h
    obtain rfl := Except.ok.inj h
    simpa [hfirst] using fun a ha => Or.inr (ih hlater a ha)

/-- A substitution in a term other than a symbol is one in its operands. -/
theorem substitute_eq_rebuild (σ : Substitution) (t : Term) (h : ∀ s, t ≠ .symbol s) :
    t.substitute σ = collect (t.operands.map (substitute σ)) >>= rebuild t.root := by
  have heq := (substituteFold σ).value_eq t
  cases t with
  | symbol s => exact absurd rfl (h s)
  | _ => exact heq

/-- The only operand of a quantifier. -/
theorem collect_singleton {x : Except Fault Term} {us : List Term} (h : collect [x] = .ok us) :
    ∃ v, us = [v] ∧ x = .ok v := by
  obtain ⟨rest, hrest, h⟩ := bind_ok h
  obtain ⟨v, hv, h⟩ := bind_ok h
  obtain rfl := Except.ok.inj hrest
  exact ⟨v, (Except.ok.inj h).symm, hv⟩

/-- Whether a hereditary property is that of a tree and is kept by the nodes that are left out of
`Hereditary`. A quantifier is built again with the variables that it has had. -/
structure Substitutive (W : SmtSort → Prop) (P : Term → Prop) : Prop extends Hereditary W P where
  symbol : ∀ s, P (.symbol s)
  application : ∀ {f : Symbol} {ts : List Term} {u : Term}, mkApply f ts = .ok u →
    (∀ t ∈ ts, P t) → P u
  quantifier : ∀ {q : Quantifier} {bound : List Symbol} {body t u : Term},
    P (.quantified q bound body) → mkQuantified q bound t = .ok u → P t → P u
  operand : ∀ {t a : Term}, P t → a ∈ t.operands → P a
  sorts : ∀ {t : Term}, P t → t.root.isInterpreted = false → t.root.HasSorts W

theorem Substitutive.lookup {W : SmtSort → Prop} {P : Term → Prop} (hP : Substitutive W P)
    (hσ : ∀ p ∈ σ, P p.2) (s : Symbol) : P ((σ.lookup s).getD (.symbol s)) := by
  cases hlookup : σ.lookup s with
  | none => exact hP.symbol s
  | some v =>
    obtain ⟨before, after, hsplit, _⟩ := List.lookup_eq_some_iff.mp hlookup
    exact hσ (s, v) (by simp [hsplit])

/-- A node that is built again from operands with the property has it. -/
theorem Substitutive.rebuild {W : SmtSort → Prop} {P : Term → Prop} (hP : Substitutive W P)
    (ht : P t) (hsymbol : ∀ s, t ≠ .symbol s) (h : rebuild t.root ts = .ok u)
    (hts : ∀ a ∈ ts, P a) : P u := by
  have hsorts := hP.sorts ht
  cases t with
  | symbol s => exact absurd rfl (hsymbol s)
  | apply f args => exact hP.application h hts
  | quantified q bound body =>
    match ts, h with
    | [v], h => exact hP.quantifier ht h (hts v (by simp))
  | _ => exact keeps_rebuild hP.toHereditary h rfl (hsorts rfl) hts

/-- What is substituted and what it is substituted into bring all that is in the result. -/
theorem keeps_substitute {W : SmtSort → Prop} {P : Term → Prop} (hP : Substitutive W P)
    (h : t.substitute σ = .ok u) (ht : P t) (hσ : ∀ p ∈ σ, P p.2) : P u := by
  induction t using operands_induction generalizing u with
  | step t ih =>
    by_cases hsymbol : ∃ s, t = .symbol s
    · obtain ⟨s, rfl⟩ := hsymbol
      obtain rfl := Except.ok.inj h
      exact hP.lookup hσ s
    have hsymbol : ∀ s, t ≠ .symbol s := fun s hs => hsymbol ⟨s, hs⟩
    rw [substitute_eq_rebuild σ t hsymbol] at h
    obtain ⟨us, hus, h⟩ := bind_ok h
    refine hP.rebuild ht hsymbol h fun v hv => ?_
    obtain ⟨a, ha, hav⟩ := List.mem_map.mp (mem_of_collect hus v hv)
    exact ih a ha hav (hP.operand ht ha)

/-- The head of a sound term is allowed. -/
theorem head_allowed (ht : t.Sound allowed) : ∀ s ∈ t.root.head?, allowed s := by
  intro s hs
  refine ht.free s ?_
  cases t <;> simp_all [root, Root.head?, freeSymbols]

theorem root_ne_quantified (h : ∀ q bound body, t ≠ .quantified q bound body) (q : Quantifier)
    (bound : List Symbol) : t.root ≠ .quantified q bound := by
  cases t <;> simp_all [root]

theorem sound_substitute (h : t.substitute σ = .ok u) (ht : t.Sound allowed)
    (hσ : SoundSubstitution allowed σ) : u.Sound allowed := by
  induction t using operands_induction generalizing allowed u with
  | step t ih =>
    by_cases hsymbol : ∃ s, t = .symbol s
    · obtain ⟨s, rfl⟩ := hsymbol
      obtain rfl := Except.ok.inj h
      exact sound_lookup hσ (sound_symbol.mp ht)
    by_cases hquantified : ∃ q bound body, t = .quantified q bound body
    · -- the variables that are bound are allowed below the quantifier only
      obtain ⟨q, bound, body, rfl⟩ := hquantified
      rw [substitute] at h
      obtain ⟨v, hv, h⟩ := bind_ok h
      refine sound_mkQuantified h (ih body (by simp [operands]) hv ht.body ?_)
      exact hσ.mono fun _ => .inl
    · have hroot : ∀ q bound body, t ≠ .quantified q bound body := fun q bound body hq =>
        hquantified ⟨q, bound, body, hq⟩
      rw [substitute_eq_rebuild σ t fun s hs => hsymbol ⟨s, hs⟩] at h
      obtain ⟨us, hus, h⟩ := bind_ok h
      refine sound_rebuild h (head_allowed ht) (root_ne_quantified hroot) fun v hv => ?_
      obtain ⟨a, ha, hav⟩ := List.mem_map.mp (mem_of_collect hus v hv)
      exact ih a ha hav (ht.operand hroot ha) hσ

/-! ### Walks -/

end Term

namespace Walk

open Term

/-- Whether all that has been computed has a property. -/
def KnownAll (P : Term → Prop) (known : Std.HashMap Term Term) : Prop :=
  ∀ t u : Term, known[t]? = some u → P u

/-- Whether all that a walk has computed, and all that it has still to do, has a property. -/
structure All (P : Term → Prop) (walk : Walk Term) : Prop where
  pending : ∀ p ∈ walk.pending, P p.1
  known : KnownAll P walk.known

/-- Whether a task computes what has a property from what has it. -/
structure Task.Keeps (task : Task Term) (P : Term → Prop) : Prop where
  operand : ∀ {t a : Term}, P t → a ∈ task.operands t → P a
  compute : ∀ {t u : Term} {ts : List Term}, P t → (∀ a ∈ ts, P a) → task.compute t ts = .ok u → P u

variable {P P' : Term → Prop} {walk : Walk Term} {task : Task Term} {t u : Term}

theorem All.mono (h : walk.All P) (hsub : ∀ t, P t → P' t) : walk.All P' :=
  ⟨fun p hp => hsub p.1 (h.pending p hp), fun t u htu => hsub u (h.known t u htu)⟩

theorem all_empty : Walk.empty.All P :=
  ⟨by simp [Walk.empty], fun t u h => by simp [Walk.empty] at h⟩

theorem KnownAll.insert {known : Std.HashMap Term Term} (h : KnownAll P known)
    (hu : P u) (t : Term) : KnownAll P (known.insert t u) := by
  intro t' u' h'
  rw [Std.HashMap.getElem?_insert] at h'
  split at h'
  · obtain rfl := Option.some.inj h'
    exact hu
  · exact h t' u' h'

theorem KnownAll.of_mapM {known : Std.HashMap Term Term} (hknown : KnownAll P known)
    {operands us : List Term} (h : (operands.mapM fun a => known[a]?) = some us) :
    ∀ u ∈ us, P u := by
  induction operands generalizing us with
  | nil =>
    obtain rfl : [] = us := by simpa using h
    simp
  | cons a rest ih =>
    simp only [List.mapM_cons, Option.pure_def, Option.bind_eq_bind, Option.bind_eq_some_iff,
      Option.some.injEq] at h
    obtain ⟨v, hv, vs, hvs, rfl⟩ := h
    simpa using ⟨hknown a v hv, ih hvs⟩

/-- A walk goes on from what has a property to what has it, whether it is broken off or not. -/
theorem Task.Keeps.process (htask : task.Keeps P) (pending : List (Term × Bool))
    (known : Std.HashMap Term Term) (hpending : ∀ p ∈ pending, P p.1)
    (hknown : KnownAll P known) : (Walk.process task pending known).2.All P := by
  induction pending, known using Walk.process.induct task with
  | case1 known =>
    rw [Walk.process]
    exact ⟨by simp, hknown⟩
  | case2 t rest known fresh ih =>
    rw [Walk.process]
    refine ih ?_ hknown
    have ht : P t := hpending (t, false) (by simp)
    intro p hp
    simp only [List.mem_append, List.mem_map, List.mem_reverse, List.mem_cons] at hp
    rcases hp with ⟨a, ha, rfl⟩ | rfl | hp
    · exact htask.operand ht (List.mem_filter.mp ha).1
    · exact ht
    · exact hpending p (by simp [hp])
  | case3 t rest known hmem ih =>
    rw [Walk.process, if_pos hmem]
    exact ih (fun p hp => hpending p (by simp [hp])) hknown
  | case4 t rest known hmem hnone =>
    rw [Walk.process, if_neg hmem, hnone]
    exact ⟨fun p hp => hpending p (by simp [hp]), hknown⟩
  | case5 t rest known hmem us hus f hf =>
    rw [Walk.process, if_neg hmem, hus]
    simp only [hf]
    exact ⟨fun p hp => hpending p (by simp [hp]), hknown⟩
  | case6 t rest known hmem us hus u hu ih =>
    rw [Walk.process, if_neg hmem, hus]
    simp only [hu]
    refine ih (fun p hp => hpending p (by simp [hp])) (hknown.insert ?_ t)
    exact htask.compute (hpending (t, true) (by simp)) (hknown.of_mapM hus) hu

theorem Task.Keeps.visit (htask : task.Keeps P) (ht : P t) (hwalk : walk.All P) :
    (walk.visit task t).2.All P ∧ ∀ u, (walk.visit task t).1 = .ok u → P u := by
  unfold Walk.visit
  split
  · rename_i u hu
    refine ⟨hwalk, fun u' hu' => ?_⟩
    obtain rfl := Except.ok.inj hu'
    exact hwalk.known t _ hu
  · have hprocess := htask.process ((t, false) :: walk.pending) walk.known
      (List.forall_mem_cons.mpr ⟨ht, hwalk.pending⟩) hwalk.known
    split
    · rename_i f left hleft
      rw [hleft] at hprocess
      exact ⟨hprocess, nofun⟩
    · rename_i left hleft
      rw [hleft] at hprocess
      split
      · rename_i u hu
        refine ⟨hprocess, fun u' hu' => ?_⟩
        obtain rfl := Except.ok.inj hu'
        exact hprocess.known t _ hu
      · exact ⟨hprocess, nofun⟩

end Walk

namespace Term

variable {allowed : Symbol → Prop} {t u : Term} {ts : List Term} {σ : Substitution}
  {P P' : Term → Prop} {leftover : Leftover}

/-- Whether all that a substitution has left behind has a property. -/
def LeftoverAll (P : Term → Prop) (leftover : Leftover) : Prop := ∀ walk ∈ leftover, walk.All P

theorem LeftoverAll.mono (h : LeftoverAll P leftover) (hsub : ∀ t, P t → P' t) :
    LeftoverAll P' leftover :=
  fun walk hwalk => (h walk hwalk).mono hsub

/-- Whether a substitution, done at once or as a walk, makes what has a property of what has it. -/
structure Substituted (σ : Substitution) (P : Term → Prop) : Prop where
  atOnce : ∀ {t u : Term}, P t → t.substitute σ = .ok u → P u
  walked : (substitutionTask σ).Keeps P

/-- Substituting over what is left of an earlier substitution keeps a property of everything. -/
theorem Substituted.over (h : Substituted σ P) (ht : P t) (hleft : LeftoverAll P leftover) :
    LeftoverAll P (t.substituteOver σ leftover).2 ∧
      ∀ u, (t.substituteOver σ leftover).1 = .ok u → P u := by
  unfold substituteOver
  split
  · split
    · rename_i u hu
      refine ⟨nofun, fun u' hu' => ?_⟩
      obtain rfl := Except.ok.inj hu'
      rw [substituted_eq] at hu
      exact h.atOnce ht hu
    · refine ⟨fun walk hwalk => ?_, nofun⟩
      obtain rfl := Option.some.inj hwalk
      exact (h.walked.visit ht Walk.all_empty).1
  · rename_i walk
    have hvisit := h.walked.visit ht (hleft walk rfl)
    split
    · rename_i u left hu
      rw [hu] at hvisit
      refine ⟨fun walk' hwalk' => ?_, fun u' hu' => hvisit.2 u' hu'⟩
      simp only at hwalk'
      split at hwalk'
      · obtain rfl := Option.some.inj hwalk'
        exact hvisit.1
      · cases hwalk'
    · rename_i f left hf
      rw [hf] at hvisit
      refine ⟨fun walk' hwalk' => ?_, nofun⟩
      obtain rfl := Option.some.inj hwalk'
      exact hvisit.1

theorem Substituted.instantiate (h : Substituted σ P) (ht : P t)
    (hleft : LeftoverAll P leftover) :
    LeftoverAll P (t.instantiate σ leftover).2 ∧
      ∀ u, (t.instantiate σ leftover).1 = .ok u → P u := by
  unfold Term.instantiate
  split
  · exact ⟨hleft, nofun⟩
  · exact h.over ht hleft

theorem Substitutive.substituted {W : SmtSort → Prop} (hP : Substitutive W P)
    (hσ : ∀ p ∈ σ, P p.2) : Substituted σ P where
  atOnce ht h := keeps_substitute hP h ht hσ
  walked := by
    refine ⟨fun {t a} ht ha => ?_, fun {t u ts} ht hts h => ?_⟩
    · unfold Walk.Task.operands at ha
      split at ha
      · exact hP.operand ht ha
      · cases ha
    · simp only [substitutionTask] at h
      split at h
      · exact Except.ok.inj h ▸ hP.lookup hσ _
      · rw [substituted_eq] at h
        exact keeps_substitute hP h ht hσ
      · exact hP.rebuild ht ‹_› h hts

/-! ### Sound terms -/

theorem sound_taskOperands (ht : t.Sound allowed) :
    ∀ a ∈ (substitutionTask σ).operands t, a.Sound allowed := by
  intro a ha
  unfold Walk.Task.operands at ha
  split at ha
  · rename_i hopens
    refine ht.operand (fun q bound body hq => ?_) ha
    subst hq
    cases hopens
  · cases ha

theorem sound_compute (hσ : SoundSubstitution allowed σ) (ht : t.Sound allowed)
    (hts : ∀ a ∈ ts, a.Sound allowed) (h : (substitutionTask σ).compute t ts = .ok u) :
    u.Sound allowed := by
  simp only [substitutionTask] at h
  split at h
  · obtain rfl := Except.ok.inj h
    exact sound_lookup hσ (sound_symbol.mp ht)
  · rw [substituted_eq] at h
    exact sound_substitute h ht hσ
  · rename_i hsymbol hquantified
    exact sound_rebuild h (head_allowed ht) (root_ne_quantified hquantified) hts

/-- What is put in sound terms leaves sound terms behind. -/
theorem SoundSubstitution.substituted (hσ : SoundSubstitution allowed σ) :
    Substituted σ (Sound allowed) where
  atOnce ht h := sound_substitute h ht hσ
  walked := ⟨fun ht ha => sound_taskOperands ht _ ha, fun ht hts h => sound_compute hσ ht hts h⟩

/-- Whether what a substitution has left behind is sound. -/
abbrev SoundLeftover (allowed : Symbol → Prop) (leftover : Leftover) : Prop :=
  LeftoverAll (Sound allowed) leftover

theorem SoundLeftover.mono {allowed' : Symbol → Prop} (h : SoundLeftover allowed leftover)
    (hsub : ∀ s, allowed s → allowed' s) : SoundLeftover allowed' leftover :=
  LeftoverAll.mono h fun _ ht => ht.mono hsub

end Term

end SmtScript
