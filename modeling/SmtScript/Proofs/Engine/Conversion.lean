import SmtScript.Engine.Conversion

/-!
Conversions that were broken off.

As long as nothing stands in the way a term is converted if it can be. What a conversion that
failed has left cannot be finished: at the bottom of it is a term that cannot be converted. So a
term that has not been converted before is refused from then on until nothing is left.
`Conversion.Regular.convert` follows: what is converted after a conversion that succeeded could
have been converted before it.
-/

namespace SmtScript

namespace Term

theorem converts_eq (t : Term) : t.converts = (t.rootConverts && t.operands.all converts) := by
  have h := convertsFold.value_eq t
  simpa [convertsFold, Function.comp_def] using h

end Term

namespace Engine

namespace Conversion

open Walk

variable {t a : Term} {known known' : Std.HashMap Term Unit} {pending : List (Term × Bool)}

/-! ### Walks -/

/-- Whether a walk knows only terms that can be converted. -/
def OnlyConverts (known : Std.HashMap Term Unit) : Prop := ∀ t, t ∈ known → t.converts = true

/-- Whether each operand of a term that is looked at for the second time is known or stands above
it, unless it cannot be converted. -/
def Supplied (known : Std.HashMap Term Unit) : List Term → List (Term × Bool) → Prop
  | _, [] => True
  | above, (t, expanded) :: rest =>
    (expanded = true → ∀ a ∈ t.operands, a ∈ known ∨ a ∈ above ∨ a.converts = false) ∧
      Supplied known (t :: above) rest

theorem Supplied.mono {above above' : List Term} (h : Supplied known above pending)
    (hknown : ∀ a, a ∈ known → a ∈ known')
    (habove : ∀ a ∈ above, a ∈ known' ∨ a ∈ above' ∨ a.converts = false) :
    Supplied known' above' pending := by
  induction pending generalizing above above' with
  | nil => trivial
  | cons p rest ih =>
    obtain ⟨t, expanded⟩ := p
    refine ⟨fun hexpanded a ha => ?_, ih h.2 fun a ha => ?_⟩
    · rcases h.1 hexpanded a ha with hmem | hmem | hfails
      · exact .inl (hknown a hmem)
      · exact habove a hmem
      · exact .inr (.inr hfails)
    · rcases List.mem_cons.mp ha with rfl | ha
      · exact .inr (.inl List.mem_cons_self)
      · exact (habove a ha).imp_right (Or.imp_left (List.mem_cons_of_mem t))

theorem supplied_append {above ts : List Term} :
    Supplied known above (ts.map (·, false) ++ pending) ↔
      Supplied known (ts.reverse ++ above) pending := by
  induction ts generalizing above with
  | nil => rfl
  | cons t rest ih => simp [Supplied, ih]

/-- What is left at the bottom of a stack. -/
def bottom (pending : List (Term × Bool)) : Option Term := pending.getLast?.map Prod.fst

theorem bottom_cons (p : Term × Bool) (hpending : pending ≠ []) :
    bottom (p :: pending) = bottom pending := by
  cases pending with
  | nil => exact absurd rfl hpending
  | cons q rest => simp [bottom]

/-- An operand that cannot be converted. -/
theorem converts_eq_false_of_operand (ha : a ∈ t.operands) (h : a.converts = false) :
    t.converts = false := by
  rw [Term.converts_eq, Bool.and_eq_false_iff]
  exact .inr (List.all_eq_false.mpr ⟨a, ha, by simp [h]⟩)

/-- What going on with a stack leads to. -/
structure Walked (pending : List (Term × Bool)) (known : Std.HashMap Term Unit)
    (r : Except Fault Unit) (walk : Walk Unit) : Prop where
  onlyConverts : OnlyConverts known → OnlyConverts walk.known
  grows : ∀ a, a ∈ known → a ∈ walk.known
  done : r = .ok () → walk.pending = [] ∧ ∀ p ∈ pending, p.1 ∈ walk.known
  left : ∀ t, bottom walk.pending = some t → bottom pending = some t
  refused : ∀ f, r = .error f → OnlyConverts known → Supplied known [] pending →
    ∃ p ∈ pending, p.1.converts = false

theorem bottom_of_rest {p : Term × Bool} {rest : List (Term × Bool)} {b : Term}
    (h : bottom rest = some b) : bottom (p :: rest) = some b := by
  cases rest with
  | nil => cases h
  | cons q rest => rw [bottom_cons _ (List.cons_ne_nil _ _), h]

/-- The operands of a term have results if they are all known. -/
theorem isSome_mapM {ts : List Term} :
    (ts.mapM fun a => known[a]?).isSome = true ↔ ∀ a ∈ ts, a ∈ known := by
  induction ts with
  | nil => simp
  | cons t rest ih =>
    rw [List.forall_mem_cons, ← ih, List.mapM_cons]
    by_cases ht : t ∈ known
    · simp only [Std.HashMap.getElem?_eq_some_getElem ht, Option.bind_eq_bind, Option.bind_some, ht,
        true_and]
      cases rest.mapM fun a => known[a]? <;> simp
    · simp [ht]

/-- A term that is not converted although its operands have been looked at. -/
theorem Walked.stop {rest : List (Term × Bool)} {f : Fault}
    (h : OnlyConverts known → Supplied known [] ((t, true) :: rest) → t.converts = false) :
    Walked ((t, true) :: rest) known (.error f) ⟨rest, known⟩ where
  onlyConverts := id
  grows _ := id
  done := nofun
  left _ := bottom_of_rest
  refused _ _ honly hsupplied := ⟨(t, true), List.mem_cons_self, h honly hsupplied⟩

theorem walked_process (pending : List (Term × Bool)) (known : Std.HashMap Term Unit) :
    Walked pending known (process task pending known).1 (process task pending known).2 := by
  induction pending, known using Walk.process.induct task with
  | case1 known =>
    rw [process]
    exact ⟨id, fun _ => id, fun _ => ⟨rfl, nofun⟩, fun _ => id, nofun⟩
  | case2 t rest known fresh ih =>
    rw [process]
    have hmem {a : Term} : a ∈ fresh ↔ a ∈ t.operands ∧ a ∉ known := by
      simp [fresh, Task.operands, task]
    refine ⟨ih.onlyConverts, ih.grows, fun hr => ⟨(ih.done hr).1, fun p hp => ?_⟩, fun b hb => ?_,
      fun f hf honly hsupplied => ?_⟩
    · rcases List.mem_cons.mp hp with rfl | hp
      · exact (ih.done hr).2 (t, true) (by simp)
      · exact (ih.done hr).2 p (by simp [hp])
    · have h := ih.left b hb
      cases rest with
      | nil => simpa [bottom] using h
      | cons q rest => simpa [bottom] using h
    · have hsupplied' : Supplied known []
          (fresh.reverse.map (fun a => (a, false)) ++ (t, true) :: rest) := by
        rw [supplied_append]
        refine ⟨fun _ a ha => ?_, hsupplied.2.mono (fun _ => id) fun a ha => ?_⟩
        · by_cases hknown : a ∈ known
          · exact .inl hknown
          · exact .inr (.inl (by simpa using hmem.mpr ⟨ha, hknown⟩))
        · exact .inr (.inl (by simp [List.mem_singleton.mp ha]))
      obtain ⟨p, hp, hfails⟩ := ih.refused f hf honly hsupplied'
      simp only [List.mem_append, List.mem_map, List.mem_reverse, List.mem_cons] at hp
      rcases hp with ⟨a, ha, rfl⟩ | rfl | hp
      · exact ⟨(t, false), by simp, converts_eq_false_of_operand (hmem.mp ha).1 hfails⟩
      · exact ⟨(t, false), by simp, hfails⟩
      · exact ⟨p, by simp [hp], hfails⟩
  | case3 t rest known hcontains ih =>
    rw [process, if_pos hcontains]
    have ht : t ∈ known := hcontains
    refine ⟨ih.onlyConverts, ih.grows, fun hr => ⟨(ih.done hr).1, ?_⟩,
      fun b hb => bottom_of_rest (ih.left b hb), fun f hf honly hsupplied => ?_⟩
    · exact List.forall_mem_cons.mpr ⟨ih.grows t ht, (ih.done hr).2⟩
    · obtain ⟨p, hp, hfails⟩ := ih.refused f hf honly
        (hsupplied.2.mono (fun _ => id) fun a ha => .inl (List.mem_singleton.mp ha ▸ ht))
      exact ⟨p, List.mem_cons_of_mem _ hp, hfails⟩
  | case4 t rest known hcontains hnone =>
    rw [process, if_neg hcontains, hnone]
    refine .stop fun honly hsupplied => ?_
    obtain ⟨a, ha, hunknown⟩ : ∃ a ∈ t.operands, a ∉ known := by
      have hnot : ¬ ∀ a ∈ t.operands, a ∈ known := fun hall => by
        have hsome := isSome_mapM.mpr hall
        rw [show t.operands.mapM (fun a => known[a]?) = none from hnone] at hsome
        cases hsome
      simpa using hnot
    rcases hsupplied.1 rfl a ha with hknown | hnil | hfails
    · exact absurd hknown hunknown
    · cases hnil
    · exact converts_eq_false_of_operand ha hfails
  | case5 t rest known hcontains us hus f hf =>
    rw [process, if_neg hcontains, hus]
    simp only [hf]
    refine .stop fun _ _ => ?_
    have hroot : t.rootConverts = false := by
      unfold task at hf
      dsimp only at hf
      split at hf
      · cases hf
      · rename_i hfails
        simpa using hfails
    rw [Term.converts_eq, hroot, Bool.false_and]
  | case6 t rest known hcontains us hus u hu ih =>
    rw [process, if_neg hcontains, hus]
    simp only [hu]
    have hgrows (a : Term) (ha : a ∈ known) : a ∈ known.insert t u := by simp [ha]
    have hoperands : ∀ a ∈ t.operands, a ∈ known :=
      isSome_mapM.mp (Option.isSome_iff_exists.mpr ⟨us, hus⟩)
    have hroot : t.rootConverts = true := by
      unfold task at hu
      dsimp only at hu
      split at hu
      · assumption
      · cases hu
    have hinsert (honly : OnlyConverts known) : OnlyConverts (known.insert t u) := by
      intro a ha
      rcases Std.HashMap.mem_insert.mp ha with heq | ha
      · rw [← eq_of_beq heq, Term.converts_eq, hroot, Bool.true_and, List.all_eq_true]
        exact fun b hb => honly b (hoperands b hb)
      · exact honly a ha
    refine ⟨fun honly => ih.onlyConverts (hinsert honly), fun a ha => ih.grows a (hgrows a ha),
      fun hr => ⟨(ih.done hr).1, ?_⟩, fun b hb => bottom_of_rest (ih.left b hb),
      fun f hf honly hsupplied => ?_⟩
    · exact List.forall_mem_cons.mpr ⟨ih.grows t (by simp), (ih.done hr).2⟩
    · obtain ⟨p, hp, hfails⟩ := ih.refused f hf (hinsert honly)
        (hsupplied.2.mono hgrows fun a ha => .inl (by simp [List.mem_singleton.mp ha]))
      exact ⟨p, List.mem_cons_of_mem _ hp, hfails⟩

/-! ### Walks that are broken -/

/-- Whether what is left of a walk, if there is anything, cannot be finished. -/
structure Stuck (walk : Walk Unit) : Prop where
  onlyConverts : OnlyConverts walk.known
  left : ∀ t, bottom walk.pending = some t → t.converts = false

/-- Whether a walk gets to a term. -/
def Reaches (walk : Walk Unit) (t : Term) : Prop :=
  t ∈ walk.known ∨ walk.pending = [] ∧ t.converts = true

theorem bottom_eq_none : bottom pending = none ↔ pending = [] := by
  simp [bottom]

/-- What is left of a walk lets no other one through. -/
theorem Stuck.pending_eq_nil {walk : Walk Unit} (h : Stuck walk)
    (hall : ∀ p ∈ walk.pending, p.1.converts = true) : walk.pending = [] := by
  cases hbottom : bottom walk.pending with
  | none => exact bottom_eq_none.mp hbottom
  | some b =>
    obtain ⟨p, hp, rfl⟩ := Option.map_eq_some_iff.mp hbottom
    have hconverts := hall p (List.mem_of_getLast? hp)
    rw [h.left p.1 hbottom] at hconverts
    cases hconverts

/-- What becomes of a walk that goes on to a term. -/
structure Visited (walk : Walk Unit) (t : Term) (r : Except Fault Unit) (walk' : Walk Unit) :
    Prop where
  stuck : Stuck walk'
  reaches : r.isOk = true ↔ Reaches walk t
  converts : r.isOk = true → t.converts = true
  same : r.isOk = true → walk' = walk ∨ walk.pending = [] ∧ walk'.pending = []

theorem Stuck.visit {walk : Walk Unit} (h : Stuck walk) (t : Term) :
    Visited walk t (walk.visit task t).1 (walk.visit task t).2 := by
  have hwalked := walked_process ((t, false) :: walk.pending) walk.known
  unfold Walk.visit
  split
  · rename_i u hu
    have ht : t ∈ walk.known := (Std.HashMap.isSome_getElem?_iff_mem).mp (by simp [hu])
    exact ⟨h, by simp [Except.isOk, Except.toBool, Reaches, ht], fun _ => h.onlyConverts t ht,
      fun _ => .inl rfl⟩
  · rename_i hnone
    have ht : t ∉ walk.known := fun ht => by simp [ht] at hnone
    split
    · rename_i f walk' hprocess
      rw [hprocess] at hwalked
      have hfails (hpending : walk.pending = []) : t.converts = false := by
        obtain ⟨p, hp, hfails⟩ := hwalked.refused f rfl h.onlyConverts
          (by rw [hpending]; exact ⟨nofun, trivial⟩)
        rw [hpending] at hp
        obtain rfl := List.mem_singleton.mp hp
        exact hfails
      refine ⟨⟨hwalked.onlyConverts h.onlyConverts, fun b hb => ?_⟩, ?_, nofun, nofun⟩
      · have hb := hwalked.left b hb
        by_cases hpending : walk.pending = []
        · rw [hpending] at hb
          obtain rfl : t = b := by simpa [bottom] using hb
          exact hfails hpending
        · exact h.left b (bottom_cons _ hpending ▸ hb)
      · refine iff_of_false nofun ?_
        rintro (hknown | ⟨hpending, hconverts⟩)
        · exact ht hknown
        · rw [hfails hpending] at hconverts
          cases hconverts
    · rename_i walk' hprocess
      rw [hprocess] at hwalked
      obtain ⟨hdone, hall⟩ : walk'.pending = [] ∧ ∀ p ∈ (t, false) :: walk.pending,
        p.1 ∈ walk'.known := hwalked.done rfl
      have honly := hwalked.onlyConverts h.onlyConverts
      have hpending := h.pending_eq_nil fun p hp => honly _ (hall p (List.mem_cons_of_mem _ hp))
      have hknown : t ∈ walk'.known := hall (t, false) List.mem_cons_self
      rw [Std.HashMap.getElem?_eq_some_getElem hknown]
      refine ⟨⟨honly, by simp [hdone, bottom]⟩, ?_, fun _ => honly t hknown,
        fun _ => .inr ⟨hpending, hdone⟩⟩
      exact iff_of_true rfl (.inr ⟨hpending, honly t hknown⟩)

/-! ### Conversions -/

/-- Whether a conversion has converted only what can be converted, and what it has left, if one has
failed, cannot be finished. -/
def Regular (conversion : Conversion) : Prop :=
  (∀ t ∈ conversion.converted, t.converts = true) ∧ ∀ walk ∈ conversion.broken, Stuck walk

/-- Whether a term would be converted. -/
def Accepts (conversion : Conversion) (t : Term) : Prop := (conversion.convert t).1.isOk = true

theorem regular_start : Regular .start := ⟨nofun, nofun⟩

theorem stuck_walked {ts : List Term} (hts : ∀ t ∈ ts, t.converts = true) : Stuck (walked ts) := by
  have h := walked_process (ts.map (·, false)) ∅
  have honly : OnlyConverts ∅ := fun t ht => by simp at ht
  have hsupplied : Supplied ∅ [] (ts.map (·, false)) := by
    rw [← List.append_nil (ts.map _), supplied_append]
    trivial
  have hdone : (walked ts).pending = [] := by
    cases hr : (process task (ts.map (·, false)) ∅).1 with
    | ok _ => exact (h.done hr).1
    | error f =>
      obtain ⟨p, hp, hfails⟩ := h.refused f hr honly hsupplied
      obtain ⟨t, ht, rfl⟩ := List.mem_map.mp hp
      rw [hts t ht] at hfails
      cases hfails
  exact ⟨h.onlyConverts honly, by simp [hdone, bottom]⟩

theorem Stuck.converts_of_reaches {walk : Walk Unit} (h : Stuck walk) (ht : Reaches walk t) :
    t.converts = true := by
  rcases ht with hknown | ⟨_, hconverts⟩
  · exact h.onlyConverts t hknown
  · exact hconverts

theorem convert_some (converted : List Term) (walk : Walk Unit) (t : Term) :
    convert t ⟨converted, some walk⟩ =
      ((walk.visit task t).1, ⟨converted, some (walk.visit task t).2⟩) := rfl

theorem convert_none (converted : List Term) (t : Term) :
    convert t ⟨converted, none⟩ =
      if t.converts = true then (.ok (), ⟨t :: converted, none⟩)
      else (((walked converted).visit task t).1,
        ⟨converted, some ((walked converted).visit task t).2⟩) := by
  unfold convert
  simp only [Term.Fold.run_eq]
  rfl

theorem accepts_some {converted : List Term} {walk : Walk Unit} (h : Stuck walk) :
    Accepts ⟨converted, some walk⟩ t ↔ Reaches walk t := by
  rw [Accepts, convert_some]
  exact (h.visit t).reaches

/-- As long as nothing stands in the way, what can be converted is. -/
theorem accepts_none {converted : List Term} (h : ∀ t ∈ converted, t.converts = true) :
    Accepts ⟨converted, none⟩ t ↔ t.converts = true := by
  rw [Accepts, convert_none]
  split
  · exact iff_of_true rfl ‹_›
  · rename_i hfails
    exact iff_of_false (fun hok => hfails (((stuck_walked h).visit t).converts hok)) hfails

/-- What becomes of a conversion. What is converted after one that succeeded could have been
converted before it. -/
structure Converted (conversion conversion' : Conversion) (r : Except Fault Unit) : Prop where
  regular : conversion'.Regular
  accepts : r.isOk = true → ∀ t, conversion'.Accepts t → conversion.Accepts t

theorem Regular.convert {conversion : Conversion} (h : conversion.Regular) (t : Term) :
    Converted conversion (conversion.convert t).2 (conversion.convert t).1 := by
  obtain ⟨converted, broken⟩ := conversion
  obtain ⟨honly, hbroken⟩ := h
  cases broken with
  | none =>
    rw [convert_none]
    split
    · rename_i ht
      have honly' : ∀ t' ∈ t :: converted, t'.converts = true :=
        List.forall_mem_cons.mpr ⟨ht, honly⟩
      exact ⟨⟨honly', nofun⟩, fun _ s hs => (accepts_none honly).mpr ((accepts_none honly').mp hs)⟩
    · rename_i hfails
      have hvisit := (stuck_walked honly).visit t
      refine ⟨⟨honly, fun walk hwalk => ?_⟩, fun hok => absurd (hvisit.converts hok) hfails⟩
      obtain rfl := Option.some.inj hwalk
      exact hvisit.stuck
  | some walk =>
    rw [convert_some]
    have hvisit := (hbroken walk rfl).visit t
    refine ⟨⟨honly, fun walk' hwalk' => ?_⟩, fun hok s hs => ?_⟩
    · obtain rfl := Option.some.inj hwalk'
      exact hvisit.stuck
    · rw [accepts_some hvisit.stuck] at hs
      rw [accepts_some (hbroken walk rfl)]
      rcases hvisit.same hok with hsame | ⟨hpending, _⟩
      · exact hsame ▸ hs
      · exact .inr ⟨hpending, hvisit.stuck.converts_of_reaches hs⟩

end Conversion

end Engine

end SmtScript
