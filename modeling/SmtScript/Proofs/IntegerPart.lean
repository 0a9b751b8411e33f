import SmtScript.IntegerPart
import SmtScript.Proofs.TermState

/-!
The integer parts that occur in terms.

`IntegerParts.Occurs` says which integer parts occur in terms, directly or through the operands of
others. The work list of `IntegerParts.reachable` finds these and no others, each of them once.
-/

namespace SmtScript

namespace IntegerParts

variable {parts parts' : IntegerParts} {ts us : List Term} {p q : Symbol × Term}

/-- Whether an integer part occurs in some terms, directly or through operands of others. -/
inductive Occurs (parts : IntegerParts) (ts : List Term) : Symbol × Term → Prop where
  | direct {t : Term} {p : Symbol × Term} (hp : p ∈ parts) (ht : t ∈ ts)
      (hfree : p.1 ∈ t.freeSymbols) : Occurs parts ts p
  | nested {p q : Symbol × Term} (hp : p ∈ parts) (hq : Occurs parts ts q)
      (hfree : p.1 ∈ q.2.freeSymbols) : Occurs parts ts p

theorem Occurs.mem (h : Occurs parts ts p) : p ∈ parts := by
  cases h <;> assumption

theorem Occurs.mono (h : Occurs parts ts p) (hparts : ∀ p ∈ parts, p ∈ parts')
    (hts : ∀ t ∈ ts, t ∈ us) : Occurs parts' us p := by
  induction h with
  | direct hp ht hfree => exact .direct (hparts _ hp) (hts _ ht) hfree
  | nested hp _ hfree ih => exact .nested (hparts _ hp) ih hfree

/-- What occurs in several terms occurs in one of them. -/
theorem Occurs.exists_mem (h : Occurs parts ts p) : ∃ t ∈ ts, Occurs parts [t] p := by
  induction h with
  | direct hp ht hfree => exact ⟨_, ht, .direct hp (List.mem_singleton_self _) hfree⟩
  | nested hp _ hfree ih =>
    obtain ⟨t, ht, hq⟩ := ih
    exact ⟨t, ht, .nested hp hq hfree⟩

theorem mem_mentionedIn {t : Term} : p ∈ parts.mentionedIn t ↔ p ∈ parts ∧ p.1 ∈ t.freeSymbols := by
  simp [mentionedIn, Term.symbols_eq]

theorem mem_notMentionedIn {t : Term} :
    p ∈ parts.notMentionedIn t ↔ p ∈ parts ∧ p.1 ∉ t.freeSymbols := by
  simp [notMentionedIn, Term.symbols_eq]

theorem mem_mentionedIn_or {t : Term} (hp : p ∈ parts) :
    p ∈ parts.mentionedIn t ∨ p ∈ parts.notMentionedIn t := by
  rw [mem_mentionedIn, mem_notMentionedIn]
  by_cases h : p.1 ∈ t.freeSymbols
  · exact .inl ⟨hp, h⟩
  · exact .inr ⟨hp, h⟩

/-- One round of the work list: what occurs is mentioned in the first term, or occurs among the rest
in the operands of what is mentioned and in the other terms. -/
theorem occurs_cons_iff {t : Term} :
    Occurs parts (t :: ts) p ↔ p ∈ parts.mentionedIn t ∨
      Occurs (parts.notMentionedIn t)
        (((parts.mentionedIn t).map Prod.snd).reverse ++ ts) p := by
  constructor
  · intro h
    induction h with
    | @direct u p hp hu hfree =>
      rcases mem_mentionedIn_or (t := t) hp with hmet | hrest
      · exact .inl hmet
      · rcases List.mem_cons.mp hu with rfl | hu
        · exact .inl (mem_mentionedIn.mpr ⟨hp, hfree⟩)
        · exact .inr (.direct hrest (List.mem_append_right _ hu) hfree)
    | @nested p q hp _ hfree ih =>
      rcases mem_mentionedIn_or (t := t) hp with hmet | hrest
      · exact .inl hmet
      · rcases ih with hq | hq
        · refine .inr (.direct hrest (List.mem_append_left _ ?_) hfree)
          exact List.mem_reverse.mpr (List.mem_map_of_mem hq)
        · exact .inr (.nested hrest hq hfree)
  · rintro (h | h)
    · obtain ⟨hp, hfree⟩ := mem_mentionedIn.mp h
      exact .direct hp List.mem_cons_self hfree
    · induction h with
      | direct hp hu hfree =>
        have hp' := (mem_notMentionedIn.mp hp).1
        rcases List.mem_append.mp hu with hu | hu
        · obtain ⟨q, hq, rfl⟩ := List.mem_map.mp (List.mem_reverse.mp hu)
          obtain ⟨hqp, hqfree⟩ := mem_mentionedIn.mp hq
          exact .nested hp' (.direct hqp List.mem_cons_self hqfree) hfree
        · exact .direct hp' (List.mem_cons_of_mem _ hu) hfree
      | nested hp _ hfree ih => exact .nested (mem_notMentionedIn.mp hp).1 ih hfree

theorem mem_metIn : p ∈ metIn parts ts ↔ Occurs parts ts p := by
  fun_induction metIn parts ts with
  | case1 parts =>
    refine ⟨nofun, fun h => ?_⟩
    obtain ⟨t, ht, _⟩ := h.exists_mem
    cases ht
  | case2 parts t pending met ih => rw [List.mem_append, ih, occurs_cons_iff]

/-- The work list finds what occurs, and nothing else. -/
theorem mem_reachable : p ∈ parts.reachable ts ↔ Occurs parts ts p := by
  rw [reachable, mem_metIn]
  constructor <;> intro h <;> exact h.mono (by simp) (by simp)

theorem nodup_metIn (h : (parts.map Prod.fst).Nodup) :
    ((metIn parts ts).map Prod.fst).Nodup := by
  fun_induction metIn parts ts with
  | case1 parts => exact List.nodup_nil
  | case2 parts t pending met ih =>
    have hmet : (met.map Prod.fst).Nodup := h.sublist (List.filter_sublist.map _)
    have hrest := ih (h.sublist (List.filter_sublist.map _))
    rw [List.map_append, List.nodup_append]
    refine ⟨hmet, hrest, fun s hs s' hs' heq => ?_⟩
    subst heq
    obtain ⟨p, hp, rfl⟩ := List.mem_map.mp hs
    obtain ⟨q, hq, hpq⟩ := List.mem_map.mp hs'
    have hfree := (mem_mentionedIn.mp hp).2
    have hnot := (mem_notMentionedIn.mp (mem_metIn.mp hq).mem).2
    exact hnot (hpq ▸ hfree)

theorem Acyclic.nodup_keys (h : Acyclic parts) : (parts.map Prod.fst).Nodup := by
  induction parts with
  | nil => exact List.nodup_nil
  | cons part older ih =>
    obtain ⟨_, hnew, holder⟩ := h
    refine List.nodup_cons.mpr ⟨fun hmem => ?_, ih holder⟩
    obtain ⟨p, hp, hsame⟩ := List.mem_map.mp hmem
    exact (hnew p hp).1 hsame

theorem nodup_reachable (h : Acyclic parts) : ((parts.reachable ts).map Prod.fst).Nodup := by
  refine nodup_metIn ?_
  rw [List.map_reverse, List.nodup_reverse]
  exact h.nodup_keys

end IntegerParts

end SmtScript
