import Mathlib.Data.List.Perm.Subperm
import SmtScript.Proofs.IntegerPart

/-!
The search for the integer parts that occur in terms.

The search looks at one term after the other. Whatever integer parts it meets for the first time it
adds to those that it has found, and their operands to the terms that it is to look at: the list of
terms grows while the search goes through it. `Search.Step` is one round of it; in which order the
integer parts of one term are met is left open. The search ends all the same, `Search.Runs.rounds`,
and then it has found what occurs in the terms, each of it once, `Search.Runs.found_iff`. The list
`IntegerParts.reachable` is found in this way.
-/

namespace SmtScript

namespace IntegerParts

/-- The state of a search: the integer parts that it has found, and the terms that it is still to
look at, the next one last. -/
structure Search where
  found : IntegerParts
  pending : List Term

namespace Search

variable {parts : IntegerParts} {ts : List Term} {s s' s'' : Search} {p : Symbol × Term} {n : Nat}

/-- A search at its start. -/
def start (ts : List Term) : Search := ⟨[], ts⟩

/-- A round: the integer parts in the next term that are not found yet are found, in any order. -/
inductive Step (parts : IntegerParts) : Search → Search → Prop where
  | round {found met : IntegerParts} {pending : List Term} {t : Term}
      (hmet : met.Perm
        (parts.filter fun p => p.1 ∈ t.freeSymbols ∧ p.1 ∉ found.map Prod.fst)) :
      Step parts ⟨found, pending ++ [t]⟩ ⟨found ++ met, pending ++ met.map Prod.snd⟩

/-- A number of rounds. -/
inductive Runs (parts : IntegerParts) : Nat → Search → Search → Prop where
  | none (s : Search) : Runs parts 0 s s
  | round {n : Nat} {s s' s'' : Search} (h : Step parts s s') (hrest : Runs parts n s' s'') :
      Runs parts (n + 1) s s''

/-- As long as there is a term to look at, the search goes on. -/
theorem exists_step (h : s.pending ≠ []) : ∃ s', Step parts s s' := by
  obtain ⟨found, pending⟩ := s
  obtain ⟨pending, t, rfl⟩ := (List.eq_nil_or_concat' pending).resolve_left h
  exact ⟨_, .round (.refl _)⟩

/-! ### What a search has found -/

/-- A term that a search has come to: a term that it was given, or the operand of an integer part
that it has found. -/
def Reached (ts : List Term) (s : Search) (t : Term) : Prop :=
  t ∈ ts ∨ ∃ q ∈ s.found, t = q.2

/-- What holds throughout a search: all that it has found occurs, nothing has been found twice, and
the integer parts in a term that it has come to are found unless it is still to look at the term. -/
structure Valid (parts : IntegerParts) (ts : List Term) (s : Search) : Prop where
  nodup : (s.found.map Prod.fst).Nodup
  occurs : ∀ p ∈ s.found, Occurs parts ts p
  pending : ∀ t ∈ s.pending, Reached ts s t
  looked : ∀ t, Reached ts s t → t ∈ s.pending ∨ ∀ p ∈ parts, p.1 ∈ t.freeSymbols → p ∈ s.found

theorem valid_start (parts : IntegerParts) (ts : List Term) : Valid parts ts (start ts) where
  nodup := List.nodup_nil
  occurs := nofun
  pending _ ht := .inl ht
  looked _ ht := ht.elim .inl fun ⟨_, hq, _⟩ => nomatch hq

/-- An integer part in a term that has been reached occurs. -/
theorem Valid.occurs_of_free {t : Term} (h : Valid parts ts s) (ht : Reached ts s t)
    (hp : p ∈ parts) (hfree : p.1 ∈ t.freeSymbols) : Occurs parts ts p := by
  rcases ht with ht | ⟨q, hq, rfl⟩
  · exact .direct hp ht hfree
  · exact .nested hp (h.occurs q hq) hfree

theorem Step.valid (hstep : Step parts s s') (hparts : (parts.map Prod.fst).Nodup)
    (h : Valid parts ts s) : Valid parts ts s' := by
  obtain @⟨found, met, pending, t, hmet⟩ := hstep
  have hmem {p : Symbol × Term} : p ∈ met ↔
      p ∈ parts ∧ p.1 ∈ t.freeSymbols ∧ p.1 ∉ found.map Prod.fst := by
    rw [hmet.mem_iff]
    simp
  have hgrow {u : Term} (hu : Reached ts ⟨found, pending ++ [t]⟩ u) :
      Reached ts ⟨found ++ met, pending ++ met.map Prod.snd⟩ u :=
    hu.imp_right fun ⟨q, hq, heq⟩ => ⟨q, List.mem_append_left _ hq, heq⟩
  refine ⟨?_, fun p hp => ?_, fun u hu => ?_, fun u hu => ?_⟩
  · rw [List.map_append, List.nodup_append]
    refine ⟨h.nodup, ?_, ?_⟩
    · exact ((hmet.map Prod.fst).nodup_iff).mpr (hparts.sublist (List.filter_sublist.map _))
    · rintro symbol hold symbol' hnew rfl
      obtain ⟨p, hp, rfl⟩ := List.mem_map.mp hnew
      exact (hmem.mp hp).2.2 hold
  · rcases List.mem_append.mp hp with hp | hp
    · exact h.occurs p hp
    · obtain ⟨hpart, hfree, _⟩ := hmem.mp hp
      exact h.occurs_of_free (h.pending t (by simp)) hpart hfree
  · rcases List.mem_append.mp hu with hu | hu
    · exact hgrow (h.pending u (List.mem_append_left _ hu))
    · obtain ⟨q, hq, rfl⟩ := List.mem_map.mp hu
      exact .inr ⟨q, List.mem_append_right _ hq, rfl⟩
  -- a term is the one that is looked at, was reached before, or is an operand met in this round
  · have hlooked (p : Symbol × Term) (hp : p ∈ parts) (hfree : p.1 ∈ t.freeSymbols) :
        p ∈ found ++ met := by
      by_cases hold : p.1 ∈ found.map Prod.fst
      · obtain ⟨q, hq, hsame⟩ := List.mem_map.mp hold
        obtain rfl := List.inj_on_of_nodup_map hparts (h.occurs q hq).mem hp hsame
        exact List.mem_append_left _ hq
      · exact List.mem_append_right _ (hmem.mpr ⟨hp, hfree, hold⟩)
    have hbefore (hu : Reached ts ⟨found, pending ++ [t]⟩ u) :
        u ∈ pending ++ met.map Prod.snd ∨
          ∀ p ∈ parts, p.1 ∈ u.freeSymbols → p ∈ found ++ met := by
      rcases h.looked u hu with hpending | hfound
      · rcases List.mem_append.mp hpending with hpending | hlast
        · exact .inl (List.mem_append_left _ hpending)
        · obtain rfl := List.mem_singleton.mp hlast
          exact .inr hlooked
      · exact .inr fun p hp hfree => List.mem_append_left _ (hfound p hp hfree)
    rcases hu with hu | ⟨q, hq, rfl⟩
    · exact hbefore (.inl hu)
    · rcases List.mem_append.mp hq with hq | hq
      · exact hbefore (.inr ⟨q, hq, rfl⟩)
      · exact .inl (List.mem_append_right _ (List.mem_map_of_mem hq))

theorem Runs.valid (hruns : Runs parts n s s') (hparts : (parts.map Prod.fst).Nodup)
    (h : Valid parts ts s) : Valid parts ts s' := by
  induction hruns with
  | none _ => exact h
  | round hstep _ ih => exact ih (hstep.valid hparts h)

/-- When there is no term left to look at, all that occurs has been found. -/
theorem Valid.mem_iff (h : Valid parts ts s) (hend : s.pending = []) :
    p ∈ s.found ↔ Occurs parts ts p := by
  refine ⟨h.occurs p, fun hoccurs => ?_⟩
  have hfound {t : Term} (ht : Reached ts s t) :
      ∀ p ∈ parts, p.1 ∈ t.freeSymbols → p ∈ s.found :=
    (h.looked t ht).resolve_left (by simp [hend])
  induction hoccurs with
  | direct hp ht hfree => exact hfound (.inl ht) _ hp hfree
  | nested hp _ hfree ih => exact hfound (.inr ⟨_, ih, rfl⟩) _ hp hfree

/-! ### How long a search takes -/

/-- A round takes one term away, and brings one for each integer part that it finds. -/
theorem Step.length (h : Step parts s s') :
    s'.pending.length + s.found.length + 1 = s.pending.length + s'.found.length := by
  obtain @⟨found, met, pending, t, hmet⟩ := h
  simp only [List.length_append, List.length_map, List.length_singleton]
  omega

theorem Runs.length (h : Runs parts n s s') :
    n + s'.pending.length + s.found.length = s.pending.length + s'.found.length := by
  induction h with
  | none s => omega
  | round hstep _ ih =>
    have := hstep.length
    omega

/-- A search takes no more rounds than there are terms and integer parts together. -/
theorem Runs.rounds (h : Runs parts n (start ts) s) (hparts : (parts.map Prod.fst).Nodup) :
    n ≤ ts.length + parts.length := by
  have hvalid := h.valid hparts (valid_start parts ts)
  have hfound : s.found.length ≤ parts.length := by
    refine (List.subperm_of_subset (.of_map _ hvalid.nodup) fun p hp => ?_).length_le
    exact (hvalid.occurs p hp).mem
  have hlength := h.length
  simp only [start, List.length_nil] at hlength
  omega

/-- A search that has come to its end has found all that occurs, each of it once, and has looked at
each of the terms and of the operands once. -/
theorem Runs.found_iff {found : IntegerParts} (h : Runs parts n (start ts) ⟨found, []⟩)
    (hparts : (parts.map Prod.fst).Nodup) :
    (found.map Prod.fst).Nodup ∧ (∀ p, p ∈ found ↔ Occurs parts ts p) ∧
      n = ts.length + found.length := by
  have hvalid := h.valid hparts (valid_start parts ts)
  refine ⟨hvalid.nodup, fun p => hvalid.mem_iff rfl, ?_⟩
  simpa [start] using h.length

/-! ### The list that is found -/

/-- What a round meets among the integer parts that are not found yet. -/
theorem mentionedIn_left (parts found : IntegerParts) (t : Term) :
    mentionedIn (parts.reverse.filter fun p => p.1 ∉ found.map Prod.fst) t =
      (parts.filter fun p => p.1 ∈ t.freeSymbols ∧ p.1 ∉ found.map Prod.fst).reverse := by
  rw [mentionedIn, List.filter_filter, ← List.filter_reverse]
  refine List.filter_congr fun p _ => ?_
  simp [Term.symbols_eq]

/-- What a round does not meet is still not found after it. -/
theorem notMentionedIn_left (parts found : IntegerParts) (t : Term) {met : IntegerParts}
    (hmet : ∀ q, q ∈ met ↔ q ∈ parts ∧ q.1 ∈ t.freeSymbols ∧ q.1 ∉ found.map Prod.fst) :
    notMentionedIn (parts.reverse.filter fun p => p.1 ∉ found.map Prod.fst) t =
      parts.reverse.filter fun p => p.1 ∉ (found ++ met).map Prod.fst := by
  rw [notMentionedIn, List.filter_filter]
  refine List.filter_congr fun p hp => ?_
  have hnew : p.1 ∉ t.freeSymbols ∧ p.1 ∉ found.map Prod.fst ↔
      p.1 ∉ (found ++ met).map Prod.fst := by
    rw [List.map_append, List.mem_append, not_or]
    constructor
    · rintro ⟨hfree, hold⟩
      refine ⟨hold, fun h => hfree ?_⟩
      obtain ⟨q, hq, hsame⟩ := List.mem_map.mp h
      exact hsame ▸ ((hmet q).mp hq).2.1
    · rintro ⟨hold, h⟩
      refine ⟨fun hfree => h (List.mem_map_of_mem ?_), hold⟩
      exact (hmet p).mpr ⟨List.mem_reverse.mp hp, hfree, hold⟩
  rw [Bool.eq_iff_iff, Bool.and_eq_true, decide_eq_true_iff, decide_eq_true_iff, ← hnew,
    Term.symbols_eq]
  simp

theorem runs_metIn (parts left : IntegerParts) (pending : List Term) :
    ∀ found : IntegerParts, left = parts.reverse.filter (fun p => p.1 ∉ found.map Prod.fst) →
      ∃ n, Runs parts n ⟨found, pending.reverse⟩ ⟨found ++ metIn left pending, []⟩ := by
  fun_induction metIn left pending with
  | case1 left =>
    intro found _
    rw [List.append_nil]
    exact ⟨0, .none _⟩
  | case2 left t pending met ih =>
    rintro found rfl
    have hmet : met = (parts.filter fun p =>
        p.1 ∈ t.freeSymbols ∧ p.1 ∉ found.map Prod.fst).reverse := mentionedIn_left parts found t
    have hstep : Step parts ⟨found, pending.reverse ++ [t]⟩
        ⟨found ++ met, pending.reverse ++ met.map Prod.snd⟩ :=
      .round (hmet ▸ List.reverse_perm _)
    obtain ⟨n, hn⟩ := ih (found ++ met) (notMentionedIn_left parts found t fun q => by simp [hmet])
    rw [List.reverse_append, List.reverse_reverse, List.append_assoc] at hn
    rw [List.reverse_cons]
    exact ⟨n + 1, .round hstep hn⟩

/-- The integer parts that are reachable are found by a search. -/
theorem runs_reachable (parts : IntegerParts) (ts : List Term) :
    ∃ n, Runs parts n (start ts) ⟨parts.reachable ts, []⟩ := by
  obtain ⟨n, hn⟩ := runs_metIn parts parts.reverse ts.reverse [] (by simp)
  rw [List.reverse_reverse, List.nil_append] at hn
  exact ⟨n, hn⟩

end Search

end IntegerParts

end SmtScript
