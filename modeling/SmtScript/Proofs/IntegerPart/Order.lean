import SmtScript.Proofs.IntegerPart

/-!
The order in which floors of integer parts are found.

`IntegerParts.valuesIn` goes from a term to the integer parts in it, and from each of them to those
in its operand. `IntegerParts.demanded` is the order in which it comes to ask for their floors,
`valuesIn_eq_floors`: each integer part that occurs in the term is there once, after those that its
operand mentions. The recursion is given fewer and fewer integer parts to look for; it would do the
same if it looked for all of them every time, to whatever depth, `valuesTo_eq`.
-/

namespace SmtScript

namespace IntegerParts

open Step

variable {parts all older newer : IntegerParts} {t : Term} {p q : Symbol × Term} {met : List Symbol}

/-- What is free in an operand is older. -/
theorem Acyclic.mem_older (h : Acyclic (newer ++ p :: older)) (hq : q ∈ newer ++ p :: older)
    (hfree : q.1 ∈ p.2.freeSymbols) : q ∈ older := by
  induction newer with
  | nil =>
    rcases List.mem_cons.mp hq with rfl | hq
    · exact absurd hfree h.1
    · exact hq
  | cons newest newer ih =>
    obtain ⟨_, hnewest, hrest⟩ := h
    rcases List.mem_cons.mp hq with rfl | hq
    · exact absurd hfree (hnewest p (by simp)).2
    · exact ih hrest hq

/-- The integer parts whose floors a term demands, in the order in which they are found, if those
of some symbols are known already. -/
def demanded : IntegerParts → Term → List Symbol → IntegerParts
  | [], _, _ => []
  | part :: older, t, met =>
    let first := demanded older t met
    let met := (first.map Prod.fst).reverse ++ met
    if part.1 ∈ t.freeSymbols ∧ part.1 ∉ met then first ++ demanded older part.2 met ++ [part]
    else first

/-! ### The recursion and the order -/

section

variable {σ μ β : Type} [Solver σ μ] {known known' : Substitution}

theorem floors_append (older newer : IntegerParts) (known : Substitution) :
    (floors (σ := σ) (older ++ newer) known : PartStep μ Substitution) =
      floors (σ := σ) older known >>= floors (σ := σ) newer := by
  induction older generalizing known with
  | nil => simp [floors]
  | cons part rest ih =>
    obtain ⟨symbol, operand⟩ := part
    simp only [List.cons_append, floors, bind_assoc]
    congr 1
    funext u
    congr 1
    funext value
    cases floorOf value with
    | none => rfl
    | some n => exact ih _

/-- Each floor that is found is put before those that are known. -/
theorem keys_floors {p p' : Option μ × TermState}
    (hrun : (floors (σ := σ) parts known).run p = (.ok known', p')) :
    known'.map Prod.fst = (parts.map Prod.fst).reverse ++ known.map Prod.fst := by
  induction parts generalizing known p with
  | nil =>
    obtain ⟨hknown, _⟩ := Prod.mk.inj hrun
    rw [Except.ok.inj hknown]
    rfl
  | cons part rest ih =>
    obtain ⟨symbol, operand⟩ := part
    rw [floors, run_bind] at hrun
    split at hrun
    · rw [run_bind] at hrun
      split at hrun
      · split at hrun
        · cases hrun
        · rw [ih hrun]
          simp
      · cases hrun
    · cases hrun

/-- What is done with the floors that are found depends on it for these only. -/
theorem floors_bind_congr {f g : Substitution → PartStep μ β}
    (h : ∀ known' : Substitution,
      known'.map Prod.fst = (parts.map Prod.fst).reverse ++ known.map Prod.fst →
        f known' = g known') :
    floors (σ := σ) parts known >>= f = floors (σ := σ) parts known >>= g := by
  refine ExceptT.ext (funext fun p => ?_)
  show (floors (σ := σ) parts known >>= f).run p = (floors (σ := σ) parts known >>= g).run p
  rw [run_bind, run_bind]
  split
  · rename_i hrun
    rw [h _ (keys_floors hrun)]
  · rfl

/-- The recursion asks for floors in the order in which they are demanded. -/
theorem valuesIn_eq_floors (parts : IntegerParts) (t : Term) (known : Substitution) :
    (valuesIn (σ := σ) parts t known : PartStep μ Substitution) =
      floors (σ := σ) (demanded parts t (known.map Prod.fst)) known := by
  induction parts generalizing t known with
  | nil => rfl
  | cons part older ih =>
    have hstep (known' : Substitution) :
        (if t.symbols.contains part.1 then valueOf (σ := σ) (valuesIn (σ := σ) older) part known'
          else pure known' : PartStep μ Substitution) =
        if part.1 ∈ t.freeSymbols ∧ part.1 ∉ known'.map Prod.fst then
          floors (σ := σ) (demanded older part.2 (known'.map Prod.fst) ++ [part]) known'
        else pure known' := by
      rw [Term.symbols_eq, valueOf, ih, floors_append]
      simp only [List.contains_iff_mem]
      by_cases hfree : part.1 ∈ t.freeSymbols
      · by_cases hmet : part.1 ∈ known'.map Prod.fst
        · rw [if_pos hfree, if_pos hmet, if_neg fun h => h.2 hmet]
        · rw [if_pos hfree, if_neg hmet, if_pos ⟨hfree, hmet⟩]
      · rw [if_neg hfree, if_neg fun h => hfree h.1]
    simp only [valuesIn, hstep]
    rw [ih, demanded]
    split
    · rename_i hnew
      rw [List.append_assoc, floors_append]
      refine floors_bind_congr fun known' hkeys => ?_
      rw [hkeys, if_pos hnew]
    · rename_i hold
      conv_rhs => rw [← bind_pure (floors (σ := σ) _ known)]
      refine floors_bind_congr fun known' hkeys => ?_
      rw [hkeys, if_neg hold]

/-- When nothing is known, all that is demanded is asked for. -/
theorem valuesIn_nil (parts : IntegerParts) (t : Term) :
    (valuesIn (σ := σ) parts t [] : PartStep μ Substitution) =
      floors (σ := σ) (demanded parts t []) [] :=
  valuesIn_eq_floors parts t []

end

/-! ### What is demanded -/

/-- What occurs in an operand occurs where its integer part does. -/
theorem Occurs.through (h : Occurs parts [q.2] p) (hq : Occurs parts [t] q) :
    Occurs parts [t] p := by
  induction h with
  | direct hp hu hfree =>
    obtain rfl := List.mem_singleton.mp hu
    exact .nested hp hq hfree
  | nested hp _ hfree ih => exact .nested hp ih hfree

/-- Only what occurs in a term is demanded. -/
theorem occurs_of_mem_demanded (h : p ∈ demanded parts t met) : Occurs parts [t] p := by
  induction parts generalizing t met with
  | nil => cases h
  | cons part older ih =>
    have hgrow {u : Term} (h : Occurs older [u] p) : Occurs (part :: older) [u] p :=
      h.mono (fun _ => List.mem_cons_of_mem _) fun _ => id
    rw [demanded] at h
    split at h
    · rename_i hnew
      have hpart : Occurs (part :: older) [t] part :=
        .direct List.mem_cons_self (List.mem_singleton_self t) hnew.1
      rcases List.mem_append.mp h with h | h
      · rcases List.mem_append.mp h with h | h
        · exact hgrow (ih h)
        · exact (hgrow (ih h)).through hpart
      · obtain rfl := List.mem_singleton.mp h
        exact hpart
    · exact hgrow (ih h)

/-- What is known is not demanded. -/
theorem not_mem_of_mem_demanded (h : p ∈ demanded parts t met) : p.1 ∉ met := by
  induction parts generalizing t met with
  | nil => cases h
  | cons part older ih =>
    rw [demanded] at h
    split at h
    · rename_i hnew
      rcases List.mem_append.mp h with h | h
      · rcases List.mem_append.mp h with h | h
        · exact ih h
        · exact fun hmet => ih h (List.mem_append_right _ hmet)
      · obtain rfl := List.mem_singleton.mp h
        exact fun hmet => hnew.2 (List.mem_append_right _ hmet)
    · exact ih h

/-- Nothing is demanded twice. -/
theorem nodup_demanded (hparts : (parts.map Prod.fst).Nodup) :
    ((demanded parts t met).map Prod.fst).Nodup := by
  induction parts generalizing t met with
  | nil => exact List.nodup_nil
  | cons part older ih =>
    obtain ⟨hpart, holder⟩ := List.nodup_cons.mp hparts
    rw [demanded]
    split
    · simp only [List.map_append, List.map_singleton]
      refine List.nodup_append.mpr ⟨List.nodup_append.mpr ⟨ih holder, ih holder, ?_⟩,
        List.nodup_singleton _, ?_⟩
      · rintro s hs s' hs' rfl
        obtain ⟨p, hp, rfl⟩ := List.mem_map.mp hs'
        refine not_mem_of_mem_demanded hp (List.mem_append_left _ ?_)
        exact List.mem_reverse.mpr hs
      · rintro s hs s' hs' rfl
        obtain rfl := List.mem_singleton.mp hs'
        -- what is demanded before the part itself is older than it
        refine hpart ?_
        rcases List.mem_append.mp hs with hs | hs <;> obtain ⟨p, hp, hsame⟩ := List.mem_map.mp hs
        · exact hsame ▸ List.mem_map_of_mem (occurs_of_mem_demanded hp).mem
        · exact hsame ▸ List.mem_map_of_mem (occurs_of_mem_demanded hp).mem
    · exact ih holder

/-- What a term mentions is known or demanded. -/
theorem mem_demanded_of_free (hparts : (parts.map Prod.fst).Nodup) (hq : q ∈ parts)
    (hfree : q.1 ∈ t.freeSymbols) : q.1 ∈ met ∨ q ∈ demanded parts t met := by
  induction parts generalizing met with
  | nil => cases hq
  | cons part older ih =>
    obtain ⟨hpart, holder⟩ := List.nodup_cons.mp hparts
    rw [demanded]
    rcases List.mem_cons.mp hq with rfl | hq
    · by_cases hmet : q.1 ∈ met
      · exact .inl hmet
      have hfirst : q.1 ∉ ((demanded older t met).map Prod.fst).reverse := fun h => by
        obtain ⟨p, hp, hsame⟩ := List.mem_map.mp (List.mem_reverse.mp h)
        exact hpart (hsame ▸ List.mem_map_of_mem (occurs_of_mem_demanded hp).mem)
      refine .inr ?_
      rw [if_pos (by simp_all)]
      exact List.mem_append_right _ (List.mem_singleton_self q)
    · refine (ih holder hq).imp_right fun h => ?_
      split
      · exact List.mem_append_left _ (List.mem_append_left _ h)
      · exact h

/-- Whether each of some integer parts comes after those, among all of them, that its operand
mentions; some are known before. -/
def Ordered (all : IntegerParts) : List Symbol → IntegerParts → Prop
  | _, [] => True
  | met, p :: rest =>
    (∀ q ∈ all, q.1 ∈ p.2.freeSymbols → q.1 ∈ met) ∧ Ordered all (p.1 :: met) rest

variable {first later : IntegerParts}

theorem ordered_append :
    Ordered all met (first ++ later) ↔
      Ordered all met first ∧ Ordered all ((first.map Prod.fst).reverse ++ met) later := by
  induction first generalizing met with
  | nil => simp [Ordered]
  | cons p rest ih => simp [Ordered, ih, and_assoc]

/-- In an order, what an operand mentions is known before or stands before it. -/
theorem Ordered.before (h : Ordered all met (first ++ p :: later))
    (hq : q ∈ all) (hfree : q.1 ∈ p.2.freeSymbols) : q.1 ∈ met ∨ q.1 ∈ first.map Prod.fst := by
  have hmem := (ordered_append.mp h).2.1 q hq hfree
  simpa [or_comm] using hmem

theorem Ordered.mem_before (h : Ordered all [] (first ++ p :: later)) (hacyclic : Acyclic all)
    (hq : q ∈ all) (hfree : q.1 ∈ p.2.freeSymbols) (hfirst : ∀ r ∈ first, r ∈ all) :
    q ∈ first := by
  obtain ⟨r, hr, hsame⟩ := List.mem_map.mp ((h.before hq hfree).resolve_left nofun)
  exact List.inj_on_of_nodup_map hacyclic.nodup_keys (hfirst r hr) hq hsame ▸ hr

theorem ordered_demanded (hacyclic : Acyclic all) (hsplit : newer ++ parts = all) :
    Ordered all met (demanded parts t met) := by
  induction parts generalizing t met newer with
  | nil => trivial
  | cons part older ih =>
    have hsplit' : (newer ++ [part]) ++ older = all := by simpa using hsplit
    rw [demanded]
    split
    · refine ordered_append.mpr ⟨ordered_append.mpr ⟨ih hsplit', ih hsplit'⟩, fun q hq hfree => ?_,
        trivial⟩
      subst hsplit
      have holder : q ∈ older := hacyclic.mem_older hq hfree
      have hkeys : (older.map Prod.fst).Nodup := by
        refine hacyclic.nodup_keys.sublist (List.Sublist.map _ ?_)
        exact (List.sublist_cons_self _ _).trans (List.sublist_append_right _ _)
      rcases mem_demanded_of_free hkeys holder hfree with hmet | hmem
      · simp only [List.map_append, List.reverse_append, List.append_assoc]
        exact List.mem_append_right _ hmet
      · simp only [List.map_append, List.reverse_append, List.append_assoc]
        exact List.mem_append_left _ (List.mem_reverse.mpr (List.mem_map_of_mem hmem))
    · exact ih hsplit'

/-- What occurs in a term is demanded, and nothing else. -/
theorem mem_demanded (hacyclic : Acyclic parts) :
    p ∈ demanded parts t [] ↔ Occurs parts [t] p := by
  refine ⟨occurs_of_mem_demanded, fun h => ?_⟩
  have hkeys := hacyclic.nodup_keys
  induction h with
  | direct hp ht hfree =>
    obtain rfl := List.mem_singleton.mp ht
    exact (mem_demanded_of_free hkeys hp hfree).resolve_left nofun
  | @nested p q hp hq hfree ih =>
    obtain ⟨first, later, hsplit⟩ := List.append_of_mem ih
    have hordered : Ordered parts [] (demanded parts t []) :=
      ordered_demanded hacyclic (List.nil_append parts)
    rw [hsplit] at hordered
    have hmem : p ∈ first := hordered.mem_before hacyclic hp hfree fun r hr =>
      (occurs_of_mem_demanded (hsplit ▸ List.mem_append_left _ hr)).mem
    exact hsplit ▸ List.mem_append_left _ hmem

/-- Something is demanded if something is mentioned. -/
theorem demanded_eq_nil_iff (hacyclic : Acyclic parts) :
    demanded parts t [] = [] ↔ parts.mentionedIn t = [] := by
  constructor
  · refine fun h => List.eq_nil_iff_forall_not_mem.mpr fun p hp => ?_
    obtain ⟨hp, hfree⟩ := mem_mentionedIn.mp hp
    have hmem := (mem_demanded hacyclic).mpr (.direct hp (List.mem_singleton_self t) hfree)
    rw [h] at hmem
    cases hmem
  · refine fun h => List.eq_nil_iff_forall_not_mem.mpr fun p hp => ?_
    have hoccurs := (mem_demanded hacyclic).mp hp
    clear hp
    -- whatever occurs in a term does so by way of an integer part that the term mentions
    induction hoccurs with
    | direct hp ht hfree =>
      obtain rfl := List.mem_singleton.mp ht
      have hmem := mem_mentionedIn.mpr ⟨hp, hfree⟩
      rw [h] at hmem
      cases hmem
    | nested _ _ _ ih => exact ih

/-- A term is resolved by asking for the floors that it demands, in order. -/
theorem run_resolve {σ μ : Type} [Solver σ μ] {s : Option μ × TermState}
    (hacyclic : Acyclic s.2.integerParts) (t : Term) :
    (resolve (σ := σ) t).run s =
      (if demanded s.2.integerParts t [] = [] then pure t
        else do substitute (← floors (σ := σ) (demanded s.2.integerParts t []) []) t :
          PartStep μ Term).run s := by
  unfold resolve
  rw [run_bind_ok (run_get s)]
  dsimp only
  rw [valuesIn_nil]
  simp only [List.isEmpty_iff, demanded_eq_nil_iff hacyclic]

/-! ### The recursion without a bound -/

theorem mentionedIn_append (parts parts' : IntegerParts) (t : Term) :
    mentionedIn (parts ++ parts') t = parts.mentionedIn t ++ parts'.mentionedIn t :=
  List.filter_append parts parts'

theorem mentionedIn_singleton (p : Symbol × Term) (t : Term) :
    mentionedIn [p] t = if t.symbols.contains p.1 then [p] else [] := by
  cases h : t.symbols.contains p.1 <;> simp only [mentionedIn, List.filter_cons, h] <;> rfl

/-- What an operand mentions is found among the older integer parts. -/
theorem mentionedIn_operand (hacyclic : Acyclic (newer ++ p :: older)) :
    mentionedIn (newer ++ p :: older) p.2 = older.mentionedIn p.2 := by
  have hnone : mentionedIn (newer ++ [p]) p.2 = [] := by
    refine List.eq_nil_iff_forall_not_mem.mpr fun q hq => ?_
    obtain ⟨hq, hfree⟩ := mem_mentionedIn.mp hq
    have hkeys := hacyclic.nodup_keys
    have hmem : q ∈ newer ++ p :: older := by
      rw [List.append_cons]
      exact List.mem_append_left _ hq
    rw [List.append_cons, List.map_append] at hkeys
    exact (List.nodup_append.mp hkeys).2.2 q.1 (List.mem_map_of_mem hq) q.1
      (List.mem_map_of_mem (hacyclic.mem_older hmem hfree)) rfl
  rw [List.append_cons, mentionedIn_append, hnone, List.nil_append]

section

variable {σ μ : Type} [Solver σ μ]

/-- The recursion as it is when the integer parts that a term mentions are looked for among all of
them, down to a depth; what is done beyond it is left open. -/
def valuesTo (σ : Type) {μ : Type} [Solver σ μ]
    (beyond : Term → Substitution → PartStep μ Substitution) (parts : IntegerParts) :
    Nat → Term → Substitution → PartStep μ Substitution
  | 0, t, known => beyond t known
  | depth + 1, t, known =>
    (parts.mentionedIn t).reverse.foldlM
      (fun known part => valueOf (σ := σ) (valuesTo σ beyond parts depth) part known) known

variable {beyond : Term → Substitution → PartStep μ Substitution}

/-- A loop over the integer parts that a term mentions ends with the newest one. -/
theorem foldlM_mentionedIn (step : Substitution → Symbol × Term → PartStep μ Substitution)
    (known : Substitution) :
    (mentionedIn (p :: older) t).reverse.foldlM step known = (do
      let known ← (older.mentionedIn t).reverse.foldlM step known
      if t.symbols.contains p.1 then step known p else return known) := by
  have hsplit : mentionedIn (p :: older) t = mentionedIn [p] t ++ older.mentionedIn t :=
    mentionedIn_append [p] older t
  rw [hsplit, List.reverse_append, List.foldlM_append, mentionedIn_singleton]
  congr 1
  funext known'
  cases t.symbols.contains p.1 with
  | true => simp
  | false => rfl

/-- With the oldest integer parts, the recursion stays within a depth that is their number. -/
theorem foldlM_valueOf (hacyclic : Acyclic all) (hsplit : newer ++ parts = all) {depth : Nat}
    (hdepth : parts.length ≤ depth) (t : Term) (known : Substitution) :
    (parts.mentionedIn t).reverse.foldlM
      (fun known part => valueOf (σ := σ) (valuesTo σ beyond all depth) part known) known =
        valuesIn (σ := σ) parts t known := by
  induction parts generalizing newer depth t known with
  | nil => rfl
  | cons part older ih =>
    have hsplit' : (newer ++ [part]) ++ older = all := by simpa using hsplit
    obtain ⟨depth, rfl⟩ : ∃ n, depth = n + 1 := Nat.exists_eq_add_one.mpr (by simp at hdepth; omega)
    have hshorter : older.length ≤ depth := by simpa using hdepth
    have hinner : valuesTo σ beyond all (depth + 1) part.2 = valuesIn (σ := σ) older part.2 := by
      funext known'
      subst hsplit
      rw [valuesTo, mentionedIn_operand hacyclic]
      exact ih hsplit' hshorter part.2 known'
    rw [foldlM_mentionedIn, ih hsplit' (Nat.le_succ_of_le hshorter), valuesIn]
    simp only [valueOf, hinner]

/-- The recursion never goes deeper than there are integer parts: what it would do beyond is of no
account. -/
theorem valuesTo_eq (hacyclic : Acyclic parts) {depth : Nat} (hdepth : parts.length < depth) :
    valuesTo σ beyond parts depth = valuesIn (σ := σ) parts := by
  obtain ⟨depth, rfl⟩ : ∃ n, depth = n + 1 := Nat.exists_eq_add_one.mpr (by omega)
  funext t known
  exact foldlM_valueOf hacyclic (List.nil_append parts) (by omega) t known

end

end IntegerParts

end SmtScript
