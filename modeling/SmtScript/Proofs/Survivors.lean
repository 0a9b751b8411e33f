import SmtScript.Proofs.Levels

/-!
What is left of the items that have been added to levels.

A log says what has been done to levels, the oldest mark first. From it one can tell without any
levels how many of them stay open, `Mark.lasting`, and so which items are left: those whose level
has stayed open since they were added, `Mark.survivors`. Levels hold just these, in the order of the
log, `Levels.Records.items_eq`.
-/

namespace SmtScript

/-- Something that is done to levels. -/
inductive Mark (α : Type) where
  | added (item : α)
  | opened (levels : Nat)
  | closed (levels : Nat)
  /-- Everything is taken away, and there is a new base level. -/
  | cleared
  deriving Repr, DecidableEq

namespace Mark

variable {α : Type}

/-- How many levels there are in the end, if there are `depth` at first. -/
def depthAfter (depth : Nat) : List (Mark α) → Nat
  | [] => depth
  | .added _ :: later => depthAfter depth later
  | .opened n :: later => depthAfter (depth + n) later
  | .closed n :: later => depthAfter (depth - n) later
  | .cleared :: later => depthAfter 1 later

/-- How many of the `depth` levels that there are at first stay open. -/
def lasting (depth : Nat) : List (Mark α) → Nat
  | [] => depth
  | .added _ :: later => lasting depth later
  | .opened n :: later => min depth (lasting (depth + n) later)
  | .closed n :: later => lasting (depth - n) later
  | .cleared :: _ => 0

/-- The items that are added, if there are `depth` levels at first, and whose level stays open. -/
def survivors (depth : Nat) : List (Mark α) → List α
  | [] => []
  | .added item :: later =>
    if depth ≤ lasting depth later then item :: survivors depth later else survivors depth later
  | .opened n :: later => survivors (depth + n) later
  | .closed n :: later => survivors (depth - n) later
  | .cleared :: later => survivors 1 later

/-- The items that are added while there are just `level` levels, if there are `depth` at first. -/
def addedAt (level depth : Nat) : List (Mark α) → List α
  | [] => []
  | .added item :: later =>
    if depth = level then item :: addedAt level depth later else addedAt level depth later
  | .opened n :: later => addedAt level (depth + n) later
  | .closed n :: later => addedAt level (depth - n) later
  | .cleared :: later => addedAt level 1 later

theorem lasting_le (depth : Nat) (marks : List (Mark α)) : lasting depth marks ≤ depth := by
  induction marks generalizing depth with
  | nil => exact Nat.le_refl depth
  | cons mark later ih =>
    cases mark with
    | added item => exact ih depth
    | opened n => exact Nat.min_le_left _ _
    | closed n => exact Nat.le_trans (ih (depth - n)) (Nat.sub_le depth n)
    | cleared => exact Nat.zero_le depth

theorem lasting_le_depthAfter (depth : Nat) (marks : List (Mark α)) :
    lasting depth marks ≤ depthAfter depth marks := by
  induction marks generalizing depth with
  | nil => exact Nat.le_refl depth
  | cons mark later ih =>
    cases mark with
    | added item => exact ih depth
    | opened n => exact Nat.le_trans (Nat.min_le_right _ _) (ih (depth + n))
    | closed n => exact ih (depth - n)
    | cleared => exact Nat.zero_le _

/-- A level stays open if it does so through both parts of a log. -/
theorem lasting_append (depth : Nat) (marks later : List (Mark α)) :
    lasting depth (marks ++ later) =
      min (lasting depth marks) (lasting (depthAfter depth marks) later) := by
  induction marks generalizing depth with
  | nil => exact (Nat.min_eq_right (lasting_le depth later)).symm
  | cons mark marks ih =>
    cases mark with
    | added item => exact ih depth
    | opened n => simp only [List.cons_append, lasting, depthAfter, ih, Nat.min_assoc]
    | closed n => exact ih (depth - n)
    | cleared => exact (Nat.zero_min _).symm

/-- If a level stays open and is the top one in the end, then what is left was added to it. -/
theorem survivors_eq_addedAt {level depth : Nat} {marks : List (Mark α)}
    (hlasting : level ≤ lasting depth marks) (hend : depthAfter depth marks = level) :
    survivors depth marks = addedAt level depth marks := by
  induction marks generalizing depth with
  | nil => rfl
  | cons mark later ih =>
    cases mark with
    | added item =>
      have hrest := ih hlasting hend
      have hle := lasting_le depth later
      have hend' := lasting_le_depthAfter depth later
      have hiff : depth ≤ lasting depth later ↔ depth = level := by
        simp only [lasting, depthAfter] at hlasting hend
        omega
      simp only [survivors, addedAt, hiff, hrest]
    | opened n => exact ih (Nat.le_trans hlasting (Nat.min_le_right _ _)) hend
    | closed n => exact ih hlasting hend
    | cleared =>
      obtain rfl : level = 0 := Nat.le_zero.mp hlasting
      exact ih (Nat.zero_le _) hend

end Mark

namespace Levels

open Mark

variable {α : Type} {levels levels' : Levels α} {marks : List (Mark α)}

/-- Whether levels become others when what a log says is done to them. -/
inductive Records : Levels α → List (Mark α) → Levels α → Prop
  | nil (levels : Levels α) : Records levels [] levels
  | added {levels levels' : Levels α} {later : List (Mark α)} (item : α)
      (h : Records (levels.add item) later levels') : Records levels (.added item :: later) levels'
  | opened {levels levels' : Levels α} {later : List (Mark α)} (n : Nat)
      (h : Records (levels.pushMany n) later levels') : Records levels (.opened n :: later) levels'
  | closed {levels levels' : Levels α} {later : List (Mark α)} {n : Nat} (hn : n < levels.depth)
      (h : Records (levels.popMany n) later levels') : Records levels (.closed n :: later) levels'
  | cleared {levels levels' : Levels α} {later : List (Mark α)}
      (h : Records .empty later levels') : Records levels (.cleared :: later) levels'

theorem Records.append {levels'' : Levels α} {later : List (Mark α)}
    (h : Records levels marks levels') (hlater : Records levels' later levels'') :
    Records levels (marks ++ later) levels'' := by
  induction h with
  | nil => exact hlater
  | added item _ ih => exact .added item (ih hlater)
  | opened n _ ih => exact .opened n (ih hlater)
  | closed hn _ ih => exact .closed hn (ih hlater)
  | cleared _ ih => exact .cleared (ih hlater)

theorem Records.depth_eq (h : Records levels marks levels') :
    levels'.depth = depthAfter levels.depth marks := by
  induction h with
  | nil => rfl
  | added item _ ih => exact ih
  | opened n _ ih => rw [ih, depth_pushMany, depthAfter]
  | closed hn _ ih => rw [ih, depth_popMany hn, depthAfter]
  | cleared _ ih => exact ih

/-- What is in the lowest levels, whether they are there already or not. -/
theorem flatten_take_pushMany (levels : Levels α) (n k : Nat) :
    ((levels.pushMany n).toList.take k).flatten =
      (levels.toList.take (min levels.depth k)).flatten := by
  rcases Nat.le_total k levels.depth with hk | hk
  · rw [take_toList_pushMany hk, Nat.min_eq_right hk]
  · rw [toList_pushMany, List.take_append, length_toList, List.take_replicate, List.flatten_append,
      List.flatten_replicate_nil, List.append_nil, Nat.min_eq_left hk,
      List.take_of_length_le (by rwa [length_toList]), ← length_toList, List.take_length]

theorem flatten_take_empty (k : Nat) : ((empty : Levels α).toList.take k).flatten = [] := by
  cases k <;> simp [toList, empty]

/-- Levels hold what is left of the items of the levels that have stayed open, and after that the
items that have been added and are left. -/
theorem Records.items_eq (h : Records levels marks levels') :
    levels'.items = (levels.toList.take (lasting levels.depth marks)).flatten ++
      survivors levels.depth marks := by
  induction h with
  | nil levels => simp only [lasting, survivors, ← length_toList, List.take_length, items,
      List.append_nil]
  | @added levels levels' later item _ ih =>
    rw [ih, depth_add]
    simp only [lasting, survivors]
    by_cases hlasting : levels.depth ≤ lasting levels.depth later
    · have hall : lasting levels.depth later = levels.depth :=
        Nat.le_antisymm (lasting_le _ _) hlasting
      have htake : (levels.add item).toList.take levels.depth = (levels.add item).toList := by
        rw [← depth_add levels item, ← length_toList, List.take_length]
      rw [if_pos hlasting, hall, htake, ← length_toList, List.take_length]
      change (levels.add item).items ++ _ = levels.items ++ _
      rw [items_add, List.append_assoc, List.singleton_append]
    · rw [if_neg hlasting, take_toList_add (Nat.lt_of_not_le hlasting)]
  | opened n _ ih => rw [ih, depth_pushMany, flatten_take_pushMany, lasting, survivors]
  | @closed levels levels' later n hn _ ih =>
    have hle : lasting (levels.depth - n) later ≤ (levels.popMany n).depth := by
      rw [depth_popMany hn]
      exact lasting_le _ _
    rw [ih, depth_popMany hn, take_toList_popMany hn hle, lasting, survivors]
  | @cleared levels levels' later _ ih =>
    rw [ih, flatten_take_empty, lasting, survivors]
    rfl

/-- Levels that began empty hold the items that are left. -/
theorem Records.items_of_empty (h : Records .empty marks levels) :
    levels.items = survivors 1 marks := by
  rw [h.items_eq, flatten_take_empty, List.nil_append]
  rfl

/-! ### One level at a time -/

/-- What has been done to levels since they were empty. Popping leaves a mark if there is something
to pop. -/
inductive History : List (Mark α) → Levels α → Prop
  | start : History [] .empty
  | added {log : List (Mark α)} {levels : Levels α} (h : History log levels) (item : α) :
      History (log ++ [.added item]) (levels.add item)
  | pushed {log : List (Mark α)} {levels : Levels α} (h : History log levels) :
      History (log ++ [.opened 1]) levels.push
  | popped {log : List (Mark α)} {levels rest : Levels α} {items : List α}
      (h : History log levels) (hpop : levels.pop = .ok (items, rest)) :
      History (log ++ [.closed 1]) rest
  | refused {log : List (Mark α)} {levels : Levels α} {e : Error} (h : History log levels)
      (hpop : levels.pop = .error e) : History log levels
  | reset {log : List (Mark α)} {levels : Levels α} (h : History log levels) :
      History (log ++ [.cleared]) .empty

variable {log : List (Mark α)} {rest : Levels α} {items : List α}

theorem pop_of_depth_eq (h : levels.depth = 1) : levels.pop = .error .popBaseLevel := by
  obtain ⟨top, below⟩ := levels
  cases below with
  | nil => rfl
  | cons next below => simp [depth] at h

theorem exists_pop (h : 1 < levels.depth) :
    ∃ items, levels.pop = .ok (items, levels.popMany 1) := by
  obtain ⟨top, below⟩ := levels
  cases below with
  | nil => simp [depth] at h
  | cons next below => exact ⟨top.reverse, rfl⟩

/-- Popping takes away the items of one level. -/
theorem pop_eq_ok (h : levels.pop = .ok (items, rest)) :
    1 < levels.depth ∧ rest = levels.popMany 1 ∧ levels.items = rest.items ++ items := by
  obtain ⟨top, below⟩ := levels
  cases below with
  | nil => cases h
  | cons next below =>
    obtain ⟨rfl, rfl⟩ := Prod.mk.inj (Except.ok.inj h)
    refine ⟨?_, rfl, ?_⟩
    · simp [depth]
    · simp [Levels.items, toList]

theorem History.records (h : History log levels) : Records .empty log levels := by
  induction h with
  | start => exact .nil _
  | added _ item ih => exact ih.append (.added item (.nil _))
  | pushed _ ih => exact ih.append (.opened 1 (.nil _))
  | popped _ hpop ih =>
    obtain ⟨hdepth, rfl, _⟩ := pop_eq_ok hpop
    exact ih.append (.closed hdepth (.nil _))
  | refused _ _ ih => exact ih
  | reset _ ih => exact ih.append (.cleared (.nil _))

/-- Whether a level has been opened on others and has stayed open since. -/
def OpenedOn (base : Levels α) (log : List (Mark α)) (levels : Levels α) : Prop :=
  ∃ before within, log = before ++ .opened 1 :: within ∧ History before base ∧
    Records base.push within levels ∧ base.depth < lasting (base.depth + 1) within

theorem OpenedOn.extend {base : Levels α} {mark : Mark α} (h : OpenedOn base log levels)
    (hmark : Records levels [mark] levels') (hdepth : base.depth < lasting levels.depth [mark]) :
    OpenedOn base (log ++ [mark]) levels' := by
  obtain ⟨before, within, rfl, hbefore, hwithin, hlasting⟩ := h
  refine ⟨before, within ++ [mark], by simp, hbefore, hwithin.append hmark, ?_⟩
  have hend := hwithin.depth_eq
  rw [depth_push] at hend
  rw [lasting_append, ← hend]
  exact Nat.lt_min.mpr ⟨hlasting, hdepth⟩

theorem popMany_succ_add (levels : Levels α) (item : α) {k : Nat} (h : k + 1 < levels.depth) :
    (levels.add item).popMany (k + 1) = levels.popMany (k + 1) := by
  obtain ⟨top, below⟩ := levels
  cases below with
  | nil => simp [depth] at h
  | cons next below => rfl

/-- Every level but the base has been opened on those below it. -/
theorem History.openedOn (h : History log levels) {k : Nat} (hk : k + 1 < levels.depth) :
    OpenedOn (levels.popMany (k + 1)) log levels := by
  induction h generalizing k with
  | start => simp at hk
  | @added log levels h item ih =>
    rw [depth_add] at hk
    rw [popMany_succ_add levels item hk]
    apply (ih hk).extend (.added item (.nil _))
    rw [depth_popMany hk, lasting, lasting]
    omega
  | @pushed log levels h ih =>
    cases k with
    | zero => exact ⟨log, [], rfl, h, .nil _, Nat.lt_succ_self _⟩
    | succ k =>
      have hk' : k + 1 < levels.depth := by
        rw [depth_push] at hk
        omega
      apply (ih hk').extend (.opened 1 (.nil _))
      rw [depth_popMany hk', lasting, lasting]
      omega
  | @popped log levels rest items h hpop ih =>
    obtain ⟨hdepth, rfl, _⟩ := pop_eq_ok hpop
    rw [depth_popMany hdepth] at hk
    have hk' : k + 1 + 1 < levels.depth := by omega
    have hsum : 1 + (k + 1) < levels.depth := by omega
    rw [← popMany_add hsum, Nat.add_comm]
    apply (ih hk').extend (.closed hdepth (.nil _))
    rw [depth_popMany hk', lasting, lasting]
    omega
  | refused _ _ ih => exact ih hk
  | reset _ _ => simp at hk

/-- What is popped are the items that were added at the top level since it was opened, and what
remains are the levels on which it was opened. -/
theorem History.pop_eq (h : History log levels) (hpop : levels.pop = .ok (items, rest)) :
    ∃ before within, log = before ++ .opened 1 :: within ∧ History before rest ∧
      rest.depth < lasting (rest.depth + 1) within ∧
      items = addedAt (rest.depth + 1) (rest.depth + 1) within := by
  obtain ⟨hdepth, rfl, hitems⟩ := pop_eq_ok hpop
  obtain ⟨before, within, hlog, hbefore, hwithin, hlasting⟩ := h.openedOn hdepth
  refine ⟨before, within, hlog, hbefore, hlasting, ?_⟩
  have hend : depthAfter ((levels.popMany 1).depth + 1) within = (levels.popMany 1).depth + 1 := by
    rw [← depth_push, ← hwithin.depth_eq, depth_push, depth_popMany hdepth]
    omega
  have hall : lasting ((levels.popMany 1).depth + 1) within = (levels.popMany 1).depth + 1 :=
    Nat.le_antisymm (lasting_le _ _) hlasting
  rw [← survivors_eq_addedAt (Nat.le_of_eq hall.symm) hend]
  have hparts := hwithin.items_eq
  rw [depth_push, hall, ← depth_push, ← length_toList, List.take_length] at hparts
  change levels.items = (levels.popMany 1).push.items ++ _ at hparts
  rw [items_push, hitems, length_toList, depth_push] at hparts
  exact List.append_cancel_left hparts

end Levels

end SmtScript
