import SmtScript.Levels

/-!
Levels from the top down and from the base up.

`Levels.rows` lists the levels the way scopes are opened and closed at: pushing puts empty rows in
front, popping takes rows from the front, and a new item goes to the first row. In `Levels.toList`
all this happens at the end, so that the lowest levels are its first entries.
-/

namespace SmtScript

namespace Levels

variable {α : Type}

/-- The items of each level, top level first, newest item first. -/
def rows (levels : Levels α) : List (List α) := levels.top :: levels.below

@[simp] theorem rows_empty : (empty : Levels α).rows = [[]] := rfl

@[simp] theorem rows_add (levels : Levels α) (item : α) :
    (levels.add item).rows = (item :: levels.top) :: levels.below := rfl

@[simp] theorem rows_push (levels : Levels α) : levels.push.rows = [] :: levels.rows := rfl

@[simp] theorem rows_pushMany (levels : Levels α) (n : Nat) :
    (levels.pushMany n).rows = List.replicate n [] ++ levels.rows := by
  induction n with
  | zero => rfl
  | succ n ih => rw [pushMany, rows_push, ih, List.replicate_succ, List.cons_append]

@[simp] theorem length_rows (levels : Levels α) : levels.rows.length = levels.depth := rfl

theorem rows_popMany {levels : Levels α} {n : Nat} (h : n < levels.depth) :
    (levels.popMany n).rows = levels.rows.drop n := by
  induction n generalizing levels with
  | zero => rfl
  | succ n ih =>
    obtain ⟨top, below⟩ := levels
    cases below with
    | nil => simp [depth] at h
    | cons next rest =>
      have hrest : n < (⟨next, rest⟩ : Levels α).depth := by
        simp only [depth, List.length_cons] at h ⊢
        omega
      simpa [popMany, pop?, rows] using ih hrest

theorem depth_popMany {levels : Levels α} {n : Nat} (h : n < levels.depth) :
    (levels.popMany n).depth = levels.depth - n := by
  rw [← length_rows, rows_popMany h, List.length_drop, length_rows]

theorem depth_pos (levels : Levels α) : 0 < levels.depth := Nat.succ_pos _

theorem mem_items {levels : Levels α} {item : α} :
    item ∈ levels.items ↔ ∃ row ∈ levels.rows, item ∈ row := by
  rw [items, toList, ← rows]
  simp only [List.mem_flatten, List.mem_map, List.mem_reverse]
  constructor
  · rintro ⟨_, ⟨row, hrow, rfl⟩, hitem⟩
    exact ⟨row, hrow, List.mem_reverse.mp hitem⟩
  · rintro ⟨row, hrow, hitem⟩
    exact ⟨_, ⟨row, hrow, rfl⟩, List.mem_reverse.mpr hitem⟩

/-- The items of a level counted from the top, or none if there is no such level. -/
def row (levels : Levels α) (i : Nat) : List α := levels.rows[i]?.getD []

@[simp] theorem row_empty (i : Nat) : (empty : Levels α).row i = [] := by
  cases i <;> rfl

@[simp] theorem row_add_zero (levels : Levels α) (item : α) :
    (levels.add item).row 0 = item :: levels.row 0 := rfl

@[simp] theorem row_add_succ (levels : Levels α) (item : α) (i : Nat) :
    (levels.add item).row (i + 1) = levels.row (i + 1) := rfl

theorem row_pushMany_of_lt (levels : Levels α) {n i : Nat} (h : i < n) :
    (levels.pushMany n).row i = [] := by
  simp [row, List.getElem?_append, h]

theorem row_pushMany_add (levels : Levels α) (n i : Nat) :
    (levels.pushMany n).row (n + i) = levels.row i := by
  rw [row, rows_pushMany, List.getElem?_append_right (by simp), List.length_replicate,
    Nat.add_sub_cancel_left, row]

theorem row_popMany {levels : Levels α} {n : Nat} (h : n < levels.depth) (i : Nat) :
    (levels.popMany n).row i = levels.row (n + i) := by
  rw [row, rows_popMany h, List.getElem?_drop, row]

theorem mem_items_of_mem_row {levels : Levels α} {i : Nat} {item : α}
    (h : item ∈ levels.row i) : item ∈ levels.items := by
  unfold row at h
  cases hrow : levels.rows[i]? with
  | none => simp [hrow] at h
  | some row => exact mem_items.mpr ⟨row, List.mem_of_getElem? hrow, by simpa [hrow] using h⟩

theorem exists_row_of_mem_items {levels : Levels α} {item : α} (h : item ∈ levels.items) :
    ∃ i, item ∈ levels.row i := by
  obtain ⟨row, hrow, hitem⟩ := mem_items.mp h
  obtain ⟨i, hi⟩ := List.mem_iff_getElem?.mp hrow
  exact ⟨i, by simpa [Levels.row, hi] using hitem⟩

theorem mem_row_add {levels : Levels α} {item new : α} {i : Nat} (h : item ∈ levels.row i) :
    item ∈ (levels.add new).row i := by
  cases i with
  | zero => exact List.mem_cons_of_mem _ h
  | succ i => exact h

theorem contains_iff [BEq α] [LawfulBEq α] {levels : Levels α} {item : α} :
    levels.contains item = true ↔ item ∈ levels.items := by
  simp [contains, mem_items, rows]

theorem mem_items_add {levels : Levels α} {item a : α} :
    a ∈ (levels.add item).items ↔ a ∈ levels.items ∨ a = item := by
  simp

@[simp] theorem items_pushMany (levels : Levels α) (n : Nat) :
    (levels.pushMany n).items = levels.items := by
  induction n with
  | zero => rfl
  | succ n ih => rw [pushMany, items_push, ih]

/-- Popping takes items away only. -/
theorem items_popMany_sublist (levels : Levels α) (n : Nat) :
    (levels.popMany n).items.Sublist levels.items := by
  induction n generalizing levels with
  | zero => exact List.Sublist.refl _
  | succ n ih =>
    obtain ⟨top, below⟩ := levels
    cases below with
    | nil => exact List.Sublist.refl _
    | cons next rest =>
      have hitems : (⟨top, next :: rest⟩ : Levels α).items =
          (⟨next, rest⟩ : Levels α).items ++ top.reverse := by
        simp [items, toList]
      rw [hitems]
      exact (ih ⟨next, rest⟩).trans (List.sublist_append_left _ _)

/-! ### The lowest levels -/

theorem toList_eq (levels : Levels α) : levels.toList = levels.rows.reverse.map List.reverse := rfl

@[simp] theorem length_toList (levels : Levels α) : levels.toList.length = levels.depth := by
  rw [toList_eq, List.length_map, List.length_reverse, length_rows]

theorem eq_of_toList_eq {levels levels' : Levels α} (h : levels.toList = levels'.toList) :
    levels = levels' := by
  obtain ⟨top, below⟩ := levels
  obtain ⟨top', below'⟩ := levels'
  have hreverse := (List.map_inj_right fun _ _ => List.reverse_inj.mp).mp h
  obtain ⟨rfl, rfl⟩ := List.cons.inj (List.reverse_inj.mp hreverse)
  rfl

/-- Popping leaves the lowest levels. -/
theorem toList_popMany {levels : Levels α} {n : Nat} (h : n < levels.depth) :
    (levels.popMany n).toList = levels.toList.take (levels.depth - n) := by
  rw [toList_eq, rows_popMany h, List.reverse_drop, List.map_take, length_rows, ← toList_eq]

theorem toList_pushMany (levels : Levels α) (n : Nat) :
    (levels.pushMany n).toList = levels.toList ++ List.replicate n [] := by
  simp [toList_eq]

/-- A new item goes to none of the levels below the top. -/
theorem take_toList_add {levels : Levels α} {n : Nat} (h : n < levels.depth) (item : α) :
    (levels.add item).toList.take n = levels.toList.take n := by
  have hlength : n ≤ levels.toList.dropLast.length := by
    rw [List.length_dropLast, length_toList]
    omega
  rw [toList_add, List.take_append_of_le_length hlength, List.dropLast_eq_take, List.take_take,
    length_toList, Nat.min_eq_left (by omega)]

theorem take_toList_pushMany {levels : Levels α} {n : Nat} (h : n ≤ levels.depth) (m : Nat) :
    (levels.pushMany m).toList.take n = levels.toList.take n := by
  rw [toList_pushMany, List.take_append_of_le_length (by rwa [length_toList])]

theorem take_toList_popMany {levels : Levels α} {n m : Nat} (hm : m < levels.depth)
    (h : n ≤ (levels.popMany m).depth) :
    (levels.popMany m).toList.take n = levels.toList.take n := by
  rw [depth_popMany hm] at h
  rw [toList_popMany hm, List.take_take, Nat.min_eq_left h]

/-- Levels are restored by popping if they are the lowest ones that are left. -/
theorem popMany_eq {levels levels' : Levels α} {n : Nat}
    (hdepth : levels.depth = levels'.depth + n)
    (hlowest : levels.toList.take levels'.depth = levels'.toList) : levels.popMany n = levels' := by
  have hpos := levels'.depth_pos
  apply eq_of_toList_eq
  rw [toList_popMany (by omega), hdepth, Nat.add_sub_cancel, hlowest]

theorem toList_pushMany_take (levels : Levels α) (n : Nat) :
    (levels.pushMany n).toList.take levels.depth = levels.toList := by
  rw [take_toList_pushMany (Nat.le_refl _), ← length_toList, List.take_length]

theorem pushMany_add (levels : Levels α) (m n : Nat) :
    levels.pushMany (m + n) = (levels.pushMany m).pushMany n := by
  induction n with
  | zero => rfl
  | succ n ih => rw [← Nat.add_assoc, pushMany, pushMany, ih]

theorem popMany_add {levels : Levels α} {m n : Nat} (h : m + n < levels.depth) :
    levels.popMany (m + n) = (levels.popMany m).popMany n := by
  have hm : m < levels.depth := by omega
  have hn : n < (levels.popMany m).depth := by
    rw [depth_popMany hm]
    omega
  apply eq_of_toList_eq
  rw [toList_popMany h, toList_popMany hn, depth_popMany hm, toList_popMany hm, List.take_take,
    Nat.min_eq_left (by omega), Nat.sub_sub]

end Levels

end SmtScript
