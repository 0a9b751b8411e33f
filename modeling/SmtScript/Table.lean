/-!
Tables that remember the order in which their keys came.

A key that is bound again keeps its place and takes the new value.
-/

namespace SmtScript

/-- A finite map from texts, listed in the order in which the keys were first bound. -/
structure Table (α : Type) where
  entries : List (String × α)
  deriving Repr

namespace Table

variable {α : Type}

def empty : Table α := ⟨[]⟩

instance : Inhabited (Table α) := ⟨empty⟩

def get? (t : Table α) (key : String) : Option α :=
  t.entries.lookup key

def contains (t : Table α) (key : String) : Bool :=
  (t.get? key).isSome

def keys (t : Table α) : List String :=
  t.entries.map Prod.fst

/-- Binds a key in a list of entries: in its place, or at the end if it is new. -/
def insertEntry (key : String) (value : α) : List (String × α) → List (String × α)
  | [] => [(key, value)]
  | (k, v) :: rest =>
    if k = key then (key, value) :: rest else (k, v) :: insertEntry key value rest

/-- Binds a key, whether it is bound already or not. -/
def insert (t : Table α) (key : String) (value : α) : Table α :=
  ⟨insertEntry key value t.entries⟩

theorem lookup_cons_eq (k key : String) (value : α) (entries : List (String × α)) :
    ((key, value) :: entries).lookup k = if k = key then some value else entries.lookup k := by
  by_cases h : k = key
  · simp [h]
  · have hb : (k == key) = false := by simpa using h
    simp [List.lookup_cons, h, hb]

theorem lookup_insertEntry (key k : String) (value : α) (entries : List (String × α)) :
    (insertEntry key value entries).lookup k =
      if k = key then some value else entries.lookup k := by
  induction entries with
  | nil => simp [insertEntry, lookup_cons_eq]
  | cons entry rest ih =>
    obtain ⟨k', v⟩ := entry
    by_cases hk : k' = key
    · subst hk
      by_cases h : k = k' <;> simp [insertEntry, lookup_cons_eq, h]
    · by_cases h : k = k'
      · subst h
        simp [insertEntry, hk]
      · simp [insertEntry, lookup_cons_eq, hk, h, ih]

/-- A look-up after a binding finds the new value at its key and the old ones elsewhere. -/
@[simp] theorem get?_insert (t : Table α) (key k : String) (value : α) :
    (t.insert key value).get? k = if k = key then some value else t.get? k :=
  lookup_insertEntry key k value t.entries

theorem insertEntry_eq_self {key : String} {value : α} {entries : List (String × α)}
    (h : entries.lookup key = some value) : insertEntry key value entries = entries := by
  induction entries with
  | nil => cases h
  | cons entry rest ih =>
    obtain ⟨k, v⟩ := entry
    rw [lookup_cons_eq] at h
    by_cases hk : key = k
    · obtain rfl := Option.some.inj ((if_pos hk).symm.trans h)
      simp [insertEntry, hk]
    · simp [insertEntry, Ne.symm hk, ih ((if_neg hk).symm.trans h)]

/-- A binding changes a table unless the table has it already. -/
theorem insert_eq_self_iff (t : Table α) (key : String) (value : α) :
    t.insert key value = t ↔ t.get? key = some value := by
  refine ⟨fun h => ?_, fun h => congrArg mk (insertEntry_eq_self h)⟩
  rw [← h, get?_insert, if_pos rfl]

/-- Binding a key adds it at the end of the keys unless it is there already. -/
theorem keys_insert (t : Table α) (key : String) (value : α) :
    (t.insert key value).keys = if key ∈ t.keys then t.keys else t.keys ++ [key] := by
  obtain ⟨entries⟩ := t
  show (insertEntry key value entries).map Prod.fst =
    if key ∈ entries.map Prod.fst then entries.map Prod.fst
    else entries.map Prod.fst ++ [key]
  induction entries with
  | nil => simp [insertEntry]
  | cons entry rest ih =>
    obtain ⟨k, v⟩ := entry
    by_cases hk : k = key
    · simp [insertEntry, hk]
    · by_cases h : key ∈ rest.map Prod.fst
      · simp [insertEntry, hk, ih, h]
      · simp [insertEntry, hk, ih, h, Ne.symm hk]

end Table

end SmtScript
