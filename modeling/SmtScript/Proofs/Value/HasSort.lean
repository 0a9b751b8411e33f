import SmtScript.Term.Value

/-!
Values of a sort.

`Value.HasSort` looks at all parts of a value: an array of a sort has keys of its index sort and
elements of its element sort. The operations on values keep to the sorts of terms.
-/

namespace SmtScript

namespace Value

/-- Whether a value is one of a sort. Function sorts have no values of their own, so nothing is
asked of what stands for a bare function. -/
@[simp] def HasSort : Value → SmtSort → Prop
  | _, .arrow _ _ => True
  | .bool _, .bool => True
  | .int _, .int => True
  | .real _, .real => True
  | .bitVec width _, .bitVec width' => width = width'
  | .element sort _, .user name => sort = name
  | .constArray index v, .array index' elements => index = index' ∧ v.HasSort elements
  | .update a k v, .array index elements =>
    a.HasSort (.array index elements) ∧ k.HasSort index ∧ v.HasSort elements
  | _, _ => False

variable {v w : Value} {index elements : SmtSort} {width : Nat}

theorem hasSort_bool : v.HasSort .bool ↔ ∃ b, v = .bool b := by
  cases v <;> simp

theorem hasSort_int : v.HasSort .int ↔ ∃ n, v = .int n := by
  cases v <;> simp

theorem hasSort_real : v.HasSort .real ↔ ∃ q, v = .real q := by
  cases v <;> simp

theorem hasSort_bitVec : v.HasSort (.bitVec width) ↔ ∃ b : BitVec width, v = .bitVec width b := by
  cases v with
  | bitVec w b =>
    constructor
    · intro h
      obtain rfl : w = width := h
      exact ⟨b, rfl⟩
    · rintro ⟨b', h⟩
      cases h
      rfl
  | _ => simp

theorem hasSort_default (sort : SmtSort) : (default sort).HasSort sort := by
  induction sort with
  | array index elements _ ih => exact ⟨rfl, ih⟩
  | _ => simp [default]

/-! ### Arrays -/

theorem hasSort_select (i : Value) (h : v.HasSort (.array index elements)) :
    (v.select i).HasSort elements := by
  induction v with
  | constArray j d => exact h.2
  | update a k d ih =>
    rw [select]
    split
    · exact h.2.2
    · exact ih h.1
  | _ => simp at h

theorem hasSort_withoutUpdates (h : v.HasSort (.array index elements)) :
    v.withoutUpdates.HasSort (.array index elements) := by
  induction v with
  | update a k d ih => exact ih h.1
  | _ => exact h

/-- Whether updates are of the sorts of an array. -/
def UpdatesHaveSort (index elements : SmtSort) (updates : List (Value × Value)) : Prop :=
  ∀ update ∈ updates, update.1.HasSort index ∧ update.2.HasSort elements

theorem updatesHaveSort_updates (h : v.HasSort (.array index elements)) :
    UpdatesHaveSort index elements v.updates := by
  induction v with
  | update a k d ih =>
    intro update hu
    rcases List.mem_cons.mp hu with rfl | hu
    · exact h.2
    · exact ih h.1 update hu
  | _ => simp [UpdatesHaveSort, updates]

theorem hasSort_build {base : Value} (hb : base.HasSort (.array index elements))
    (updates : List (Value × Value)) (hu : UpdatesHaveSort index elements updates) :
    (updates.foldr (fun (k, v) built => Value.update built k v) base).HasSort
      (.array index elements) := by
  induction updates with
  | nil => exact hb
  | cons update rest ih =>
    have hhead := hu update List.mem_cons_self
    have hrest := ih fun u h => hu u (List.mem_cons_of_mem _ h)
    exact ⟨hrest, hhead.1, hhead.2⟩

theorem withoutKey_subset (d key : Value) (updates : List (Value × Value)) :
    withoutKey d key updates ⊆ updates := by
  intro update hu
  unfold withoutKey at hu
  split at hu
  · rename_i k x hf
    split at hu
    · simp at hu
    · exact (List.mem_filter.mp (hf ▸ hu)).1
  · exact (List.mem_filter.mp hu).1

theorem hasSort_store {i x : Value} (h : v.HasSort (.array index elements))
    (hi : i.HasSort index) (hx : x.HasSort elements) :
    (v.store i x).HasSort (.array index elements) := by
  have hbase := hasSort_withoutUpdates h
  have hall := updatesHaveSort_updates h
  have hbuild := fun updates => hasSort_build hbase updates
  have hput : ∀ updates : List (Value × Value), UpdatesHaveSort index elements updates →
      UpdatesHaveSort index elements ((i, x) :: updates) := by
    intro updates hu update hm
    rcases List.mem_cons.mp hm with rfl | hm
    · exact ⟨hi, hx⟩
    · exact hu update hm
  have hnil : UpdatesHaveSort index elements [] := by simp [UpdatesHaveSort]
  unfold store
  simp only
  split
  · split
    · exact hbuild _ hnil
    · exact hbuild _ (hput _ hnil)
  · rename_i newest y older hold
    rw [hold] at hall
    have hrest : UpdatesHaveSort index elements older :=
      fun u hu => hall u (List.mem_cons_of_mem _ hu)
    split
    · exact hbuild _ (hput _ hrest)
    · split
      · have hkept : UpdatesHaveSort index elements
            (withoutKey v.arrayDefault i ((newest, y) :: older)) :=
          fun u hu => hall u (withoutKey_subset _ _ _ hu)
        split
        · exact hbuild _ hnil
        · exact hbuild _ (hput _ hkept)
      · exact hbuild _ (hput _ hall)

/-! ### Numbers and bit-vectors -/

theorem hasSort_arith (op : ArithOp) {sort : SmtSort} (hs : sort = .int ∨ sort = .real)
    (hv : v.HasSort sort) (hw : w.HasSort sort) : (arith op v w).HasSort sort := by
  rcases hs with rfl | rfl
  · obtain ⟨a, rfl⟩ := hasSort_int.mp hv
    obtain ⟨b, rfl⟩ := hasSort_int.mp hw
    trivial
  · obtain ⟨a, rfl⟩ := hasSort_real.mp hv
    obtain ⟨b, rfl⟩ := hasSort_real.mp hw
    trivial

theorem hasSort_toReal (hv : v.HasSort .int) : v.toReal.HasSort .real := by
  obtain ⟨n, rfl⟩ := hasSort_int.mp hv
  trivial

theorem hasSort_bitUnary (op : BitUnary) (hv : v.HasSort (.bitVec width)) :
    (bitUnary op v).HasSort (.bitVec width) := by
  obtain ⟨a, rfl⟩ := hasSort_bitVec.mp hv
  rfl

theorem hasSort_bitOp (op : BitOp) (hv : v.HasSort (.bitVec width))
    (hw : w.HasSort (.bitVec width)) : (bitOp op v w).HasSort (.bitVec width) := by
  obtain ⟨a, rfl⟩ := hasSort_bitVec.mp hv
  obtain ⟨b, rfl⟩ := hasSort_bitVec.mp hw
  rfl

theorem hasSort_concat {width' : Nat} (hv : v.HasSort (.bitVec width))
    (hw : w.HasSort (.bitVec width')) : (v.concat w).HasSort (.bitVec (width + width')) := by
  obtain ⟨a, rfl⟩ := hasSort_bitVec.mp hv
  obtain ⟨b, rfl⟩ := hasSort_bitVec.mp hw
  rfl

theorem hasSort_extract (high low : Nat) (hv : v.HasSort (.bitVec width)) :
    (v.extract high low).HasSort (.bitVec (high + 1 - low)) := by
  obtain ⟨a, rfl⟩ := hasSort_bitVec.mp hv
  rfl

theorem hasSort_rotate (side : Side) (step : Nat) (hv : v.HasSort (.bitVec width)) :
    (v.rotate side step).HasSort (.bitVec width) := by
  obtain ⟨a, rfl⟩ := hasSort_bitVec.mp hv
  rfl

theorem hasSort_widen (bits : Widening) (extra : Nat) (hv : v.HasSort (.bitVec width)) :
    (v.widen bits extra).HasSort (.bitVec (width + extra)) := by
  obtain ⟨a, rfl⟩ := hasSort_bitVec.mp hv
  rfl

end Value

end SmtScript
