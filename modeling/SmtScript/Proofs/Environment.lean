import SmtScript.Environment

/-!
Look-ups, and what names stand for in an extended environment.
-/

namespace SmtScript

namespace Environment

variable {α : Type}

theorem lookup_append (as bs : List (String × α)) (name : String) :
    (as ++ bs).lookup name = (as.lookup name).or (bs.lookup name) := by
  induction as with
  | nil => rfl
  | cons p rest ih =>
    obtain ⟨key, x⟩ := p
    cases h : name == key <;> simp [List.lookup_cons, h, ih]

/-- The latest binding of an extension counts; names that it does not bind stand for what they
stood for before. -/
theorem find?_extend (env : Environment α) (bindings : List (String × α)) (name : String) :
    (env.extend bindings).find? name = (bindings.reverse.lookup name).or (env.find? name) := by
  unfold find? extend Scope.extend
  simp only [lookup_append]
  cases bindings.reverse.lookup name <;> rfl

/-- Among entries with distinct keys each one is found. -/
theorem lookup_of_mem {κ : Type} [BEq κ] [LawfulBEq κ] {entries : List (κ × α)} {key : κ} {x : α}
    (hnodup : (entries.map Prod.fst).Nodup) (h : (key, x) ∈ entries) :
    entries.lookup key = some x := by
  induction entries with
  | nil => cases h
  | cons entry rest ih =>
    obtain ⟨hnew, hnodup⟩ := List.nodup_cons.mp hnodup
    rcases List.mem_cons.mp h with rfl | h
    · simp
    · have hne : (key == entry.1) = false := by
        refine beq_eq_false_iff_ne.mpr ?_
        rintro rfl
        exact hnew (List.mem_map.mpr ⟨_, h, rfl⟩)
      rw [List.lookup_cons, hne]
      exact ih hnodup h

theorem mem_of_lookup {entries : List (String × α)} {name : String} {x : α}
    (h : entries.lookup name = some x) : (name, x) ∈ entries := by
  obtain ⟨before, after, hsplit, _⟩ := List.lookup_eq_some_iff.mp h
  rw [hsplit]
  simp

end Environment

end SmtScript
