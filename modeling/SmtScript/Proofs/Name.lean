import SmtScript.Term.Display
import SmtScript.Term.Printer

/-!
Printed names.

Names that differ are printed differently, whether they are put between marks or not:
`printedName_injective`.
-/

namespace SmtScript

variable {mark : Char}

/-- What is put between marks can be told from what is put there. -/
theorem protect_injective (mark : Char) : Function.Injective (protect mark) := by
  intro xs
  induction xs with
  | nil =>
    rintro (_ | ⟨c, rest⟩) h
    · rfl
    · rw [protect, protect] at h
      split at h <;> cases h
  | cons c rest ih =>
    rintro (_ | ⟨c', rest'⟩) h
    · rw [protect, protect] at h
      split at h <;> cases h
    rw [protect, protect] at h
    -- a backslash begins a protected character and never stands for itself
    split at h
    · split at h
      · obtain ⟨rfl, hrest⟩ : c = c' ∧ protect mark rest = protect mark rest' := by simpa using h
        rw [ih hrest]
      · rename_i hplain
        exact absurd (by simp [(List.cons.inj h).1.symm]) hplain
    · rename_i hplain
      split at h
      · exact absurd (by simp [(List.cons.inj h).1]) hplain
      · obtain ⟨rfl, hrest⟩ := List.cons.inj h
        rw [ih hrest]

/-- A plain name does not begin with a mark that can start no name. -/
theorem head_ne_of_isPlainName {name : String} (h : isPlainName name = true)
    (hmark : startsName mark = false) (rest : List Char) : name.toList ≠ mark :: rest := by
  intro heq
  unfold isPlainName at h
  rw [heq] at h
  simp [hmark] at h

theorem printedName_injective (hmark : startsName mark = false) :
    Function.Injective (printedName mark) := by
  intro a b h
  unfold printedName at h
  split at h <;> split at h
  · exact h
  · rename_i ha _
    exact absurd (by rw [h, String.toList_ofList]; rfl) (head_ne_of_isPlainName ha hmark _)
  · rename_i hb
    exact absurd (by rw [← h, String.toList_ofList]; rfl) (head_ne_of_isPlainName hb hmark _)
  · have hmarked : protect mark a.toList = protect mark b.toList := by
      simpa using String.ofList_injective h
    exact String.toList_injective (protect_injective mark hmarked)

/-- Symbols with different names are printed differently, in scripts and in messages. -/
theorem Symbol.name_eq_of_text {s s' : Symbol} (h : s.text = s'.text) : s.name = s'.name :=
  printedName_injective (by decide) h

theorem Symbol.name_eq_of_display {s s' : Symbol} (h : s.display = s'.display) :
    s.name = s'.name :=
  printedName_injective (by decide) h

end SmtScript
