import SmtScript.Proofs.Term.Written
import SmtScript.Proofs.Translate.Confined

/-!
Translation yields terms that can be written.

As long as no substitution fails, whatever is translated in an environment of written terms is a
written term: `kept_written` is an instance of what translation keeps.
-/

namespace SmtScript

open Term Translation TermState

/-- Whether what a name stands for can be written. -/
def Binding.Written (W : SmtSort → Prop) : Binding → Prop
  | .term t => t.Written W
  | .definition d => d.body.Written W

variable {W W' : SmtSort → Prop} {names : Names} {binding : Binding}

theorem Binding.Written.mono (h : binding.Written W) (hsub : ∀ sort, W sort → W' sort) :
    binding.Written W' := by
  cases binding <;> exact Term.Written.mono h hsub

namespace Names

def Written (names : Names) (W : SmtSort → Prop) : Prop :=
  ∀ name binding, names.find? name = some binding → binding.Written W

theorem Written.extend (h : names.Written W) {bound : List (String × Binding)}
    (hbound : ∀ p ∈ bound, ∃ t, p.2 = .term t ∧ t.Written W) :
    Names.Written (names.extend bound) W := by
  intro name binding hfind
  rcases Names.find?_extend_terms hbound hfind with ⟨t, rfl, ht⟩ | hfind
  · exact ht
  · exact h name binding hfind

end Names

/-- As long as no substitution fails, terms are put together from nodes that can be written. -/
theorem kept_written (hbits : ∀ {width : Nat}, 0 < width → W (.bitVec width)) :
    Kept W Grows (fun T => T.leftover = none) (fun _ names _ => names.Written W)
      (fun _ _ t => t.Written W) where
  closed := closed_grows
  table h := h.table
  hereditary _ _ := hereditary_written hbits
  good_mono ht _ := ht
  inv_mono hinv _ _ := hinv
  find hinv hfind := hinv _ _ hfind
  extend hinv hbound := hinv.extend hbound
  make _ hclean stem sort := ⟨grows_made _ stem sort, hclean, written_symbol _, fun _ => id⟩
  opens hinv hclean stem sort :=
    ⟨grows_opened _ stem sort, hclean, hinv, written_symbol _, fun _ => id⟩
  closes _ _ _ _ _ _ ht hu := written_mkQuantified hu ht
  part _ hclean _ _ _ := ⟨grows_divided _ _, hclean, written_symbol _⟩
  application _ hargs hu := written_mkApply hu hargs
  definition {c names T head d values result leftover} hinv hclean hfind _ hvalues hrun := by
    rw [hclean] at hrun
    refine ⟨grows_leftover T leftover, fun u hu => ?_⟩
    obtain ⟨hsubstitute, hleftover⟩ := instantiate_none hrun hu
    exact ⟨hleftover, keeps_substitute (substitutive_written hbits) hsubstitute
      (hinv head _ hfind) fun p hp => hvalues p.2 (List.of_mem_zip hp).2⟩

/-- The index sort of a constant array is read from the script. -/
theorem SortTable.writes_index {table : SortTable} {s : SExpr} {index element : SmtSort}
    (h : table.parse s = .ok (.array index element)) : table.Writes index :=
  (SortTable.writes_array.mp (SortTable.writes_of_parse h)).1

end SmtScript
