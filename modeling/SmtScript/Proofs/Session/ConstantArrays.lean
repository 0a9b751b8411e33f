import SmtScript.Proofs.Session.Signatures

/-!
Constant arrays and the sorts that they are ascribed to.

The index sort of a constant array is taken from the ascription, its element sort from the value.
The value goes over to Real where Real elements are ascribed, and is not checked otherwise: the
ascribed sort is that of the array if and only if the value fits, `translate_constantArray`.
-/

namespace SmtScript

open Step

namespace Term

/-- The Real form of an Int term. -/
def asReal : Term → Term
  | .int n => .real n
  | t => .toReal t

/-- A term as an element of the sort that is expected: an Int goes over to Real. -/
def raisedTo (element : SmtSort) (t : Term) : Term :=
  if element = .real ∧ t.sort = .int then t.asReal else t

variable {element : SmtSort} {t : Term}

theorem sort_asReal : t.asReal.sort = .real := by
  cases t <;> rfl

theorem mkToReal_of_int (ht : t.sort = .int) : t.mkToReal = .ok t.asReal := by
  have hfits : t.toReal.fits = true := by simp [fits, isInt, ht]
  cases t <;> first
    | rfl
    | simp [mkToReal, ht, asReal, checked, hfits]

/-- Nothing that is expected to be Real fails to go over to it. -/
theorem liftTo_eq : liftTo element t = .ok (t.raisedTo element) := by
  unfold liftTo liftToReal
  split
  · rename_i hreal
    split
    · rename_i hint
      have hsort : t.sort = .int := by simpa [isInt] using hint
      rw [mkToReal_of_int hsort, raisedTo, if_pos ⟨hreal, hsort⟩]
    · rename_i hint
      rw [raisedTo, if_neg fun h => hint (by simpa [isInt] using h.2)]
  · rename_i hreal
    rw [raisedTo, if_neg fun h => hreal h.1]

/-- A term has the expected sort once it is raised if and only if the sort takes it. -/
theorem sort_raisedTo_eq : (t.raisedTo element).sort = element ↔ element.Takes t := by
  unfold raisedTo SmtSort.Takes
  split
  · rename_i h
    obtain ⟨rfl, hint⟩ := h
    simp [sort_asReal, hint]
  · rename_i h
    exact ⟨.inl, fun htakes => htakes.resolve_right h⟩

end Term

section

variable {sorts : SortTable} {names : Names} {sexpr sort value : SExpr} {index element : SmtSort}
  {T T' : TermState} {t u : Term}

theorem run_ascribedArray (hsort : sorts.parse sort = .ok (.array index element)) :
    (ascribedArray sorts sexpr sort).run T = (.ok (index, element), T) := by
  rw [ascribedArray, hsort]
  rfl

theorem run_constantArray : (constantArray sexpr index element t).run T =
    (.ok (.constArray index (t.raisedTo element)), T) := by
  rw [constantArray, Term.liftTo_eq]
  rfl

/-- A value at an ascribed array sort is accepted whenever it is a term. The array holds that term,
which goes over to Real if Real is ascribed to an Int, and has the ascribed sort if and only if the
term is of the element sort then. -/
theorem translate_constantArray (hsort : sorts.parse sort = .ok (.array index element)) :
    (translate sorts names (.list [.list [.atom "as", .atom "const", sort], value])).run T =
        (.ok u, T') ↔
      ∃ t, (translate sorts names value).run T = (.ok t, T') ∧
        u = .constArray index (t.raisedTo element) ∧
        (u.sort = .array index element ↔ element.Takes t) := by
  have hrun : (translate sorts names (.list [.list [.atom "as", .atom "const", sort], value])).run T
      = ((translate sorts names value >>= fun t =>
        constantArray (.list [.list [.atom "as", .atom "const", sort], value]) index element t :
          Translation Term)).run T := by
    rw [translate.eq_def]
    simp only []
    rw [run_bind_ok (run_ascribedArray hsort)]
  rw [hrun]
  constructor
  · intro h
    rw [run_bind] at h
    split at h
    · rename_i t T₁ hvalue
      rw [run_constantArray] at h
      obtain ⟨hu, rfl⟩ := Prod.mk.inj h
      obtain rfl := Except.ok.inj hu
      refine ⟨t, hvalue, rfl, ?_⟩
      rw [Term.sort, SmtSort.array.injEq, Term.sort_raisedTo_eq]
      simp
    · cases h
  · rintro ⟨t, hvalue, rfl, -⟩
    rw [run_bind_ok hvalue, run_constantArray]

/-- At an array of Reals, an Int goes over to Real and a Boolean is left as it is. -/
theorem translate_constantArray_real :
    ∃ sort : SExpr, SortTable.empty.parse sort = .ok (.array .int .real) ∧
      ∃ u v, (translate .empty ⟨.empty, []⟩
          (.list [.list [.atom "as", .atom "const", sort], .atom "1"])).run .empty =
            (.ok u, .empty) ∧ u.sort = .array .int .real ∧
        (translate .empty ⟨.empty, []⟩
          (.list [.list [.atom "as", .atom "const", sort], .atom "true"])).run .empty =
            (.ok v, .empty) ∧ v.sort ≠ .array .int .real := by
  have hsort : SortTable.empty.parse (.list [.atom "Array", .atom "Int", .atom "Real"]) =
      .ok (.array .int .real) := rfl
  have hint : (translate .empty ⟨.empty, []⟩ (.atom "1")).run .empty =
      (.ok (.int 1), .empty) := rfl
  have hbool : (translate .empty ⟨.empty, []⟩ (.atom "true")).run .empty =
      (.ok (.bool true), .empty) := rfl
  refine ⟨_, hsort, .constArray .int (.real 1), .constArray .int (.bool true),
    (translate_constantArray hsort).mpr ⟨.int 1, hint, rfl, ?_⟩, rfl,
    (translate_constantArray hsort).mpr ⟨.bool true, hbool, rfl, ?_⟩, nofun⟩
  · exact ⟨fun _ => .inr ⟨rfl, rfl⟩, fun _ => rfl⟩
  · exact ⟨nofun, by rintro (h | ⟨-, h⟩) <;> cases h⟩

end

end SmtScript
