import SmtScript.Proofs.Literal
import SmtScript.Proofs.Term.Printed

/-!
Printing and reading sorts.

`SortTable.Denotes` says which S-expressions stand for which sorts, and reading a sort decides it,
`SortTable.parse_eq_ok_iff`. If the declared names are words other than those of the built-in sorts,
the text of a sort stands for the sort again, `SortTable.readOne_text`, so that no two sorts have
the same text.
-/

namespace SmtScript

/-! ### Numerals -/

/-- Whether a text is a run of decimal digits, of any script, with a value. -/
def Numeral.Denotes (text : String) (n : Nat) : Prop :=
  ∃ digits, digits ≠ [] ∧ List.Forall₂ (fun c d => decimalValue? c = some d) text.toList digits ∧
    n = Nat.ofDigits 10 digits.reverse

theorem mapM_decimalValue?_eq_some {chars : List Char} {digits : List Nat} :
    chars.mapM decimalValue? = some digits ↔
      List.Forall₂ (fun c d => decimalValue? c = some d) chars digits := by
  induction chars generalizing digits with
  | nil => simp [eq_comm]
  | cons c rest ih =>
    rw [List.forall₂_cons_left_iff, List.mapM_cons]
    simp only [Option.bind_eq_bind, Option.pure_def, Option.bind_eq_some_iff, Option.some.injEq, ih]
    exact ⟨fun ⟨d, hd, ds, hds, heq⟩ => ⟨d, ds, hd, hds, heq.symm⟩,
      fun ⟨d, ds, hd, hds, heq⟩ => ⟨d, hd, ds, hds, heq.symm⟩⟩

theorem Numeral.read_eq_value_iff {text : String} {n : Nat} :
    Numeral.read text = .value n ↔ Numeral.Denotes text n := by
  unfold Numeral.read
  dsimp only
  constructor
  · intro h
    split at h
    · cases h
    · rename_i hempty
      split at h
      · rename_i digits hdigits
        have hforall := mapM_decimalValue?_eq_some.mp hdigits
        obtain rfl := Numeral.value.inj h
        refine ⟨digits, ?_, hforall, Literal.positional_eq_ofDigits 10 digits⟩
        rintro rfl
        exact hempty (by simpa using List.forall₂_nil_right_iff.mp hforall)
      · split at h <;> cases h
  · rintro ⟨digits, hne, hforall, rfl⟩
    have hempty : text.toList.isEmpty = false := by
      rw [List.isEmpty_eq_false_iff]
      intro hnil
      rw [hnil] at hforall
      exact hne (List.forall₂_nil_left_iff.mp hforall)
    simp only [hempty, mapM_decimalValue?_eq_some.mpr hforall, Bool.false_eq_true, if_false,
      Literal.positional_eq_ofDigits]

namespace SortTable

variable {table : SortTable} {x x' : SExpr} {sort sort' : SmtSort}

/-! ### What stands for a sort -/

/-- Whether an S-expression stands for a sort. A declared name stands for the declared sort even if
it is that of a built-in sort. -/
inductive Denotes (table : SortTable) : SExpr → SmtSort → Prop where
  | declared {name : String} (h : name ∈ table.declared) :
      table.Denotes (.atom name) (.user name)
  | bool (h : "Bool" ∉ table.declared) : table.Denotes (.atom "Bool") .bool
  | int (h : "Int" ∉ table.declared) : table.Denotes (.atom "Int") .int
  | real (h : "Real" ∉ table.declared) : table.Denotes (.atom "Real") .real
  | array {index element : SExpr} {indexSort elementSort : SmtSort}
      (hindex : table.Denotes index indexSort) (helement : table.Denotes element elementSort) :
      table.Denotes (.list [.atom "Array", index, element]) (.array indexSort elementSort)
  | bitVec {width : String} {n : Nat} (hwidth : Numeral.Denotes width n) (hpos : 0 < n) :
      table.Denotes (.list [.atom "_", .atom "BitVec", .atom width]) (.bitVec n)

theorem ofName_declared {name : String} (h : name ∈ table.declared) :
    table.ofName name = .ok (.user name) := by
  rw [ofName, contains, List.contains_iff_mem.mpr h, if_pos rfl]

theorem ofName_builtin {name : String} (h : name ∉ table.declared) :
    table.ofName name =
      if name = "Bool" then .ok .bool
      else if name = "Int" then .ok .int
      else if name = "Real" then .ok .real
      else .error (.unknownSort name) := by
  rw [ofName, contains, if_neg]
  rwa [List.contains_iff_mem]

theorem denotes_of_ofName {name : String} (h : table.ofName name = .ok sort) :
    table.Denotes (.atom name) sort := by
  by_cases hdeclared : name ∈ table.declared
  · rw [ofName_declared hdeclared] at h
    exact Except.ok.inj h ▸ .declared hdeclared
  · rw [ofName_builtin hdeclared] at h
    split at h
    · rename_i hname
      exact Except.ok.inj h ▸ hname ▸ .bool (hname ▸ hdeclared)
    · split at h
      · rename_i hname
        exact Except.ok.inj h ▸ hname ▸ .int (hname ▸ hdeclared)
      · split at h
        · rename_i hname
          exact Except.ok.inj h ▸ hname ▸ .real (hname ▸ hdeclared)
        · cases h

theorem denotes_of_parse (h : table.parse x = .ok sort) : table.Denotes x sort := by
  fun_induction parse table x generalizing sort with
  | case1 name => exact denotes_of_ofName h
  | case2 index element ihindex ihelement =>
    obtain ⟨index', hindex, h⟩ := Term.bind_ok h
    obtain ⟨element', helement, h⟩ := Term.bind_ok h
    exact Except.ok.inj h ▸ .array (ihindex hindex) (ihelement helement)
  | case3 width =>
    unfold ofWidth at h
    split at h
    · cases h
    · rename_i n hn hread
      exact Except.ok.inj h ▸ .bitVec (Numeral.read_eq_value_iff.mp hread) (Nat.pos_of_ne_zero hn)
    · cases h
    · cases h
  | case4 => cases h

theorem Denotes.parse (h : table.Denotes x sort) : table.parse x = .ok sort := by
  induction h with
  | declared h => rw [SortTable.parse, ofName_declared h]
  | bool h => rw [SortTable.parse, ofName_builtin h]; rfl
  | int h => rw [SortTable.parse, ofName_builtin h]; rfl
  | real h => rw [SortTable.parse, ofName_builtin h]; rfl
  | array _ _ hindex helement => rw [SortTable.parse, hindex, helement]; rfl
  | @bitVec width n hwidth hpos =>
    rw [SortTable.parse, ofWidth, Numeral.read_eq_value_iff.mpr hwidth]
    cases n with
    | zero => cases hpos
    | succ n => rfl

/-- Whatever stands for a sort is read as the sort, and nothing else is. -/
theorem parse_eq_ok_iff : table.parse x = .ok sort ↔ table.Denotes x sort :=
  ⟨denotes_of_parse, Denotes.parse⟩

/-! ### Their texts -/

section

variable (hnames : ∀ name ∈ table.declared, IsWord name.toList ∧ '\r' ∉ name.toList)

include hnames

theorem Writes.readOne_text (h : table.Writes sort) :
    SExpr.readOne sort.text = .ok sort.sexpr := by
  rw [← h.text_sexpr fun name hname => (hnames name hname).1]
  apply SExpr.readOne_text
  intro a ha
  rcases h.atoms ha with hbare | hdeclared
  · exact hbare.legible
  · exact ⟨(hnames a hdeclared).2, .inr (.inl (hnames a hdeclared).1)⟩

/-- Sorts are printed and read as inverses. If the declared names are words other than those of the
built-in sorts, a sort is read again from its text; what stands for a sort, at any depth, is what is
read as one; and two S-expressions are read as the same sort exactly if the text is the same. -/
theorem sorts_read_back (hbuiltin : ∀ name ∈ ["Bool", "Int", "Real"], name ∉ table.declared) :
    (∀ x sort, table.parse x = .ok sort →
      ∃ y, SExpr.readOne sort.text = .ok y ∧ table.parse y = .ok sort) ∧
    (∀ x sort, table.parse x = .ok sort ↔ table.Denotes x sort) ∧
    ∀ x x' sort sort', table.parse x = .ok sort → table.parse x' = .ok sort' →
      (sort = sort' ↔ sort.text = sort'.text) := by
  have hread (x : SExpr) (sort : SmtSort) (h : table.parse x = .ok sort) :
      ∃ y, SExpr.readOne sort.text = .ok y ∧ table.parse y = .ok sort := by
    have hwrites := writes_of_parse h
    exact ⟨_, hwrites.readOne_text hnames, parse_sexpr hbuiltin hwrites⟩
  refine ⟨hread, fun x sort => parse_eq_ok_iff, fun x x' sort sort' h h' => ?_⟩
  refine ⟨congrArg SmtSort.text, fun htext => ?_⟩
  obtain ⟨y, hy, hsort⟩ := hread x sort h
  obtain ⟨y', hy', hsort'⟩ := hread x' sort' h'
  rw [htext, hy'] at hy
  obtain rfl := Except.ok.inj hy
  exact Except.ok.inj (hsort.symm.trans hsort')

end

/-- A width with a leading zero, below an array sort of a declared sort. -/
theorem sorts_read_back_nested :
    let table : SortTable := ⟨["S", "Pair"]⟩
    let x : SExpr := .list [.atom "Array", .atom "S", .list [.atom "_", .atom "BitVec", .atom "08"]]
    let sort : SmtSort := .array (.user "S") (.bitVec 8)
    (∀ name ∈ table.declared, IsWord name.toList ∧ '\r' ∉ name.toList) ∧
      (∀ name ∈ ["Bool", "Int", "Real"], name ∉ table.declared) ∧
      table.parse x = .ok sort ∧ table.Denotes x sort ∧
      sort.text = "(Array S (_ BitVec 8))" ∧
      ∃ y, SExpr.readOne sort.text = .ok y ∧ table.parse y = .ok sort := by
  intro table x sort
  have hnames : ∀ name ∈ table.declared, IsWord name.toList ∧ '\r' ∉ name.toList := by
    simp [table, IsWord]
  have hbuiltin : ∀ name ∈ ["Bool", "Int", "Real"], name ∉ table.declared := by
    simp [table]
  have hparse : table.parse x = .ok sort := rfl
  obtain ⟨hread, hdenotes, -⟩ := sorts_read_back hnames hbuiltin
  exact ⟨hnames, hbuiltin, hparse, (hdenotes x sort).mp hparse, by decide +kernel,
    hread x sort hparse⟩

end SortTable

end SmtScript
