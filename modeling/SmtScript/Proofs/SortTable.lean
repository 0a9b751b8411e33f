import SmtScript.Literal
import SmtScript.Proofs.Term.Hereditary
import SmtScript.SortTable
import SmtScript.Text.Name

/-!
Sorts as scripts write them.

`SortTable.Writes` lists the sorts that can be written with a table of sorts. Whatever is read as a
sort is one of these, `SortTable.writes_of_parse`, and unless the name of a built-in sort is
declared, each of these is read from the S-expression that it is printed as,
`SortTable.parse_sexpr`.
-/

namespace SmtScript

/-! ### Numerals -/

theorem toList_toString (n : Nat) : (toString n).toList = Nat.toDigits 10 n := by
  rw [Nat.toString_eq_repr, Nat.toList_repr]

theorem isDigit_of_mem_toString {n : Nat} {c : Char} (h : c ∈ (toString n).toList) :
    c.isDigit = true := by
  rw [toList_toString] at h
  exact Nat.isDigit_of_mem_toDigits (by decide) (by decide) h

theorem toList_toString_ne_nil (n : Nat) : (toString n).toList ≠ [] := by
  rw [toList_toString]
  exact Nat.toDigits_ne_nil

/-- The digits that a number is printed with denote it. -/
theorem Literal.decimal_toString (n : Nat) : Literal.decimal (toString n).toList = n := by
  rw [Literal.decimal, positional, List.foldl_map, toList_toString]
  exact Nat.ofDigitChars_toDigits (by decide) (by decide)

/-- ASCII digits are decimal digits of the first block. -/
theorem decimalValue?_of_isDigit {c : Char} (h : c.isDigit = true) :
    decimalValue? c = some (Literal.digitValue c) := by
  have hrange : 0x30 ≤ c.toNat ∧ c.toNat < 0x30 + 10 := by
    simp only [Char.isDigit, Bool.and_eq_true, decide_eq_true_eq] at h
    exact ⟨h.1, Nat.lt_succ_of_le h.2⟩
  simp [decimalValue?, decimalZeros, hrange, Literal.digitValue]

theorem mapM_decimalValue? {chars : List Char} (h : ∀ c ∈ chars, c.isDigit = true) :
    chars.mapM decimalValue? = some (chars.map Literal.digitValue) := by
  induction chars with
  | nil => rfl
  | cons c rest ih =>
    obtain ⟨hc, hrest⟩ := List.forall_mem_cons.mp h
    rw [List.mapM_cons, decimalValue?_of_isDigit hc, ih hrest]
    rfl

theorem Numeral.read_toString (n : Nat) : Numeral.read (toString n) = .value n := by
  have hnil : (toString n).toList.isEmpty = false := by
    rw [List.isEmpty_eq_false_iff]
    exact toList_toString_ne_nil n
  have hdigits := mapM_decimalValue? fun c hc => isDigit_of_mem_toString (n := n) hc
  have hvalue := Literal.decimal_toString n
  unfold Literal.decimal at hvalue
  simp only [Numeral.read, hnil, hdigits, hvalue, Bool.false_eq_true, if_false]

/-! ### Sorts -/

/-- Whether a name is printed without bars and is still there when the text is read. -/
structure IsPlainWord (name : String) : Prop where
  plain : isPlainName name = true
  line : '\n' ∉ name.toList

/-- The S-expression that a sort is printed as. -/
def SmtSort.sexpr : SmtSort → SExpr
  | .bool => .atom "Bool"
  | .int => .atom "Int"
  | .real => .atom "Real"
  | .bitVec width => .list [.atom "_", .atom "BitVec", .atom (toString width)]
  | .array index element => .list [.atom "Array", index.sexpr, element.sexpr]
  | .user name => .atom name
  | .arrow domain codomain => .list [domain.sexpr, .atom "->", codomain.sexpr]

namespace SortTable

/-- The sorts that can be written with a table of sorts. -/
inductive Writes (table : SortTable) : SmtSort → Prop where
  | bool : table.Writes .bool
  | int : table.Writes .int
  | real : table.Writes .real
  | bitVec {width : Nat} (hwidth : 0 < width) : table.Writes (.bitVec width)
  | array {index element : SmtSort} (hindex : table.Writes index)
      (helement : table.Writes element) : table.Writes (.array index element)
  | user {name : String} (h : name ∈ table.declared) : table.Writes (.user name)

variable {table table' : SortTable} {sort index element : SmtSort}

theorem Writes.mono (h : table.Writes sort) (hsub : table.declared ⊆ table'.declared) :
    table'.Writes sort := by
  induction h with
  | bool => exact .bool
  | int => exact .int
  | real => exact .real
  | bitVec hwidth => exact .bitVec hwidth
  | array _ _ hindex helement => exact .array hindex helement
  | user h => exact .user (hsub h)

/-- No sort that can be written is that of functions. -/
theorem Writes.target (h : table.Writes sort) : sort.target = sort := by
  cases h <;> rfl

theorem writes_bitVec {width : Nat} : table.Writes (.bitVec width) ↔ 0 < width := by
  constructor
  · rintro (_ | _ | _ | hwidth)
    exact hwidth
  · exact .bitVec

theorem writes_array :
    table.Writes (.array index element) ↔ table.Writes index ∧ table.Writes element := by
  constructor
  · intro h
    cases h with
    | array hindex helement => exact ⟨hindex, helement⟩
  · exact fun h => .array h.1 h.2

/-- Whatever is read as a sort can be written. -/
theorem writes_of_parse {s : SExpr} (h : table.parse s = .ok sort) : table.Writes sort := by
  fun_induction parse table s generalizing sort with
  | case1 name =>
    unfold ofName at h
    split at h
    · rename_i hname
      obtain rfl := Except.ok.inj h
      exact .user (List.contains_iff_mem.mp hname)
    · split at h
      · exact Except.ok.inj h ▸ .bool
      · split at h
        · exact Except.ok.inj h ▸ .int
        · split at h
          · exact Except.ok.inj h ▸ .real
          · cases h
  | case2 index element ihindex ihelement =>
    obtain ⟨index', hindex, h⟩ := Term.bind_ok h
    obtain ⟨element', helement, h⟩ := Term.bind_ok h
    exact Except.ok.inj h ▸ .array (ihindex hindex) (ihelement helement)
  | case3 width =>
    unfold ofWidth at h
    split at h
    · cases h
    · rename_i n hn _
      exact Except.ok.inj h ▸ .bitVec (Nat.pos_of_ne_zero hn)
    · cases h
    · cases h
  | case4 => cases h

/-- The names of built-in sorts are not plain. -/
theorem not_declared_of_plain (hnames : ∀ name ∈ table.declared, IsPlainWord name) :
    ∀ name ∈ ["Bool", "Int", "Real"], name ∉ table.declared := by
  have hplain : ∀ name ∈ ["Bool", "Int", "Real"], isPlainName name = false := by decide
  intro name hname hdeclared
  exact absurd ((hnames name hdeclared).plain.symm.trans (hplain name hname)) (by decide)

/-- A sort is read from what it is printed as, unless the name of a built-in sort is declared. -/
theorem parse_sexpr (hbuiltin : ∀ name ∈ ["Bool", "Int", "Real"], name ∉ table.declared)
    (h : table.Writes sort) : table.parse sort.sexpr = .ok sort := by
  have hnot (name : String) (hname : name ∈ ["Bool", "Int", "Real"]) :
      table.contains name = false :=
    Bool.eq_false_iff.mpr fun hcontains => hbuiltin name hname (List.contains_iff_mem.mp hcontains)
  induction h with
  | bool => simp [SmtSort.sexpr, parse, ofName, hnot "Bool" (by simp)]
  | int => simp [SmtSort.sexpr, parse, ofName, hnot "Int" (by simp)]
  | real => simp [SmtSort.sexpr, parse, ofName, hnot "Real" (by simp)]
  | @bitVec width hwidth =>
    rw [SmtSort.sexpr, parse, ofWidth, Numeral.read_toString]
    cases width with
    | zero => cases hwidth
    | succ width => rfl
  | array _ _ hindex helement => rw [SmtSort.sexpr, parse, hindex, helement]; rfl
  | user h => rw [SmtSort.sexpr, parse, ofName, contains, List.contains_iff_mem.mpr h, if_pos rfl]

end SortTable

end SmtScript
