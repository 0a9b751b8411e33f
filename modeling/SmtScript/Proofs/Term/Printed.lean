import SmtScript.Proofs.SExpr.RoundTrip
import SmtScript.Proofs.Term.Written
import SmtScript.Term.Printer

/-!
Printed terms as S-expressions.

A term without quantifiers whose nodes can be written and whose symbols have plain names is printed
as the text of an S-expression, `Term.sexpr`, and this is what is read from the text,
`Term.Printable.readOne_text`.
-/

namespace SmtScript

/-! ### Bare atoms -/

/-- Whether an atom is made of the characters of plain names and hashes. -/
structure IsBare (atom : String) : Prop where
  nonempty : atom.toList ≠ []
  chars : ∀ c ∈ atom.toList, continuesName c = true ∨ c = '#'

instance (atom : String) : Decidable (IsBare atom) :=
  decidable_of_iff
    (atom.toList ≠ [] ∧ (atom.toList.all fun c => continuesName c || c == '#') = true)
    ⟨fun h => ⟨h.1, by simpa using h.2⟩, fun h => ⟨h.nonempty, by simpa using h.chars⟩⟩

theorem ne_of_continuesName {c d : Char} (h : continuesName c = true ∨ c = '#')
    (hd : continuesName d = false) (hhash : d ≠ '#') : c ≠ d := by
  rintro rfl
  rcases h with h | h
  · simp [hd] at h
  · exact hhash h

theorem IsBare.isWord {atom : String} (h : IsBare atom) : IsWord atom.toList := by
  refine ⟨h.nonempty, fun c hc hmem => ?_⟩
  have hall : [' ', '\t', '\n', '(', ')', '|', ';', '"'].all
      (fun d => !continuesName d && d != '#') = true := by decide
  have hc' := List.all_eq_true.mp hall c hmem
  simp only [Bool.and_eq_true, Bool.not_eq_true', bne_iff_ne] at hc'
  exact ne_of_continuesName (h.chars c hc) hc'.1 hc'.2 rfl

theorem IsBare.atomText {atom : String} (h : IsBare atom) : SExpr.atomText atom = atom :=
  SExpr.atomText_of_isWord h.isWord

theorem isBare_of_isPlainWord {name : String} (h : IsPlainWord name) : IsBare name := by
  have hplain := h.plain
  have hline := h.line
  unfold isPlainName at hplain
  split at hplain
  · cases hplain
  · rename_i c rest hchars
    simp only [Bool.and_eq_true] at hplain
    obtain ⟨⟨hstart, hrest⟩, -⟩ := hplain
    have hdrop : dropFinalNewline rest = rest := by
      unfold dropFinalNewline
      split
      · rename_i hlast
        have hmem := List.mem_of_getLast? (by simpa using hlast)
        exact absurd (hchars ▸ List.mem_cons_of_mem c hmem) hline
      · rfl
    rw [hdrop, List.all_eq_true] at hrest
    refine ⟨by simp [hchars], fun d hd => .inl ?_⟩
    rw [hchars] at hd
    rcases List.mem_cons.mp hd with rfl | hd
    · simp [continuesName, hstart]
    · exact hrest d hd

theorem isBare_toString (n : Nat) : IsBare (toString n) :=
  ⟨toList_toString_ne_nil n, fun c hc => .inl (by simp [continuesName, isDigit_of_mem_toString hc])⟩

/-- Whether all atoms of an S-expression are bare. -/
def SExpr.Bare (s : SExpr) : Prop := ∀ a ∈ s.atoms, IsBare a

theorem SExpr.bare_atom {a : String} : (SExpr.atom a).Bare ↔ IsBare a := by
  simp [Bare, atoms]

theorem SExpr.bare_list {items : List SExpr} :
    (SExpr.list items).Bare ↔ ∀ s ∈ items, s.Bare := by
  simp only [Bare, atoms, mem_atomsAll]
  exact ⟨fun h s hs a ha => h a ⟨s, hs, ha⟩, fun h a ⟨s, hs, ha⟩ => h s hs a ha⟩

theorem IsBare.legible {atom : String} (h : IsBare atom) :
    '\r' ∉ atom.toList ∧ Legible atom := by
  refine ⟨fun hmem => ?_, .inr (.inl h.isWord)⟩
  exact ne_of_continuesName (h.chars _ hmem) (by decide) (by decide) rfl

/-- An S-expression of bare atoms is read from its text. -/
theorem SExpr.Bare.readOne_text {s : SExpr} (h : s.Bare) : readOne s.text = .ok s :=
  SExpr.readOne_text fun a ha => (h a ha).legible

theorem SExpr.text_list_cons (head : SExpr) (items : List SExpr) :
    (SExpr.list (head :: items)).text = applied head.text (items.map text) := by
  rw [text, texts_eq_map, List.map_cons, applied]

/-! ### Sorts -/

namespace SortTable

variable {table : SortTable} {sort : SmtSort}

/-- The atoms of a printed sort are bare, but for declared names. -/
theorem Writes.atoms (h : table.Writes sort) {a : String} (ha : a ∈ sort.sexpr.atoms) :
    IsBare a ∨ a ∈ table.declared := by
  induction h with
  | bool => exact .inl (List.mem_singleton.mp ha ▸ by decide)
  | int => exact .inl (List.mem_singleton.mp ha ▸ by decide)
  | real => exact .inl (List.mem_singleton.mp ha ▸ by decide)
  | @bitVec width _ =>
    simp only [SmtSort.sexpr, SExpr.atoms, SExpr.atomsAll, List.singleton_append, List.append_nil,
      List.mem_cons, List.not_mem_nil, or_false] at ha
    rcases ha with rfl | rfl | rfl
    · exact .inl (by decide)
    · exact .inl (by decide)
    · exact .inl (isBare_toString width)
  | array _ _ hindex helement =>
    simp only [SmtSort.sexpr, SExpr.atoms, SExpr.atomsAll, List.singleton_append, List.append_nil,
      List.mem_cons, List.mem_append] at ha
    rcases ha with rfl | ha | ha
    · exact .inl (by decide)
    · exact hindex ha
    · exact helement ha
  | user h => exact .inr (List.mem_singleton.mp ha ▸ h)

theorem Writes.bare (hnames : ∀ name ∈ table.declared, IsPlainWord name)
    (h : table.Writes sort) : sort.sexpr.Bare := by
  intro a ha
  rcases h.atoms ha with hbare | hdeclared
  · exact hbare
  · exact isBare_of_isPlainWord (hnames a hdeclared)

/-- If the declared names are words, a sort is printed as the text of its S-expression. -/
theorem Writes.text_sexpr (hnames : ∀ name ∈ table.declared, IsWord name.toList)
    (h : table.Writes sort) : sort.sexpr.text = sort.text := by
  induction h with
  | bool => rfl
  | int => rfl
  | real => rfl
  | @bitVec width _ =>
    have hwidth : (SExpr.atom (toString width)).text = toString width :=
      (isBare_toString width).atomText
    have hname : (SExpr.atom "BitVec").text = "BitVec" := rfl
    have hmark : (SExpr.atom "_").text = "_" := rfl
    rw [SmtSort.sexpr, SExpr.text_list_cons, List.map_cons, List.map_cons, List.map_nil, hwidth,
      hname, hmark, SmtSort.text, ← String.toList_inj]
    simp [applied]
  | array _ _ hindex helement =>
    have hname : (SExpr.atom "Array").text = "Array" := rfl
    rw [SmtSort.sexpr, SExpr.text_list_cons, List.map_cons, List.map_cons, List.map_nil, hindex,
      helement, hname, SmtSort.text, ← String.toList_inj]
    simp [applied]
  | @user name h =>
    have hword := hnames _ h
    rw [SmtSort.sexpr, SExpr.text, SExpr.atomText_of_isWord hword, SmtSort.text, if_neg]
    simpa using hword.1

end SortTable

/-! ### Numbers and operators -/

namespace SExpr

/-- A number by its absolute value, under a minus sign if it is negative. -/
def signed (negative : Bool) (magnitude : SExpr) : SExpr :=
  if negative then .list [.atom "-", magnitude] else magnitude

def integer (n : Int) : SExpr :=
  signed (decide (n < 0)) (.atom (toString n.natAbs))

def rational (q : Rat) : SExpr :=
  signed (decide (q.num < 0)) <|
    if q.den = 1 then .atom (toString q.num.natAbs ++ ".0")
    else .list [.atom "/", .atom (toString q.num.natAbs), .atom (toString q.den)]

/-- An operator with its indices. -/
def indexed (name : String) (indices : List Nat) : SExpr :=
  .list (.atom "_" :: .atom name :: indices.map fun n => .atom (toString n))

theorem text_of_isBare {a : String} (h : IsBare a) : (SExpr.atom a).text = a := h.atomText

theorem text_signed (negative : Bool) (s : SExpr) :
    (signed negative s).text = SmtScript.signed negative s.text := by
  cases negative <;> rfl

theorem bare_signed {negative : Bool} {s : SExpr} (h : s.Bare) : (signed negative s).Bare := by
  cases negative with
  | false => exact h
  | true => simpa [signed, bare_list, bare_atom] using ⟨(by decide), h⟩

theorem isBare_point (n : Nat) : IsBare (toString n ++ ".0") := by
  have hdigits := isBare_toString n
  refine ⟨by simp, fun c hc => ?_⟩
  rw [String.toList_append, List.mem_append] at hc
  rcases hc with hc | hc
  · exact hdigits.chars c hc
  · exact (show IsBare ".0" by decide).chars c hc

theorem bare_integer (n : Int) : (integer n).Bare :=
  bare_signed (bare_atom.mpr (isBare_toString _))

theorem text_integer (n : Int) : (integer n).text = integerText n := by
  rw [integer, text_signed, text_of_isBare (isBare_toString _), integerText]

theorem bare_rational (q : Rat) : (rational q).Bare := by
  refine bare_signed ?_
  split
  · exact bare_atom.mpr (isBare_point _)
  · simpa [bare_list, bare_atom] using
      ⟨(by decide), isBare_toString q.num.natAbs, isBare_toString q.den⟩

theorem text_rational (q : Rat) : (rational q).text = rationalText q := by
  rw [rational, text_signed, rationalText]
  congr 1
  split
  · rw [text_of_isBare (isBare_point _)]
  · rw [text_list_cons, List.map_cons, List.map_cons, List.map_nil,
      text_of_isBare (isBare_toString _), text_of_isBare (isBare_toString _)]
    rfl

theorem bare_indexed {name : String} (h : IsBare name) (indices : List Nat) :
    (indexed name indices).Bare := by
  refine bare_list.mpr (List.forall_mem_cons.mpr ⟨bare_atom.mpr (by decide),
    List.forall_mem_cons.mpr ⟨bare_atom.mpr h, ?_⟩⟩)
  intro s hs
  obtain ⟨n, -, rfl⟩ := List.mem_map.mp hs
  exact bare_atom.mpr (isBare_toString n)

theorem text_indexed {name : String} (h : IsBare name) (indices : List Nat) :
    (indexed name indices).text = SmtScript.indexed name indices := by
  have hindices : (indices.map fun n => SExpr.atom (toString n)).map text =
      indices.map toString := by
    rw [List.map_map]
    exact List.map_congr_left fun n _ => text_of_isBare (isBare_toString n)
  rw [indexed, text_list_cons, List.map_cons, hindices, text_of_isBare h]
  rfl

end SExpr

/-! ### Terms -/

namespace Term

/-- What a term without operands is printed as. -/
def leaf? : Term → Option SExpr
  | .bool value => some (.atom (if value then "true" else "false"))
  | .int value => some (.integer value)
  | .real value => some (.rational value)
  | .bitVec _ value => some (.atom (bitsText value))
  | .symbol s => some (.atom s.name)
  | _ => none

/-- What stands before the operands of a printed term that has no variables of its own. -/
def head : Term → SExpr
  | .apply f _ => .atom f.name
  | .not _ => .atom "not"
  | .and _ => .atom "and"
  | .or _ => .atom "or"
  | .implies _ _ => .atom "=>"
  | .iff _ _ | .equal _ _ => .atom "="
  | .ite _ _ _ => .atom "ite"
  | .arith op _ _ => .atom op.text
  | .order op _ _ => .atom op.text
  | .toReal _ => .atom "to_real"
  | .select _ _ => .atom "select"
  | .store _ _ _ => .atom "store"
  | .constArray index v =>
    .list [.atom "as", .atom "const", (SmtSort.array index v.sort).sexpr]
  | .bitUnary op _ => .atom op.text
  | .bitOp op _ _ => .atom op.text
  | .bitOrder op _ _ => .atom op.text
  | .bitEqual _ _ => .atom "bvcomp"
  | .concat _ _ => .atom "concat"
  | .extract high low _ => .indexed "extract" [high, low]
  | .rotate side step _ => .indexed side.text [step]
  | .widen bits extra _ => .indexed bits.text [extra]
  | _ => .list []

/-- The S-expression that a term is printed as. -/
def sexpr (t : Term) : SExpr :=
  match t.leaf? with
  | some s => s
  | none => .list (t.head :: t.operands.attach.map fun a => a.1.sexpr)
termination_by sizeOf t
decreasing_by exact sizeOf_lt_of_mem_operands a.2

variable {t : Term}

theorem sexpr_leaf {s : SExpr} (h : t.leaf? = some s) : t.sexpr = s := by
  rw [sexpr, h]

theorem sexpr_node (h : t.leaf? = none) : t.sexpr = .list (t.head :: t.operands.map sexpr) := by
  rw [sexpr, h]
  simp

/-- Whether no quantifier occurs in a term. -/
def QuantifierFree (t : Term) : Prop :=
  ∀ q bound body, ¬ (Term.quantified q bound body).Subterm t

/-- Whether a term is printed as something that can be read: it has no quantifiers, its nodes and
the sorts of its symbols can be written, and its symbols have plain names. -/
structure Printable (table : SortTable) (t : Term) : Prop where
  wellSorted : t.WellSorted
  written : t.Written table.Writes
  arrays : t.ArraysOfValues
  quantifierFree : t.QuantifierFree
  symbols : ∀ s ∈ t.freeSymbols, IsPlainWord s.name ∧ table.Writes s.sort.target

variable {table : SortTable}

theorem Printable.ne_quantified (h : t.Printable table) (q : Quantifier) (bound : List Symbol)
    (body : Term) : t ≠ .quantified q bound body := by
  rintro rfl
  exact h.quantifierFree q bound body .refl

theorem Printable.operand (h : t.Printable table) {a : Term} (ha : a ∈ t.operands) :
    a.Printable table where
  wellSorted := h.wellSorted.operand ha
  written := h.written.operand ha
  arrays := h.arrays.operand ha
  quantifierFree q bound body hsub := h.quantifierFree q bound body (hsub.tail ha)
  symbols s hs := h.symbols s (mem_freeSymbols_of_operand h.ne_quantified ha hs)

theorem Printable.writes_target (h : t.Printable table) : table.Writes t.sort.target :=
  h.written.writes_target h.wellSorted h.arrays fun s hs => (h.symbols s hs).2

/-- The sort of a constant array can be written. -/
theorem Printable.writes_array {index : SmtSort} {v : Term}
    (h : (Term.constArray index v).Printable table) : table.Writes (.array index v.sort) :=
  h.writes_target

theorem isBare_bitsText {width : Nat} (v : BitVec width) : IsBare (bitsText v) := by
  refine ⟨by simp [bitsText], fun c hc => ?_⟩
  have hcases : c = '#' ∨ c = 'b' ∨ c = '0' ∨ c = '1' := by
    simp [bitsText] at hc
    grind
  rcases hcases with rfl | rfl | rfl | rfl <;> decide

theorem Printable.leaf (h : t.Printable table) {s : SExpr} (hs : t.leaf? = some s) :
    s.Bare ∧ s.text = t.text := by
  cases t with
  | bool value =>
    obtain rfl := Option.some.inj hs
    cases value <;> exact ⟨SExpr.bare_atom.mpr (by decide), rfl⟩
  | int value =>
    obtain rfl := Option.some.inj hs
    exact ⟨SExpr.bare_integer value, SExpr.text_integer value⟩
  | real value =>
    obtain rfl := Option.some.inj hs
    exact ⟨SExpr.bare_rational value, SExpr.text_rational value⟩
  | bitVec width value =>
    obtain rfl := Option.some.inj hs
    have hbare := isBare_bitsText value
    exact ⟨SExpr.bare_atom.mpr hbare, SExpr.text_of_isBare hbare⟩
  | symbol s =>
    obtain rfl := Option.some.inj hs
    have hplain := (h.symbols s (by simp [freeSymbols])).1
    have hbare := isBare_of_isPlainWord hplain
    refine ⟨SExpr.bare_atom.mpr hbare, ?_⟩
    rw [SExpr.text_of_isBare hbare, text, Symbol.text, printedName, if_pos hplain.plain]
  | _ => cases hs

/-- A node that is printed under a word. -/
theorem printed_under {word : String} (hword : IsBare word) (hhead : t.head = .atom word)
    (htext : applied word (t.operands.map text) = t.text) :
    t.head.Bare ∧ applied t.head.text (t.operands.map text) = t.text := by
  rw [hhead, SExpr.text_of_isBare hword]
  exact ⟨SExpr.bare_atom.mpr hword, htext⟩

/-- A node that is printed under an operator with indices. -/
theorem printed_under_indexed {word : String} {indices : List Nat} (hword : IsBare word)
    (hhead : t.head = .indexed word indices)
    (htext : applied (indexed word indices) (t.operands.map text) = t.text) :
    t.head.Bare ∧ applied t.head.text (t.operands.map text) = t.text := by
  rw [hhead, SExpr.text_indexed hword]
  exact ⟨SExpr.bare_indexed hword indices, htext⟩

theorem Printable.node (h : t.Printable table)
    (hnames : ∀ name ∈ table.declared, IsPlainWord name) (hleaf : t.leaf? = none) :
    t.head.Bare ∧ applied t.head.text (t.operands.map text) = t.text := by
  cases t with
  | bool value => cases hleaf
  | int value => cases hleaf
  | real value => cases hleaf
  | bitVec width value => cases hleaf
  | symbol s => cases hleaf
  | quantified q bound body => exact absurd rfl (h.ne_quantified q bound body)
  | apply f args =>
    have hplain := (h.symbols f (by simp [freeSymbols])).1
    refine printed_under (isBare_of_isPlainWord hplain) rfl ?_
    rw [text, Symbol.text, printedName, if_pos hplain.plain, texts_eq_map, operands]
  | constArray index v =>
    have hbare := h.writes_array.bare hnames
    have htext := h.writes_array.text_sexpr fun name hname =>
      (isBare_of_isPlainWord (hnames name hname)).isWord
    refine ⟨?_, ?_⟩
    · simpa [head, SExpr.bare_list, SExpr.bare_atom] using
        ⟨(by decide), (by decide), hbare⟩
    · rw [head, SExpr.text_list_cons, List.map_cons, List.map_cons, htext]
      rfl
  | and ts =>
    have htext : (Term.and ts).text = applied "and" (ts.map text) := by rw [text, texts_eq_map]
    exact printed_under (by decide) rfl htext.symm
  | or ts =>
    have htext : (Term.or ts).text = applied "or" (ts.map text) := by rw [text, texts_eq_map]
    exact printed_under (by decide) rfl htext.symm
  | arith op a b => exact printed_under (by cases op <;> decide) rfl rfl
  | order op a b => exact printed_under (by cases op <;> decide) rfl rfl
  | bitUnary op a => exact printed_under (by cases op <;> decide) rfl rfl
  | bitOp op a b => exact printed_under (by cases op <;> decide) rfl rfl
  | bitOrder op a b => exact printed_under (by cases op <;> decide) rfl rfl
  | extract high low a => exact printed_under_indexed (by decide) rfl rfl
  | rotate side step a =>
    exact printed_under_indexed (by cases side <;> decide) rfl rfl
  | widen bits extra a =>
    exact printed_under_indexed (by cases bits <;> decide) rfl rfl
  | _ => exact printed_under (by decide) rfl rfl

/-- A term is printed as the text of an S-expression of bare atoms. -/
theorem Printable.sexpr (h : t.Printable table)
    (hnames : ∀ name ∈ table.declared, IsPlainWord name) :
    t.sexpr.Bare ∧ t.sexpr.text = t.text := by
  induction t using operands_induction with
  | step t ih =>
    cases hleaf : t.leaf? with
    | some s =>
      rw [sexpr_leaf hleaf]
      exact h.leaf hleaf
    | none =>
      obtain ⟨hhead, htext⟩ := h.node hnames hleaf
      have hoperands : (t.operands.map Term.sexpr).map SExpr.text = t.operands.map text := by
        rw [List.map_map]
        exact List.map_congr_left fun a ha => (ih a ha (h.operand ha)).2
      rw [sexpr_node hleaf, SExpr.text_list_cons, hoperands, htext]
      refine ⟨SExpr.bare_list.mpr (List.forall_mem_cons.mpr ⟨hhead, fun s hs => ?_⟩), rfl⟩
      obtain ⟨a, ha, rfl⟩ := List.mem_map.mp hs
      exact (ih a ha (h.operand ha)).1

/-- The text of a term is read as the S-expression that it is printed as. -/
theorem Printable.readOne_text (h : t.Printable table)
    (hnames : ∀ name ∈ table.declared, IsPlainWord name) :
    SExpr.readOne t.text = .ok t.sexpr := by
  obtain ⟨hbare, htext⟩ := h.sexpr hnames
  rw [← htext, hbare.readOne_text]

/-- Terms are read from the lines that they are printed on. -/
theorem readingOfText_lines {ts : List Term} (h : ∀ t ∈ ts, t.Printable table)
    (hnames : ∀ name ∈ table.declared, IsPlainWord name) :
    Reading.ofText (String.intercalate "\n" (ts.map text)) = ⟨ts.map Term.sexpr, none⟩ := by
  have htexts : (ts.map Term.sexpr).map SExpr.text = ts.map text := by
    rw [List.map_map]
    exact List.map_congr_left fun t ht => ((h t ht).sexpr hnames).2
  rw [← htexts]
  refine SExpr.ofText_lines fun s hs a ha => ?_
  obtain ⟨t, ht, rfl⟩ := List.mem_map.mp hs
  exact (((h t ht).sexpr hnames).1 a ha).legible

end Term

end SmtScript
