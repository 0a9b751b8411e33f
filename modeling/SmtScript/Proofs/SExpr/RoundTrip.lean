import SmtScript.Proofs.SExpr.Atom
import SmtScript.Proofs.SExpr.Reader

/-!
Reading the text of an S-expression.

The text of an S-expression is read back as the S-expression exactly if its atoms are legible and
hold no carriage return, `SExpr.readOne_text_iff`.
-/

namespace SmtScript

namespace SExpr

variable {s : SExpr} {items : List SExpr} {c : Char} {rest : List Char} {later : List String}
  {mode : Lexer.Mode}

/-! ### Texts of lists -/

/-- What stands between the parentheses of a list. -/
def inner (items : List SExpr) : List Char := (String.intercalate " " (texts items)).toList

theorem toList_text_list (items : List SExpr) :
    (SExpr.list items).text.toList = '(' :: inner items ++ [')'] := by
  simp [text, inner]

theorem inner_nil : inner [] = [] := rfl

theorem inner_singleton (s : SExpr) : inner [s] = s.text.toList := by
  simp [inner, texts]

theorem inner_cons_cons (s s' : SExpr) (items : List SExpr) :
    inner (s :: s' :: items) = s.text.toList ++ ' ' :: inner (s' :: items) := by
  simp [inner, texts]

/-! ### Reading texts with legible atoms -/

theorem read_blank : Lexer.read .between (' ' :: rest) = Lexer.read .between rest := by
  have hstep : Lexer.step .between ' ' = .next [] .between := rfl
  simp [Lexer.read_cons hstep]

theorem read_parenthesis (hc : c = '(' ∨ c = ')') :
    Lexer.read .between (c :: rest) =
      Lexer.after [String.singleton c] (Lexer.read .between rest) := by
  have hstep : Lexer.step .between c = .next [String.singleton c] .between := by
    rcases hc with rfl | rfl <;> rfl
  rw [Lexer.read_cons hstep, Lexer.after]

mutual

/-- The text of a tree is read as its tokens. -/
theorem read_text : ∀ {s : SExpr} {c : Char} {rest : List Char}, (∀ a ∈ s.atoms, Legible a) →
    Lexer.Separator c → Lexer.read .between (s.text.toList ++ c :: rest) =
      Lexer.after s.tokens (Lexer.read .between (c :: rest))
  | .atom _, _, _, hs, hc => Lexer.read_atomText (hs _ (List.mem_singleton_self _)) hc
  | .list items, _, _, hs, _ => by
    rw [toList_text_list, List.cons_append, List.cons_append, read_parenthesis (.inl rfl),
      List.append_assoc, List.singleton_append, read_inner hs, read_parenthesis (.inr rfl)]
    simp [tokens]

theorem read_inner : ∀ {items : List SExpr} {rest : List Char},
    (∀ a ∈ atomsAll items, Legible a) → Lexer.read .between (inner items ++ ')' :: rest) =
      Lexer.after (tokensAll items) (Lexer.read .between (')' :: rest))
  | [], _, _ => by simp [inner_nil, tokensAll]
  | [s], _, hitems => by
    rw [inner_singleton, read_text (by simpa [atomsAll] using hitems) (.inr (.inl rfl))]
    simp [tokensAll]
  | s :: s' :: items, _, hitems => by
    obtain ⟨hs, hitems⟩ := List.forall_mem_append.mp hitems
    rw [inner_cons_cons, List.append_assoc, List.cons_append, read_text hs (.inl rfl), read_blank,
      read_inner hitems]
    simp [tokensAll]

end

/-! ### Atoms of texts that are read back -/

mutual

/-- The atoms of a tree whose text is read as its tokens are legible. -/
theorem legible_of_read_text : ∀ {s : SExpr} {c : Char} {rest : List Char} {later : List String},
    s.Spelled → Lexer.Separator c →
    Lexer.read .between (s.text.toList ++ c :: rest) = some (s.tokens ++ later, mode) →
    ∀ a ∈ s.atoms, Legible a
  | .atom text, _, _, _, hs, _, h => by
    obtain ⟨hopen, hclose⟩ := hs text (List.mem_singleton_self _)
    simpa [atoms] using Lexer.legible_of_read hopen hclose h
  | .list items, _, _, later, hs, _, h => by
    have htokens : (SExpr.list items).tokens ++ later =
        [String.singleton '('] ++ (tokensAll items ++ ")" :: later) := by
      simp only [tokens, List.cons_append, List.append_assoc]
      rfl
    rw [toList_text_list, List.cons_append, List.cons_append, read_parenthesis (.inl rfl),
      List.append_assoc, List.singleton_append, htokens] at h
    exact legible_of_read_inner (spelled_list.mp hs) (Lexer.of_after h)

theorem legible_of_read_inner : ∀ {items : List SExpr} {rest : List Char} {later : List String},
    (∀ s ∈ items, s.Spelled) →
    Lexer.read .between (inner items ++ ')' :: rest) = some (tokensAll items ++ later, mode) →
    ∀ a ∈ atomsAll items, Legible a
  | [], _, _, _, _ => by simp [atomsAll]
  | [s], _, _, hitems, h => by
    rw [inner_singleton] at h
    simpa [atomsAll] using
      legible_of_read_text (hitems s (by simp)) (.inr (.inl rfl)) (by simpa [tokensAll] using h)
  | s :: s' :: items, _, _, hitems, h => by
    rw [inner_cons_cons, List.append_assoc, List.cons_append, tokensAll, List.append_assoc] at h
    have hs := legible_of_read_text (hitems s (by simp)) (.inl rfl) h
    rw [read_text hs (.inl rfl), read_blank] at h
    refine List.forall_mem_append.mpr ⟨hs, ?_⟩
    exact legible_of_read_inner (fun s hs => hitems s (.tail _ hs)) (Lexer.of_after h)

end

/-! ### Carriage returns -/

theorem not_mem_unifyLineEnds (chars : List Char) : '\r' ∉ unifyLineEnds chars := by
  fun_induction unifyLineEnds chars with
  | case1 => simp
  | case2 rest ih => simpa using ih
  | case3 c rest _ ih =>
    by_cases hc : c = '\r'
    · simp [hc, ih]
    · simp [hc, ih, Ne.symm hc]

theorem unifyLineEnds_of_not_mem {chars : List Char} (h : '\r' ∉ chars) :
    unifyLineEnds chars = chars := by
  fun_induction unifyLineEnds chars with
  | case1 => rfl
  | case2 rest ih => simp at h
  | case3 c rest _ ih =>
    obtain ⟨hc, hrest⟩ := not_or.mp (mt List.mem_cons.mpr h)
    simp [Ne.symm hc, ih hrest]

mutual

/-- The atoms of a tree are among its tokens. -/
theorem atoms_subset_tokens : ∀ s : SExpr, s.atoms ⊆ s.tokens
  | .atom _ => List.Subset.refl _
  | .list items =>
    List.Subset.trans (atomsAll_subset_tokensAll items)
      (List.Subset.trans (List.subset_append_left _ _) (List.subset_cons_self _ _))

theorem atomsAll_subset_tokensAll : ∀ items : List SExpr, atomsAll items ⊆ tokensAll items
  | [] => List.Subset.refl _
  | s :: rest =>
    List.append_subset.mpr
      ⟨List.subset_append_of_subset_left _ (atoms_subset_tokens s),
        List.subset_append_of_subset_right _ (atomsAll_subset_tokensAll rest)⟩

end

mutual

/-- A text has only the characters of its atoms and those that spell lists and bars. -/
theorem exists_atom_of_mem_text {c : Char} (hc : c ∉ ['(', ')', ' ', '|']) :
    ∀ {s : SExpr}, c ∈ s.text.toList → ∃ a ∈ s.atoms, c ∈ a.toList
  | .atom a, h => by
    refine ⟨a, List.mem_singleton_self _, ?_⟩
    rcases atomText_cases a with ⟨htext, -⟩ | ⟨htext, -⟩
    · simp_all [text]
    · simpa [text, htext] using h
  | .list items, h => by
    rw [toList_text_list] at h
    exact exists_atom_of_mem_inner hc (by simp_all)

theorem exists_atom_of_mem_inner {c : Char} (hc : c ∉ ['(', ')', ' ', '|']) :
    ∀ {items : List SExpr}, c ∈ inner items → ∃ a ∈ atomsAll items, c ∈ a.toList
  | [], h => by simp [inner_nil] at h
  | [s], h => by
    rw [inner_singleton] at h
    simpa [atomsAll] using exists_atom_of_mem_text hc h
  | s :: s' :: items, h => by
    rw [inner_cons_cons, List.mem_append, List.mem_cons] at h
    rcases h with h | rfl | h
    · obtain ⟨a, ha, hmem⟩ := exists_atom_of_mem_text hc h
      exact ⟨a, List.mem_append_left _ ha, hmem⟩
    · simp at hc
    · obtain ⟨a, ha, hmem⟩ := exists_atom_of_mem_inner hc h
      exact ⟨a, List.mem_append_right _ ha, hmem⟩

end

/-! ### The round trip -/

/-- A text that is read as one tree. -/
theorem readOne_eq_ok_iff {input : String} :
    readOne input = .ok s ↔ (Reading.ofText input).failure = none ∧
      (Reading.ofText input).exprs = [s] := by
  unfold readOne
  generalize Reading.ofText input = reading
  obtain ⟨exprs, failure⟩ := reading
  cases failure with
  | some failure => simp
  | none =>
    match exprs with
    | [] => simp
    | [expr] => simp
    | _ :: _ :: _ => simp

/-- A text that has the tokens of several trees is read as these. -/
theorem ofText_of_read {input : String} (hitems : ∀ s ∈ items, s.Spelled)
    (hread : Lexer.read .between (unifyLineEnds input.toList ++ ['\n']) =
      some (tokensAll items, mode)) : Reading.ofText input = ⟨items, none⟩ := by
  obtain ⟨htokens, hending⟩ := Lexer.scan_of_read hread .start
  have hbuild := Reading.build_all (Scan.ofText input).ending [] hitems htokens
  rw [List.append_nil] at hbuild
  rw [Reading.ofText, Reading.ofScan]
  refine hbuild.trans ?_
  rw [show (Scan.ofText input).ending = _ from hending]
  simp [Reading.build, Reading.prepend]

/-- A text is read as one tree exactly if it has the tokens of this tree. -/
theorem readOne_eq_ok_iff_read {input : String} :
    readOne input = .ok s ↔ s.Spelled ∧ ∃ mode,
      Lexer.read .between (unifyLineEnds input.toList ++ ['\n']) = some (s.tokens, mode) := by
  have hsingle : tokensAll [s] = s.tokens := by simp [tokensAll]
  rw [readOne_eq_ok_iff]
  constructor
  · rintro ⟨hfailure, hexprs⟩
    cases hending : (Scan.ofText input).ending with
    | none =>
      rw [Reading.ofText, Reading.ofScan, hending] at hfailure
      exact absurd hfailure (Reading.failure_build_none _ _)
    | some position =>
      have hspells : Reading.Spells position (Scan.ofText input).tokens (Reading.ofText input) :=
        Reading.spells_ofScan hending
      obtain ⟨ts, mode, hread⟩ := Lexer.read_of_scan hending
      refine ⟨hspells.spelled s (by simp [hexprs]), mode, ?_⟩
      obtain ⟨trees, left, htokens, htrees, hleft⟩ := hspells.split
      rw [hfailure] at hleft
      cases hleft
      have hts : (Scan.ofText input).tokens.map Token.text = ts :=
        (Lexer.scan_of_read hread .start).1
      rw [hread, ← hts, htokens, List.append_nil, htrees, hexprs, hsingle]
  · rintro ⟨hspelled, mode, hread⟩
    rw [← hsingle] at hread
    have hread : Reading.ofText input = ⟨[s], none⟩ :=
      ofText_of_read (by simpa using hspelled) hread
    simp [hread]

/-- The carriage returns of a text are those of its atoms. -/
theorem unifyLineEnds_text (hatoms : ∀ a ∈ s.atoms, '\r' ∉ a.toList) :
    unifyLineEnds s.text.toList = s.text.toList := by
  refine unifyLineEnds_of_not_mem fun hmem => ?_
  obtain ⟨a, ha, hmem⟩ := exists_atom_of_mem_text (by decide) hmem
  exact hatoms a ha hmem

/-- An S-expression of legible atoms without carriage returns is read from its text. -/
theorem readOne_text (h : ∀ a ∈ s.atoms, '\r' ∉ a.toList ∧ Legible a) :
    readOne s.text = .ok s := by
  rw [readOne_eq_ok_iff_read]
  refine ⟨fun a ha => (h a ha).2.ne_parenthesis, .between, ?_⟩
  rw [unifyLineEnds_text fun a ha => (h a ha).1,
    read_text (fun a ha => (h a ha).2) (.inr (.inr rfl))]
  simp [Lexer.read, Lexer.step, Lexer.stepBetween, Lexer.after, Lexer.isBlank]

/-- The atoms of an S-expression that is read from its text are legible and hold no carriage
return. -/
theorem legible_of_readOne_text (h : readOne s.text = .ok s) :
    ∀ a ∈ s.atoms, '\r' ∉ a.toList ∧ Legible a := by
  obtain ⟨hspelled, mode, hread⟩ := readOne_eq_ok_iff_read.mp h
  have hatoms : ∀ a ∈ s.atoms, '\r' ∉ a.toList := by
    intro a ha hmem
    have hchars : ∀ c ∈ unifyLineEnds s.text.toList ++ ['\n'], c ≠ '\r' := by
      rintro c hc rfl
      simp [not_mem_unifyLineEnds] at hc
    exact Lexer.read_forall hchars (by simp [Lexer.Mode.held]) hread a
      (atoms_subset_tokens s ha) '\r' hmem rfl
  rw [unifyLineEnds_text hatoms, ← List.append_nil s.tokens] at hread
  have hlegible := legible_of_read_text hspelled (.inr (.inr rfl)) hread
  exact fun a ha => ⟨hatoms a ha, hlegible a ha⟩

/-- The text of an S-expression is read back as the S-expression exactly if its atoms are legible
and hold no carriage return. -/
theorem readOne_text_iff (s : SExpr) :
    readOne s.text = .ok s ↔ ∀ a ∈ s.atoms, '\r' ∉ a.toList ∧ Legible a :=
  ⟨legible_of_readOne_text, readOne_text⟩

/-! ### Several texts -/

/-- Texts, each on a line of its own. -/
def lines (items : List SExpr) : List Char := (String.intercalate "\n" (items.map text)).toList

theorem lines_cons_cons (s s' : SExpr) (items : List SExpr) :
    lines (s :: s' :: items) = s.text.toList ++ '\n' :: lines (s' :: items) := by
  simp [lines]

theorem read_newline : Lexer.read .between ('\n' :: rest) = Lexer.read .between rest := by
  have hstep : Lexer.step .between '\n' = .next [] .between := rfl
  simp [Lexer.read_cons hstep]

/-- The texts of several trees are read as their tokens. -/
theorem read_lines : ∀ {items : List SExpr}, (∀ s ∈ items, ∀ a ∈ s.atoms, Legible a) →
    Lexer.read .between (lines items ++ ['\n']) = some (tokensAll items, .between)
  | [], _ => rfl
  | [s], h => by
    have hs := h s List.mem_cons_self
    have hlines : lines [s] = s.text.toList := by simp [lines]
    rw [hlines, read_text hs (.inr (.inr rfl)), read_newline]
    simp [Lexer.read, Lexer.after, tokensAll]
  | s :: s' :: items, h => by
    obtain ⟨hs, hitems⟩ := List.forall_mem_cons.mp h
    rw [lines_cons_cons, List.append_assoc, List.cons_append, read_text hs (.inr (.inr rfl)),
      read_newline, read_lines hitems]
    simp [Lexer.after, tokensAll]

theorem mem_lines {c : Char} (hc : c ≠ '\n') : ∀ {items : List SExpr}, c ∈ lines items →
    ∃ s ∈ items, c ∈ s.text.toList
  | [], h => by simp [lines] at h
  | [s], h => ⟨s, List.mem_cons_self, by simpa [lines] using h⟩
  | s :: s' :: items, h => by
    rw [lines_cons_cons, List.mem_append, List.mem_cons] at h
    rcases h with h | rfl | h
    · exact ⟨s, List.mem_cons_self, h⟩
    · exact absurd rfl hc
    · obtain ⟨s, hs, h⟩ := mem_lines hc h
      exact ⟨s, List.mem_cons_of_mem _ hs, h⟩

/-- Texts of S-expressions with legible atoms are read back from the lines that they are on. -/
theorem ofText_lines (h : ∀ s ∈ items, ∀ a ∈ s.atoms, '\r' ∉ a.toList ∧ Legible a) :
    Reading.ofText (String.intercalate "\n" (items.map text)) = ⟨items, none⟩ := by
  have hreturn : '\r' ∉ lines items := fun hmem => by
    obtain ⟨s, hs, hmem⟩ := mem_lines (by decide) hmem
    obtain ⟨a, ha, hmem⟩ := exists_atom_of_mem_text (by decide) hmem
    exact (h s hs a ha).1 hmem
  have hread : Lexer.read .between (unifyLineEnds (lines items) ++ ['\n']) =
      some (tokensAll items, .between) := by
    rw [unifyLineEnds_of_not_mem hreturn, read_lines fun s hs a ha => (h s hs a ha).2]
  exact ofText_of_read (fun s hs a ha => (h s hs a ha).2.ne_parenthesis) hread

end SExpr

end SmtScript
