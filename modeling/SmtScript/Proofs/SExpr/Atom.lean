import SmtScript.Proofs.SExpr.Lexer
import SmtScript.SExpr.Basic

/-!
Atoms in a text.

`Legible` describes the atoms that are still there when their text is read: string literals, words,
and what can stand between bars. The reader completes a legible atom at the separator after it,
`Lexer.read_atomText`. The text of any other atom is never read as the atom, whatever follows,
`Lexer.legible_of_read`.
-/

namespace SmtScript

/-! ### Legible atoms -/

/-- Characters in which double quotes stand in pairs only. -/
inductive Paired : List Char → Prop
  | nil : Paired []
  | char {c : Char} {rest : List Char} (hc : c ≠ '"') (h : Paired rest) : Paired (c :: rest)
  | pair {rest : List Char} (h : Paired rest) : Paired ('"' :: '"' :: rest)

theorem Paired.append {as bs : List Char} (has : Paired as) (hbs : Paired bs) :
    Paired (as ++ bs) := by
  induction has with
  | nil => exact hbs
  | char hc _ ih => exact .char hc ih
  | pair _ ih => exact .pair ih

/-- A string literal. -/
def IsLiteral (chars : List Char) : Prop :=
  ∃ body, Paired body ∧ chars = '"' :: body ++ ['"']

/-- A word. -/
def IsWord (chars : List Char) : Prop :=
  chars ≠ [] ∧ ∀ c ∈ chars, c ∉ [' ', '\t', '\n', '(', ')', '|', ';', '"']

/-- What is written between bars and read again without them. -/
structure IsQuotable (chars : List Char) : Prop where
  breaks : chars = [] ∨ ∃ c ∈ chars, c ∈ [' ', '\t', '\n', '(', ')', ';']
  bar : '|' ∉ chars
  backslash : '\\' ∉ chars
  opening : chars ≠ ['(']
  closing : chars ≠ [')']
  unquoted : ¬ (chars.head? = some '"' ∧ chars.getLast? = some '"')

/-- An atom whose text is read as the atom. -/
def Legible (atom : String) : Prop :=
  IsLiteral atom.toList ∨ IsWord atom.toList ∨ IsQuotable atom.toList

variable {chars rest : List Char} {atom : String}

theorem isStringLiteral_of_isLiteral (h : IsLiteral atom.toList) :
    isStringLiteral atom = true := by
  obtain ⟨body, -, hchars⟩ := h
  simp [isStringLiteral, hchars, List.getLast?_cons, List.getLast?_append]

/-- A parenthesis is no legible atom. -/
theorem Legible.ne_parenthesis (h : Legible atom) : atom ≠ "(" ∧ atom ≠ ")" := by
  rcases h with ⟨body, -, hchars⟩ | ⟨-, hchars⟩ | hquotable
  · constructor <;> rintro rfl <;> simp at hchars
  · constructor <;> rintro rfl <;> simp at hchars
  · refine ⟨?_, ?_⟩
    · rintro rfl
      exact hquotable.opening rfl
    · rintro rfl
      exact hquotable.closing rfl

theorem endsWord_eq_false_iff {c : Char} :
    Lexer.endsWord c = false ↔ c ∉ [' ', '\t', '\n', '(', ')', '|', ';', '"'] := by
  simp only [Lexer.endsWord, Lexer.isBlank, List.mem_cons, List.not_mem_nil]
  grind

/-! ### Their texts -/

namespace SExpr

/-- An atom is written between bars or as it is. -/
theorem atomText_cases (atom : String) :
    (atomText atom).toList = '|' :: atom.toList ++ ['|'] ∧ isStringLiteral atom = false ∧
        (atom.toList = [] ∨ ∃ c ∈ atom.toList, breaksAtom c = true) ∨
      atomText atom = atom ∧ atom.toList ≠ [] ∧
        (isStringLiteral atom = true ∨ ∀ c ∈ atom.toList, breaksAtom c = false) := by
  have hempty : atom.isEmpty = true ↔ atom.toList = [] := by simp
  cases hliteral : isStringLiteral atom with
  | true =>
    refine .inr ⟨by simp [atomText, hliteral], fun hnil => ?_, .inl rfl⟩
    simp [isStringLiteral, hnil] at hliteral
  | false =>
    by_cases hbreaks : atom.toList = [] ∨ ∃ c ∈ atom.toList, breaksAtom c = true
    · refine .inl ⟨?_, rfl, hbreaks⟩
      have hbars : (atom.isEmpty || atom.toList.any breaksAtom) = true := by
        rwa [Bool.or_eq_true_iff, hempty, List.any_eq_true]
      simp [atomText, hliteral, hbars]
    · have hbars : (atom.isEmpty || atom.toList.any breaksAtom) = false := by
        rwa [← Bool.not_eq_true, Bool.or_eq_true_iff, hempty, List.any_eq_true]
      refine .inr ⟨by simp [atomText, hliteral, hbars], fun hnil => hbreaks (.inl hnil), .inr ?_⟩
      exact fun c hc => Bool.eq_false_iff.mpr fun hbreak => hbreaks (.inr ⟨c, hc, hbreak⟩)

theorem atomText_of_isLiteral (h : IsLiteral atom.toList) : atomText atom = atom := by
  simp [atomText, isStringLiteral_of_isLiteral h]

theorem atomText_of_isWord (h : IsWord atom.toList) : atomText atom = atom := by
  rcases atomText_cases atom with ⟨-, -, hnil | ⟨c, hc, hbreak⟩⟩ | ⟨htext, -⟩
  · exact absurd hnil h.1
  · have hword := h.2 c hc
    simp only [breaksAtom, List.contains_eq_mem, decide_eq_true_eq, List.mem_cons,
      List.not_mem_nil, or_false] at hbreak
    rcases hbreak with rfl | rfl | rfl | rfl | rfl | rfl | rfl <;> exact absurd hword (by decide)
  · exact htext

theorem atomText_of_isQuotable (h : IsQuotable atom.toList) :
    (atomText atom).toList = '|' :: atom.toList ++ ['|'] := by
  rcases atomText_cases atom with ⟨htext, -⟩ | ⟨-, hnil, hliteral | hbreaks⟩
  · exact htext
  · have hquotes : atom.toList.head? = some '"' ∧ atom.toList.getLast? = some '"' := by
      simp [isStringLiteral] at hliteral
      exact ⟨hliteral.1.2, hliteral.2⟩
    exact absurd hquotes h.unquoted
  · obtain hnil' | ⟨c, hc, hbreak⟩ := h.breaks
    · exact absurd hnil' hnil
    · have hkept := hbreaks c hc
      simp only [List.mem_cons, List.not_mem_nil, or_false] at hbreak
      rcases hbreak with rfl | rfl | rfl | rfl | rfl | rfl <;> exact absurd hkept (by decide)

end SExpr

namespace Lexer

variable {mode : Mode} {reversed body : List Char} {odd : Bool} {c : Char} {first : String}
  {later : List String}

/-- Puts tokens in front of what is read. -/
def after (front : List String) (found : Option (List String × Mode)) :
    Option (List String × Mode) :=
  found.map fun p => (front ++ p.1, p.2)

@[simp] theorem after_nil (found : Option (List String × Mode)) : after [] found = found := by
  simp [after]

@[simp] theorem after_after (front front' : List String) (found : Option (List String × Mode)) :
    after front (after front' found) = after (front ++ front') found := by
  simp [after, Function.comp_def]

/-- A reading that begins with some tokens goes on with the others. -/
theorem of_after {front : List String} {found : Option (List String × Mode)}
    (h : after front found = some (front ++ later, mode)) : found = some (later, mode) := by
  obtain ⟨⟨ts, mode'⟩, rfl, heq⟩ := Option.map_eq_some_iff.mp h
  obtain ⟨hts, rfl⟩ := Prod.mk.inj heq
  exact congrArg some (Prod.ext (List.append_cancel_left hts) rfl)

/-- A token that a character completes, which is read again. -/
theorem read_complete (h : step mode c = complete reversed c) :
    read mode (c :: rest) = after [String.ofList reversed.reverse] (read .between (c :: rest)) := by
  have hbetween : step .between c = .next (stepBetween c).1 (stepBetween c).2 := rfl
  have hcomplete : complete reversed c =
      .next (String.ofList reversed.reverse :: (stepBetween c).1) (stepBetween c).2 := rfl
  rw [read_cons (h.trans hcomplete), read_cons hbetween]
  simp [after, Function.comp_def]

theorem first_of_after {token : String} {found : Option (List String × Mode)}
    (h : after [token] found = some (first :: later, mode)) : token = first := by
  obtain ⟨p, -, heq⟩ := Option.map_eq_some_iff.mp h
  exact (List.cons.inj (Prod.mk.inj heq).1).1

/-! ### Reading a legible atom -/

theorem read_word (hbody : ∀ c ∈ body, endsWord c = false) (hc : endsWord c = true) :
    read (.word reversed) (body ++ c :: rest) =
      after [String.ofList (reversed.reverse ++ body)] (read .between (c :: rest)) := by
  induction body generalizing reversed with
  | nil => simpa using read_complete (by simp [step, hc])
  | cons d body ih =>
    obtain ⟨hd, hbody⟩ := List.forall_mem_cons.mp hbody
    have hstep : step (.word reversed) d = .next [] (.word (d :: reversed)) := by
      simp [step, hd]
    rw [List.cons_append, read_cons hstep, ih hbody]
    simp [after, Function.comp_def]

theorem read_paired (hbody : Paired body) :
    read (.literal reversed false) (body ++ rest) =
      read (.literal (body.reverse ++ reversed) false) rest := by
  induction hbody generalizing reversed with
  | nil => rfl
  | @char d body hd _ ih =>
    have hstep : step (.literal reversed false) d = .next [] (.literal (d :: reversed) false) := by
      simp [step, hd]
    rw [List.cons_append, read_cons hstep, ih]
    simp
  | @pair body _ ih =>
    have hfirst : step (.literal reversed false) '"' = .next [] (.literal ('"' :: reversed) true) :=
      rfl
    have hsecond : step (.literal ('"' :: reversed) true) '"' =
        .next [] (.literal ('"' :: '"' :: reversed) false) := rfl
    rw [List.cons_append, List.cons_append, read_cons hfirst, read_cons hsecond, ih]
    simp

theorem read_quoted (hbar : '|' ∉ body) (hbackslash : '\\' ∉ body) :
    read (.quoted reversed) (body ++ '|' :: rest) =
      after [String.ofList (reversed.reverse ++ body)] (read .between rest) := by
  induction body generalizing reversed with
  | nil =>
    have hstep : step (.quoted reversed) '|' =
        .next [String.ofList reversed.reverse] .between := rfl
    rw [List.nil_append, read_cons hstep, List.append_nil]
    rfl
  | cons d body ih =>
    have hstep : step (.quoted reversed) d = .next [] (.quoted (d :: reversed)) := by
      have hd : d ≠ '|' ∧ d ≠ '\\' := by grind
      simp [step, hd]
    rw [List.cons_append, read_cons hstep,
      ih (fun h => hbar (.tail _ h)) (fun h => hbackslash (.tail _ h))]
    simp [after, Function.comp_def]

/-- What stands after an atom in a text. -/
def Separator (c : Char) : Prop := c = ' ' ∨ c = ')' ∨ c = '\n'

/-- A legible atom is read at the separator after its text. -/
theorem read_atomText (h : Legible atom) (hc : Separator c) :
    read .between ((SExpr.atomText atom).toList ++ c :: rest) =
      after [atom] (read .between (c :: rest)) := by
  rcases h with hliteral | hword | hquotable
  · have hquote : c ≠ '"' := by rcases hc with rfl | rfl | rfl <;> decide
    rw [SExpr.atomText_of_isLiteral hliteral]
    obtain ⟨body, hbody, hchars⟩ := hliteral
    have hstart : step .between '"' = .next [] (.literal ['"'] false) := rfl
    have hlast : step (.literal (body.reverse ++ ['"']) false) '"' =
        .next [] (.literal ('"' :: (body.reverse ++ ['"'])) true) := rfl
    have hend : step (.literal ('"' :: (body.reverse ++ ['"'])) true) c =
        complete ('"' :: (body.reverse ++ ['"'])) c := by simp [step, hquote]
    have hatom : String.ofList ('"' :: (body.reverse ++ ['"'])).reverse = atom := by
      rw [← String.ofList_toList (s := atom), hchars]
      simp
    rw [hchars, List.cons_append, List.cons_append, read_cons hstart, List.append_assoc,
      read_paired hbody, List.singleton_append, read_cons hlast, read_complete hend, hatom]
    simp [after, Function.comp_def]
  · rw [SExpr.atomText_of_isWord hword]
    obtain ⟨hnil, hchars⟩ := hword
    obtain ⟨d, body, hcons⟩ := List.exists_cons_of_ne_nil hnil
    have hwords : ∀ c ∈ d :: body, endsWord c = false := fun c hc =>
      endsWord_eq_false_iff.mpr (hchars c (hcons ▸ hc))
    have hstart : step .between d = .next [] (.word [d]) := by
      have hd := hwords d List.mem_cons_self
      simp only [endsWord, Bool.or_eq_false_iff, beq_eq_false_iff_ne] at hd
      simp [step, stepBetween, hd]
    have hends : endsWord c = true := by rcases hc with rfl | rfl | rfl <;> rfl
    have hatom : String.ofList ([d].reverse ++ body) = atom := by
      rw [← String.ofList_toList (s := atom), hcons]
      rfl
    rw [hcons, List.cons_append, read_cons hstart,
      read_word (fun c hc => hwords c (.tail _ hc)) hends, hatom]
    simp [after, Function.comp_def]
  · rw [SExpr.atomText_of_isQuotable hquotable]
    have hstart : step .between '|' = .next [] (.quoted []) := rfl
    rw [List.cons_append, List.cons_append, List.append_assoc, List.singleton_append,
      read_cons hstart, read_quoted hquotable.bar hquotable.backslash]
    simp [after, Function.comp_def]

/-! ### What is read -/

/-- A token that a word is the start of. -/
theorem isWord_of_read (hword : IsWord reversed)
    (h : read (.word reversed) chars = some (first :: later, mode)) : IsWord first.toList := by
  induction chars generalizing reversed with
  | nil => simp [read] at h
  | cons c rest ih =>
    cases hends : endsWord c with
    | true =>
      have hstep : step (.word reversed) c = complete reversed c := by simp [step, hends]
      rw [read_complete hstep] at h
      obtain rfl := first_of_after h
      simpa [IsWord] using hword
    | false =>
      have hstep : step (.word reversed) c = .next [] (.word (c :: reversed)) := by
        simp [step, hends]
      rw [read_cons hstep] at h
      refine ih ⟨by simp, List.forall_mem_cons.mpr ⟨endsWord_eq_false_iff.mp hends, hword.2⟩⟩ ?_
      simpa using h

/-- The start of a string literal. A literal that ends here has an odd last quote. -/
def Opened (reversed : List Char) (odd : Bool) : Prop :=
  ∃ body, Paired body ∧ reversed.reverse = '"' :: body ++ if odd then ['"'] else []

/-- A token that a string literal is the start of. -/
theorem isLiteral_of_read (hopened : Opened reversed odd)
    (h : read (.literal reversed odd) chars = some (first :: later, mode)) :
    IsLiteral first.toList := by
  induction chars generalizing reversed odd with
  | nil => simp [read] at h
  | cons c rest ih =>
    obtain ⟨body, hbody, hreversed⟩ := hopened
    by_cases hquote : c = '"'
    · have hstep : step (.literal reversed odd) c = .next [] (.literal (c :: reversed) (!odd)) := by
        simp [step, hquote]
      rw [read_cons hstep] at h
      refine ih ?_ (by simpa using h)
      cases odd with
      | false => exact ⟨body, hbody, by simp [hreversed, hquote]⟩
      | true => exact ⟨_, hbody.append (.pair .nil), by simp [hreversed, hquote]⟩
    · cases odd with
      | false =>
        have hstep : step (.literal reversed false) c =
            .next [] (.literal (c :: reversed) false) := by simp [step, hquote]
        rw [read_cons hstep] at h
        have hlonger : Opened (c :: reversed) false :=
          ⟨body ++ [c], hbody.append (.char hquote .nil), by simp [hreversed]⟩
        exact ih hlonger (by simpa using h)
      | true =>
        have hstep : step (.literal reversed true) c = complete reversed c := by
          simp [step, hquote]
        rw [read_complete hstep] at h
        obtain rfl := first_of_after h
        exact ⟨body, hbody, by simpa using hreversed⟩

/-- The characters read after a bar are the first ones of the token. -/
theorem prefix_of_read {start : Mode} (hstart : start = .quoted reversed ∨ start = .escape reversed)
    (h : read start chars = some (first :: later, mode)) : reversed.reverse <+: first.toList := by
  induction chars generalizing start reversed with
  | nil => simp [read] at h
  | cons c rest ih =>
    have hlonger (h : read (.quoted (c :: reversed)) rest = some (first :: later, mode)) :
        reversed.reverse <+: first.toList :=
      (List.prefix_append _ [c]).trans (by simpa using ih (.inl rfl) h)
    rcases hstart with rfl | rfl
    · by_cases hbar : c = '|'
      · have hstep :
            step (.quoted reversed) c = .next [String.ofList reversed.reverse] .between := by
          simp [step, hbar]
        rw [read_cons hstep] at h
        obtain rfl := first_of_after h
        simp
      by_cases hbackslash : c = '\\'
      · have hstep : step (.quoted reversed) c = .next [] (.escape reversed) := by
          simp [step, hbackslash]
        rw [read_cons hstep] at h
        exact ih (.inr rfl) (by simpa using h)
      · have hstep : step (.quoted reversed) c = .next [] (.quoted (c :: reversed)) := by
          simp [step, hbar, hbackslash]
        rw [read_cons hstep] at h
        exact hlonger (by simpa using h)
    · by_cases hescaped : c = '|' ∨ c = '\\'
      · have hstep : step (.escape reversed) c = .next [] (.quoted (c :: reversed)) := by
          simp [step, hescaped]
        rw [read_cons hstep] at h
        exact hlonger (by simpa using h)
      · have hstep : step (.escape reversed) c = .badEscape := by
          simpa [step] using hescaped
        simp [read, hstep] at h

/-- Between bars, a backslash goes with the character after it. -/
theorem read_escaped {d : Char}
    (h : read (.quoted reversed) ('\\' :: d :: rest) = some (first :: later, mode)) :
    read (.quoted (d :: reversed)) rest = some (first :: later, mode) := by
  have hstep : step (.quoted reversed) '\\' = .next [] (.escape reversed) := rfl
  rw [read_cons hstep] at h
  by_cases hescaped : d = '|' ∨ d = '\\'
  · have hnext : step (.escape reversed) d = .next [] (.quoted (d :: reversed)) := by
      simp [step, hescaped]
    rw [read_cons hnext] at h
    simpa using h
  · have hnext : step (.escape reversed) d = .badEscape := by simpa [step] using hescaped
    simp [read, hnext] at h

/-- The next character of a token that is not complete. -/
theorem next_of_read {d : Char} (hfirst : first.toList = reversed.reverse ++ c :: body)
    (h : read (.quoted (d :: reversed)) rest = some (first :: later, mode)) : d = c := by
  have hprefix := prefix_of_read (.inl rfl) h
  rw [hfirst, List.reverse_cons, List.prefix_append_right_inj] at hprefix
  exact (List.cons_prefix_cons.mp hprefix).1

/-- A token that is not complete goes on after a bar only if this is escaped. -/
theorem not_read_of_bar (hfirst : first.toList = reversed.reverse ++ c :: body) :
    read (.quoted reversed) ('|' :: rest) ≠ some (first :: later, mode) := by
  intro h
  have hstep : step (.quoted reversed) '|' = .next [String.ofList reversed.reverse] .between := rfl
  rw [read_cons hstep] at h
  obtain rfl := first_of_after h
  simp at hfirst

/-- A character that is neither a bar nor a backslash is read as it is. -/
theorem read_plain (hbar : c ≠ '|') (hbackslash : c ≠ '\\')
    (h : read (.quoted reversed) (c :: rest) = some (first :: later, mode)) :
    read (.quoted (c :: reversed)) rest = some (first :: later, mode) := by
  have hstep : step (.quoted reversed) c = .next [] (.quoted (c :: reversed)) := by
    simp [step, hbar, hbackslash]
  rw [read_cons hstep] at h
  simpa using h

/-- A token that has lost a backslash does not find it again: of the `k + 1` backslashes in front of
the characters still to come, none has been read. -/
theorem not_read_of_missing (body : List Char) {reversed : List Char} {k : Nat}
    (hfirst : first.toList = reversed.reverse ++ List.replicate (k + 1) '\\' ++ body) :
    read (.quoted reversed) (body ++ '|' :: rest) ≠ some (first :: later, mode) := by
  intro h
  have hmissing : first.toList =
      reversed.reverse ++ '\\' :: (List.replicate k '\\' ++ body) := by
    simpa [List.replicate_succ] using hfirst
  match body with
  | [] => exact not_read_of_bar hmissing h
  | c :: body =>
    by_cases hbar : c = '|'
    · subst hbar
      exact not_read_of_bar hmissing h
    by_cases hbackslash : c = '\\'
    · subst hbackslash
      match body with
      | [] => exact absurd (next_of_read hmissing (read_escaped h)) (by decide)
      | d :: body =>
        have hescaped := read_escaped h
        obtain rfl := next_of_read hmissing hescaped
        have hlonger : first.toList =
            ('\\' :: reversed).reverse ++ List.replicate (k + 1 + 1) '\\' ++ body := by
          rw [hmissing, List.replicate_succ', List.replicate_succ']
          simp
        exact not_read_of_missing body hlonger hescaped
    · exact hbackslash (next_of_read hmissing (read_plain hbar hbackslash h))

/-- A token that is read back from between bars has neither bars nor backslashes. -/
theorem plain_of_read (reversed : List Char) {body : List Char}
    (hfirst : first.toList = reversed.reverse ++ body)
    (h : read (.quoted reversed) (body ++ '|' :: rest) = some (first :: later, mode)) :
    '|' ∉ body ∧ '\\' ∉ body := by
  induction body generalizing reversed with
  | nil => simp
  | cons c body ih =>
    by_cases hbar : c = '|'
    · subst hbar
      exact absurd h (not_read_of_bar hfirst)
    by_cases hbackslash : c = '\\'
    · subst hbackslash
      match body with
      | [] => exact absurd (next_of_read hfirst (read_escaped h)) (by decide)
      | d :: body =>
        have hescaped := read_escaped h
        obtain rfl := next_of_read hfirst hescaped
        exact absurd hescaped (not_read_of_missing (k := 0) body (by simpa using hfirst))
    · have hread := read_plain hbar hbackslash h
      have hfirst' : first.toList = (c :: reversed).reverse ++ body := by simpa using hfirst
      obtain ⟨hnoBar, hnoBackslash⟩ := ih _ hfirst' hread
      simp [hnoBar, hnoBackslash, Ne.symm hbar, Ne.symm hbackslash]

/-- An atom that is read back from between bars. -/
theorem isQuotable_of_read (hopen : atom ≠ "(") (hclose : atom ≠ ")")
    (hliteral : isStringLiteral atom = false)
    (hbreaks : atom.toList = [] ∨ ∃ c ∈ atom.toList, breaksAtom c = true)
    (h : read (.quoted []) (atom.toList ++ '|' :: rest) = some (atom :: later, mode)) :
    IsQuotable atom.toList := by
  obtain ⟨hbar, hbackslash⟩ := plain_of_read [] (List.nil_append _).symm h
  refine ⟨?_, hbar, hbackslash, fun hchars => ?_, fun hchars => ?_, ?_⟩
  · refine hbreaks.imp_right fun ⟨d, hd, hbreak⟩ => ⟨d, hd, ?_⟩
    have hne : d ≠ '|' := fun heq => hbar (heq ▸ hd)
    simpa [breaksAtom, hne] using hbreak
  · exact hopen (String.toList_injective hchars)
  · exact hclose (String.toList_injective hchars)
  · rintro ⟨hhead, hlast⟩
    have hshort : atom.toList.length < 2 := by
      simpa [isStringLiteral, hhead, hlast] using hliteral
    obtain ⟨body, hbody⟩ := List.head?_eq_some_iff.mp hhead
    obtain rfl : body = [] := by
      rw [hbody, List.length_cons] at hshort
      exact List.eq_nil_of_length_eq_zero (by omega)
    obtain hnil | ⟨d, hd, hbreak⟩ := hbreaks
    · simp [hbody] at hnil
    · obtain rfl : d = '"' := by simpa [hbody] using hd
      exact absurd hbreak (by decide)

/-- An atom that is read back from its own characters. -/
theorem legible_of_read_plain (hnil : atom.toList ≠ [])
    (hbreaks : isStringLiteral atom = true ∨ ∀ c ∈ atom.toList, breaksAtom c = false)
    (h : read .between (atom.toList ++ rest) = some (atom :: later, mode)) : Legible atom := by
  obtain ⟨d, body, hatom⟩ := List.exists_cons_of_ne_nil hnil
  rw [hatom, List.cons_append] at h
  by_cases hquote : d = '"'
  · subst hquote
    have hstart : step .between '"' = .next [] (.literal ['"'] false) := rfl
    rw [read_cons hstart] at h
    exact .inl (isLiteral_of_read ⟨[], .nil, rfl⟩ (by simpa using h))
  · have hbreak : breaksAtom d = false := by
      refine hbreaks.elim (fun hliteral => ?_) fun hbreaks => hbreaks d (by simp [hatom])
      simp [isStringLiteral, hatom, hquote] at hliteral
    have hd : d ∉ [' ', '\t', '\n', '(', ')', '|', ';', '"'] := by
      simpa [breaksAtom, hquote] using hbreak
    have hstart : step .between d = .next [] (.word [d]) := by
      have hends := endsWord_eq_false_iff.mpr hd
      simp only [endsWord, Bool.or_eq_false_iff, beq_eq_false_iff_ne] at hends
      simp [step, stepBetween, hends]
    rw [read_cons hstart] at h
    have hword : IsWord [d] := ⟨List.cons_ne_nil _ _, by simpa using hd⟩
    exact .inr (.inl (isWord_of_read hword (by simpa using h)))

/-- An atom whose text is read as the atom, whatever follows, is legible. -/
theorem legible_of_read (hopen : atom ≠ "(") (hclose : atom ≠ ")")
    (h : read .between ((SExpr.atomText atom).toList ++ rest) = some (atom :: later, mode)) :
    Legible atom := by
  rcases SExpr.atomText_cases atom with ⟨htext, hliteral, hbreaks⟩ | ⟨htext, hnil, hbreaks⟩
  · have hstart : step .between '|' = .next [] (.quoted []) := rfl
    rw [htext, List.cons_append, List.cons_append, List.append_assoc, List.singleton_append,
      read_cons hstart] at h
    exact .inr (.inr (isQuotable_of_read hopen hclose hliteral hbreaks (by simpa using h)))
  · rw [htext] at h
    exact legible_of_read_plain hnil hbreaks h

/-! ### Texts without bars -/

/-- What a text without bars can have for a token. -/
def IsUnbarred (token : String) : Prop :=
  token = "(" ∨ token = ")" ∨ IsWord token.toList ∨ IsLiteral token.toList

/-- What is known of a mode that characters without bars lead to. -/
def Mode.Unbarred : Mode → Prop
  | .between | .comment => True
  | .word reversed => IsWord reversed
  | .literal reversed odd => Opened reversed odd
  | .quoted _ | .escape _ => False

theorem stepBetween_unbarred (hc : c ≠ '|') :
    (∀ t ∈ (stepBetween c).1, IsUnbarred t) ∧ (stepBetween c).2.Unbarred := by
  unfold stepBetween
  split_ifs with hblank hopen hclose hquote hcomment
  · exact ⟨by simp, trivial⟩
  · exact ⟨by simp [IsUnbarred], trivial⟩
  · exact ⟨by simp [IsUnbarred], trivial⟩
  · exact ⟨by simp, ⟨[], .nil, rfl⟩⟩
  · exact ⟨by simp, trivial⟩
  · refine ⟨by simp, List.cons_ne_nil _ _, fun d hd => ?_⟩
    obtain rfl := List.mem_singleton.mp hd
    have hends : endsWord d = false := by simp_all [endsWord]
    exact endsWord_eq_false_iff.mp hends

theorem complete_unbarred {completed : List String} (hc : c ≠ '|')
    (hreversed : IsWord reversed.reverse ∨ IsLiteral reversed.reverse)
    (h : complete reversed c = .next completed mode) :
    (∀ t ∈ completed, IsUnbarred t) ∧ mode.Unbarred := by
  obtain ⟨rfl, rfl⟩ := Step.next.inj h
  obtain ⟨hcompleted, hmode⟩ := stepBetween_unbarred hc
  refine ⟨List.forall_mem_cons.mpr ⟨.inr (.inr ?_), hcompleted⟩, hmode⟩
  rwa [String.toList_ofList]

theorem step_unbarred {mode' : Mode} {completed : List String} (hc : c ≠ '|')
    (hmode : mode.Unbarred) (h : step mode c = .next completed mode') :
    (∀ t ∈ completed, IsUnbarred t) ∧ mode'.Unbarred := by
  cases mode with
  | between =>
    obtain ⟨rfl, rfl⟩ := Step.next.inj h
    exact stepBetween_unbarred hc
  | word reversed =>
    simp only [step] at h
    split at h
    · have hword : IsWord reversed := hmode
      exact complete_unbarred hc (.inl (by simpa [IsWord] using hword)) h
    · rename_i hends
      obtain ⟨rfl, rfl⟩ := Step.next.inj h
      have hword := endsWord_eq_false_iff.mp (Bool.eq_false_iff.mpr hends)
      exact ⟨by simp, List.cons_ne_nil _ _, List.forall_mem_cons.mpr ⟨hword, hmode.2⟩⟩
  | quoted reversed => exact hmode.elim
  | escape reversed => exact hmode.elim
  | literal reversed odd =>
    obtain ⟨body, hbody, hreversed⟩ := hmode
    simp only [step] at h
    split_ifs at h with hquote hodd
    · obtain ⟨rfl, rfl⟩ := Step.next.inj h
      refine ⟨by simp, ?_⟩
      cases odd with
      | false => exact ⟨body, hbody, by simp [hreversed, hquote]⟩
      | true => exact ⟨_, hbody.append (.pair .nil), by simp [hreversed, hquote]⟩
    · exact complete_unbarred hc (.inr ⟨body, hbody, by simpa [hodd] using hreversed⟩) h
    · obtain ⟨rfl, rfl⟩ := Step.next.inj h
      exact ⟨by simp, body ++ [c], hbody.append (.char hquote .nil),
        by simp_all⟩
  | comment =>
    obtain ⟨rfl, rfl⟩ := Step.next.inj h
    refine ⟨by simp, ?_⟩
    split_ifs <;> trivial

/-- Characters without bars are read as parentheses, words and string literals. -/
theorem read_unbarred {ts : List String} {mode' : Mode} (hchars : '|' ∉ chars)
    (hmode : mode.Unbarred) (h : read mode chars = some (ts, mode')) : ∀ t ∈ ts, IsUnbarred t := by
  induction chars generalizing mode ts with
  | nil =>
    obtain ⟨rfl, rfl⟩ := Prod.mk.inj (Option.some.inj h)
    simp
  | cons c rest ih =>
    obtain ⟨hc, hrest⟩ := not_or.mp (mt List.mem_cons.mpr hchars)
    simp only [read] at h
    split at h
    · cases h
    · rename_i completed mode₁ hstep
      obtain ⟨⟨later, mode₂⟩, hread, heq⟩ := Option.map_eq_some_iff.mp h
      obtain ⟨rfl, rfl⟩ := Prod.mk.inj heq
      obtain ⟨hcompleted, hnext⟩ := step_unbarred (Ne.symm hc) hmode hstep
      exact List.forall_mem_append.mpr ⟨hcompleted, ih hrest hnext hread⟩

/-- What has to be between bars to be read is no token of a text without them. -/
theorem not_isUnbarred_of_isQuotable (h : IsQuotable first.toList) : ¬ IsUnbarred first := by
  rintro (rfl | rfl | hword | ⟨body, -, hchars⟩)
  · exact h.opening rfl
  · exact h.closing rfl
  · obtain hnil | ⟨c, hc, hbreak⟩ := h.breaks
    · exact hword.1 hnil
    · have hends : [' ', '\t', '\n', '(', ')', ';'] ⊆
          [' ', '\t', '\n', '(', ')', '|', ';', '"'] := by decide
      exact hword.2 c hc (hends hbreak)
  · apply h.unquoted
    simp [hchars, List.getLast?_cons, List.getLast?_append]

end Lexer

end SmtScript
