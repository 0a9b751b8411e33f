import SmtScript.Proofs.SExpr.RoundTrip
import SmtScript.Proofs.Streaming
import SmtScript.Solver.Scripted

/-!
Messages and texts between quotes.

Three parts of the program have to agree on quotes: `stringLiteral` writes them, the reader finds
the one that ends a literal, and `literalValue` takes them away again. They agree on every text,
`isLiteral_stringLiteral` and `literalValue_stringLiteral`, so the message of an error is read back
from the line that reports it, and a text between quotes is echoed as it is. The line has lost the
control sequences of the message, and nothing else, `Control.erase_eq_self_iff`.
-/

namespace SmtScript

/-! ### Control sequences -/

namespace Control

/-- A control sequence: its opening, the parameters, the intermediate characters and the last
character. -/
inductive IsSequence : List Char → Prop
  | intro {parameters intermediates : List Char} {last : Char}
      (hparameters : ∀ c ∈ parameters, isParameter c = true)
      (hintermediates : ∀ c ∈ intermediates, isIntermediate c = true)
      (hlast : isFinal last = true) :
      IsSequence ('\x1b' :: '[' :: (parameters ++ (intermediates ++ [last])))

variable {c : Char} {chars seq rest : List Char}

theorem isBetween_iff {first last : Char} :
    isBetween first last c = true ↔ first.toNat ≤ c.toNat ∧ c.toNat ≤ last.toNat := by
  simp only [isBetween, Bool.and_eq_true, decide_eq_true_eq, Char.le_def, UInt32.le_iff_toNat_le]
  rfl

theorem isParameter_eq_false (h : isIntermediate c = true ∨ isFinal c = true) :
    isParameter c = false := by
  rw [isIntermediate, isFinal, isBetween_iff, isBetween_iff] at h
  rw [← Bool.not_eq_true, isParameter, isBetween_iff]
  simp at h ⊢
  omega

theorem isIntermediate_eq_false (h : isFinal c = true) : isIntermediate c = false := by
  rw [isFinal, isBetween_iff] at h
  rw [← Bool.not_eq_true, isIntermediate, isBetween_iff]
  simp at h ⊢
  omega

/-- What follows a run of characters, if the next one does not belong to it. -/
theorem dropWhile_run {p : Char → Bool} (hchars : ∀ c ∈ chars, p c = true)
    (hrest : ∀ c ∈ rest.head?, p c = false) : (chars ++ rest).dropWhile p = rest := by
  rw [List.dropWhile_append_of_pos hchars]
  cases rest with
  | nil => rfl
  | cons c rest => simp [hrest c rfl]

theorem IsSequence.rest? (h : IsSequence seq) (rest : List Char) :
    Control.rest? (seq ++ rest) = some rest := by
  obtain @⟨parameters, intermediates, last, hparameters, hintermediates, hlast⟩ := h
  have hfirst : ∀ c ∈ (intermediates ++ (last :: rest)).head?, isParameter c = false := by
    intro c hc
    apply isParameter_eq_false
    cases intermediates with
    | nil => simp_all
    | cons d intermediates => simp_all
  have hsecond : ∀ c ∈ (last :: rest).head?, isIntermediate c = false := by
    intro c hc
    obtain rfl : last = c := by simpa using hc
    exact isIntermediate_eq_false hlast
  simp only [List.cons_append, List.append_assoc, List.nil_append, Control.rest?]
  rw [dropWhile_run hparameters hfirst, dropWhile_run hintermediates hsecond]
  simp [hlast]

/-- What is skipped at the start of a text is a control sequence. -/
theorem exists_sequence (h : rest? chars = some rest) :
    ∃ seq, IsSequence seq ∧ chars = seq ++ rest := by
  unfold rest? at h
  split at h
  · rename_i body
    split at h
    · rename_i last later hdrop
      split at h
      · rename_i hlast
        obtain rfl := Option.some.inj h
        have hseq : IsSequence ('\x1b' :: '[' :: (body.takeWhile isParameter ++
            ((body.dropWhile isParameter).takeWhile isIntermediate ++ [last]))) :=
          .intro (fun c => List.mem_takeWhile_imp) (fun c => List.mem_takeWhile_imp) hlast
        have hbody : body.takeWhile isParameter ++
            ((body.dropWhile isParameter).takeWhile isIntermediate ++ last :: later) = body := by
          rw [← hdrop, List.takeWhile_append_dropWhile, List.takeWhile_append_dropWhile]
        exact ⟨_, hseq, by simp [hbody]⟩
      · cases h
    · cases h
  · cases h

theorem erase_sublist (chars : List Char) : (erase chars).Sublist chars := by
  fun_induction erase chars with
  | case1 => exact .refl _
  | case2 c later rest h ih =>
    obtain ⟨seq, -, hchars⟩ := exists_sequence h
    rw [hchars]
    exact ih.trans (List.sublist_append_right _ _)
  | case3 c later _ ih => exact ih.cons_cons c

/-- A text keeps all its characters exactly if no control sequence stands in it. -/
theorem erase_eq_self_iff :
    erase chars = chars ↔ ∀ seq, IsSequence seq → ¬ seq <:+: chars := by
  fun_induction erase chars with
  | case1 =>
    refine iff_of_true rfl fun seq hseq hinfix => ?_
    obtain rfl := List.infix_nil.mp hinfix
    cases hseq
  | case2 c later rest h ih =>
    obtain ⟨seq, hseq, hchars⟩ := exists_sequence h
    refine iff_of_false (fun heq => ?_) fun hnone => hnone seq hseq ⟨[], rest, by simp [hchars]⟩
    have hshort := (erase_sublist rest).length_le
    have hless := length_lt_of_rest h
    rw [heq] at hshort
    omega
  | case3 c later h ih =>
    rw [List.cons_inj_right, ih]
    refine forall₂_congr fun seq hseq => ?_
    rw [List.infix_cons_iff, not_or]
    refine ⟨fun hlater => ⟨?_, hlater⟩, And.right⟩
    rintro ⟨rest, hrest⟩
    rw [← hrest, hseq.rest?] at h
    cases h

end Control

theorem withoutControls_eq_self_iff {message : String} :
    withoutControls message = message ↔
      ∀ seq, Control.IsSequence seq → ¬ seq <:+: message.toList := by
  rw [withoutControls, ← String.toList_inj, String.toList_ofList, Control.erase_eq_self_iff]

/-! ### Texts between quotes -/

theorem paired_doubleQuotes (chars : List Char) : Paired (doubleQuotes chars) := by
  induction chars with
  | nil => exact .nil
  | cons c rest ih =>
    by_cases hc : c = '"'
    · rw [hc, doubleQuotes_quote]
      exact .pair ih
    · rw [doubleQuotes_cons hc]
      exact .char hc ih

theorem mergeQuotes_doubleQuotes (chars : List Char) :
    mergeQuotes (doubleQuotes chars) = chars := by
  induction chars with
  | nil => rfl
  | cons c rest ih =>
    by_cases hc : c = '"'
    · rw [hc, doubleQuotes_quote, mergeQuotes, ih]
    · rw [doubleQuotes_cons hc, mergeQuotes.eq_4, ih] <;> simp [hc]

theorem toList_stringLiteral (text : String) :
    (stringLiteral text).toList = '"' :: doubleQuotes text.toList ++ ['"'] := by
  rw [stringLiteral, String.toList_ofList]

/-- A text between quotes is a string literal. -/
theorem isLiteral_stringLiteral (text : String) : IsLiteral (stringLiteral text).toList :=
  ⟨_, paired_doubleQuotes text.toList, toList_stringLiteral text⟩

/-- A text between quotes is the literal whose value is the text. -/
theorem literalValue_stringLiteral (text : String) : literalValue (stringLiteral text) = text := by
  have hliteral := isStringLiteral_of_isLiteral (isLiteral_stringLiteral text)
  have hbody : (stringLiteral text).toList.tail.dropLast = doubleQuotes text.toList := by
    rw [toList_stringLiteral, List.cons_append, List.tail_cons, List.dropLast_concat]
  rw [literalValue, if_pos hliteral, hbody, mergeQuotes_doubleQuotes, String.ofList_toList]

theorem mem_doubleQuotes {c : Char} {chars : List Char} (h : c ∈ doubleQuotes chars) :
    c ∈ chars := by
  induction chars with
  | nil => exact h
  | cons d rest ih =>
    by_cases hd : d = '"'
    · rw [hd, doubleQuotes_quote, List.mem_cons, List.mem_cons] at h
      rw [hd, List.mem_cons]
      exact h.elim .inl fun h => h.imp_right ih
    · rw [doubleQuotes_cons hd, List.mem_cons] at h
      exact List.mem_cons.mpr (h.imp_right ih)

/-- A word in front of a text between quotes is read with it. -/
theorem readOne_withLiteral {front head text : String}
    (hfront : front.toList = '(' :: head.toList ++ [' ']) (hhead : IsWord head.toList)
    (hreturns : '\r' ∉ head.toList ∧ '\r' ∉ text.toList) :
    SExpr.readOne (front ++ stringLiteral text ++ ")") =
      .ok (.list [.atom head, .atom (stringLiteral text)]) := by
  have hliteral := isLiteral_stringLiteral text
  have htext : (SExpr.list [.atom head, .atom (stringLiteral text)]).text =
      front ++ stringLiteral text ++ ")" := by
    rw [SExpr.text, SExpr.texts, SExpr.texts, SExpr.texts, SExpr.text, SExpr.text,
      SExpr.atomText_of_isWord hhead, SExpr.atomText_of_isLiteral hliteral, ← String.toList_inj]
    simp [hfront]
  have hreturn : '\r' ∉ (stringLiteral text).toList := by
    rw [toList_stringLiteral]
    intro h
    have hmem : '\r' ∈ doubleQuotes text.toList := by simpa using h
    exact hreturns.2 (mem_doubleQuotes hmem)
  rw [← htext]
  apply SExpr.readOne_text
  intro a ha
  obtain rfl | rfl : a = head ∨ a = stringLiteral text := by
    simpa [SExpr.atoms, SExpr.atomsAll] using ha
  · exact ⟨hreturns.1, .inr (.inl hhead)⟩
  · exact ⟨hreturn, .inl hliteral⟩

/-! ### What is printed -/

namespace Session

variable {σ μ : Type} [Solver σ μ] {S : Session σ μ}

theorem execute_echo (hopen : S.status ≠ .closed) (text : String) :
    (execute (.list [.atom "echo", .atom (stringLiteral text)])).run S = (.ok (some text), S) := by
  have hrequest : (SExpr.list [.atom "echo", .atom (stringLiteral text)]).Requests
      (.echo (stringLiteral text)) := .intro rfl rfl
  rw [run_execute hrequest hopen, perform, literalValue_stringLiteral, Step.run_pure]

theorem runScript_echo (hopen : S.status ≠ .closed) {text : String} (hreturn : '\r' ∉ text.toList) :
    runScript ("(echo " ++ stringLiteral text ++ ")") S = ⟨[text], none⟩ := by
  have hhead : IsWord "echo".toList := by simp [IsWord]
  have hread : SExpr.readOne ("(echo " ++ stringLiteral text ++ ")") =
      .ok (.list [.atom "echo", .atom (stringLiteral text)]) :=
    readOne_withLiteral (by simp) hhead ⟨by simp, hreturn⟩
  obtain ⟨hfailure, hexprs⟩ := SExpr.readOne_eq_ok_iff.mp hread
  rw [runScript_eq, hfailure, hexprs, runAll, execute_echo hopen text]
  simp [hopen, runAll, Transcript.after]

end Session

namespace CommandLine

open Session

theorem withoutControls_return {message : String} (h : '\r' ∉ message.toList) :
    '\r' ∉ (withoutControls message).toList := by
  rw [withoutControls, String.toList_ofList]
  exact fun hmem => h ((Control.erase_sublist _).subset hmem)

theorem readOne_errorLine {message : String} (hreturn : '\r' ∉ message.toList) :
    SExpr.readOne (errorLine message) =
      .ok (.list [.atom "error", .atom (stringLiteral (withoutControls message))]) := by
  have hhead : IsWord "error".toList := by simp [IsWord]
  rw [errorLine_eq]
  exact readOne_withLiteral (by simp) hhead ⟨by simp, withoutControls_return hreturn⟩

variable {σ μ : Type} [Solver σ μ] {message : String}

/-- Messages and texts between quotes are read back. The line that reports an error holds the
message as a string literal, without the control sequences that may stand in the message, and
nothing else is lost of it. The command that echoes a text between quotes prints all of the text. -/
theorem messages_read_back (hreturn : '\r' ∉ message.toList) :
    (∃ literal, SExpr.readOne (errorLine message) =
        .ok (.list [.atom "error", .atom literal]) ∧
      isStringLiteral literal = true ∧ literalValue literal = withoutControls message) ∧
    (withoutControls message = message ↔
      ∀ seq, Control.IsSequence seq → ¬ seq <:+: message.toList) ∧
    (∀ outputs e report, e.report = some report → report.text? = some message →
      finish ⟨outputs, some e⟩ = ⟨1, lines (outputs ++ [errorLine message])⟩) ∧
    ∀ S : Session σ μ, S.status ≠ .closed →
      (execute (.list [.atom "echo", .atom (stringLiteral message)])).run S =
          (.ok (some message), S) ∧
        finish (runScript ("(echo " ++ stringLiteral message ++ ")") S) =
          ⟨0, message ++ "\n"⟩ := by
  have hliteral := isLiteral_stringLiteral (withoutControls message)
  refine ⟨⟨_, readOne_errorLine hreturn, isStringLiteral_of_isLiteral hliteral,
    literalValue_stringLiteral _⟩, withoutControls_eq_self_iff, ?_, ?_⟩
  · intro outputs e report hreport htext
    simp [finish, outcomeOf, hreport, htext]
  · intro S hopen
    refine ⟨execute_echo hopen message, ?_⟩
    rw [runScript_echo hopen hreturn]
    simp [finish, lines]

/-- Quotes at the ends of a message and next to each other, a bar and a line break. -/
theorem messages_read_back_quotes :
    let message := "\"\"a\" |b; (\"\n\"\"\""
    '\r' ∉ message.toList ∧
      (∃ literal, SExpr.readOne (errorLine message) =
          .ok (.list [.atom "error", .atom literal]) ∧
        isStringLiteral literal = true ∧ literalValue literal = message) ∧
      finish (runScript ("(echo " ++ stringLiteral message ++ ")")
        (start (.ofSolver "z3") : Session Scripted ScriptedModel)) = ⟨0, message ++ "\n"⟩ := by
  intro message
  have hreturn : '\r' ∉ message.toList := by simp [message]
  obtain ⟨⟨literal, hread, hliteral, hvalue⟩, hcontrols, -, hecho⟩ :=
    @messages_read_back Scripted ScriptedModel _ message hreturn
  have hkept : withoutControls message = message := by
    rw [hcontrols]
    rintro _ ⟨⟩ hinfix
    have hescape : '\x1b' ∈ message.toList := hinfix.subset List.mem_cons_self
    simp [message] at hescape
  exact ⟨hreturn, ⟨literal, hread, hliteral, hvalue.trans hkept⟩,
    (hecho (start (.ofSolver "z3")) nofun).2⟩

/-- A message with a control sequence is not the value of a literal in its line. -/
theorem message_with_control_not_read_back :
    let message := "Unrecognized atom: a\x1b[1mb"
    '\r' ∉ message.toList ∧
      (∃ report, (Error.unrecognizedAtom "a\x1b[1mb").report = some report ∧
        report.text? = some message) ∧
      ¬ ∃ literal, SExpr.readOne (errorLine message) = .ok (.list [.atom "error", .atom literal]) ∧
        isStringLiteral literal = true ∧ literalValue literal = message := by
  have hreturn : '\r' ∉ "Unrecognized atom: a\x1b[1mb".toList := by simp
  refine ⟨hreturn, ⟨_, rfl, ?_⟩, ?_⟩
  · decide +kernel
  · rintro ⟨literal, hread, -, hvalue⟩
    have hliteral := hread.symm.trans (readOne_errorLine hreturn)
    simp only [Except.ok.injEq, SExpr.list.injEq, List.cons.injEq, SExpr.atom.injEq, true_and,
      and_true] at hliteral
    rw [hliteral, literalValue_stringLiteral, withoutControls_eq_self_iff] at hvalue
    have hseq : Control.IsSequence ['\x1b', '[', '1', 'm'] :=
      @Control.IsSequence.intro ['1'] [] 'm' (by simp; decide) (by simp) (by decide)
    have hinfix : ['\x1b', '[', '1', 'm'] <:+: "Unrecognized atom: a\x1b[1mb".toList := by
      decide
    exact hvalue _ hseq hinfix

end CommandLine

end SmtScript
