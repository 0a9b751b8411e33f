import SmtScript.Proofs.SExpr.Balance
import SmtScript.SExpr.Token

/-!
Runs of the lexer.

`Lexer.read` is the lexer without positions: the tokens that a run of characters completes, and the
mode in which it leaves the lexer. A scan gives the same tokens, `Lexer.scan_of_read`, and each of
them the position that is reached when it is complete, `Lexer.position_of_close`.
-/

namespace SmtScript

namespace Position

theorem after_append (p : Position) (as bs : List Char) :
    p.after (as ++ bs) = (p.after as).after bs :=
  List.foldl_append

/-- A line begins after each newline. -/
theorem line_after (chars : List Char) : (start.after chars).line = chars.count '\n' + 1 := by
  induction chars using List.reverseRecOn with
  | nil => rfl
  | append_singleton chars c ih =>
    rw [after_append, List.count_append]
    change ((start.after chars).advance c).line = _
    by_cases hc : c = '\n'
    · simp [advance, hc, ih]
    · simp [advance, hc, ih]

/-- The column counts the characters since the last newline. -/
theorem column_after (chars : List Char) :
    (start.after chars).column = (chars.reverse.takeWhile (· ≠ '\n')).length := by
  induction chars using List.reverseRecOn with
  | nil => rfl
  | append_singleton chars c ih =>
    rw [after_append, List.reverse_append]
    change ((start.after chars).advance c).column = _
    by_cases hc : c = '\n'
    · simp [advance, hc]
    · simp [advance, hc, ih]

end Position

namespace Lexer

variable {mode mode' : Mode} {chars as bs : List Char} {c : Char} {position : Position}
  {ts completed : List String}

/-- The tokens that some characters complete and the mode that they lead to, unless an escape is
bad. -/
def read (mode : Mode) : List Char → Option (List String × Mode)
  | [] => some ([], mode)
  | c :: rest =>
    match step mode c with
    | .badEscape => none
    | .next completed mode' => (read mode' rest).map fun p => (completed ++ p.1, p.2)

theorem read_cons (h : step mode c = .next completed mode') (rest : List Char) :
    read mode (c :: rest) = (read mode' rest).map fun p => (completed ++ p.1, p.2) := by
  simp [read, h]

/-- A scan finds the tokens that are read, and ends where the characters end. -/
theorem scan_of_read (h : read mode chars = some (ts, mode')) (position : Position) :
    (scan mode position chars).tokens.map Token.text = ts ∧
      (scan mode position chars).ending = some (position.after chars) := by
  induction chars generalizing mode position ts with
  | nil =>
    obtain ⟨rfl, _⟩ := Prod.mk.inj (Option.some.inj h)
    exact ⟨rfl, rfl⟩
  | cons c rest ih =>
    simp only [read] at h
    simp only [scan]
    cases hstep : step mode c with
    | badEscape => simp [hstep] at h
    | next completed mode₁ =>
      simp only [hstep] at h ⊢
      obtain ⟨⟨later, mode₂⟩, hread, heq⟩ := Option.map_eq_some_iff.mp h
      obtain ⟨rfl, rfl⟩ := Prod.mk.inj heq
      obtain ⟨htexts, hending⟩ := ih hread (position.advance c)
      refine ⟨?_, hending⟩
      simp [htexts, Function.comp_def]

/-- A scan that comes to the end has read all characters. -/
theorem read_of_scan {ending : Position} (h : (scan mode position chars).ending = some ending) :
    ∃ ts mode', read mode chars = some (ts, mode') := by
  induction chars generalizing mode position with
  | nil => exact ⟨[], mode, rfl⟩
  | cons c rest ih =>
    simp only [scan] at h
    simp only [read]
    cases hstep : step mode c with
    | badEscape =>
      rw [hstep] at h
      cases h
    | next completed mode' =>
      rw [hstep] at h
      obtain ⟨ts, mode'', hread⟩ := ih h
      exact ⟨completed ++ ts, mode'', by simp [hread]⟩

theorem escape_of_badEscape (h : step mode c = .badEscape) :
    (∃ reversed, mode = .escape reversed) ∧ c ≠ '|' ∧ c ≠ '\\' := by
  cases mode <;> simp only [step, complete] at h <;> grind

/-- Characters cannot be read if one of them comes after a backslash between bars and is neither a
bar nor a backslash. -/
theorem escape_of_read (h : read mode chars = none) :
    ∃ front c rest completed reversed, chars = front ++ c :: rest ∧
      read mode front = some (completed, .escape reversed) ∧ c ≠ '|' ∧ c ≠ '\\' := by
  induction chars generalizing mode with
  | nil => cases h
  | cons c rest ih =>
    cases hstep : step mode c with
    | badEscape =>
      obtain ⟨⟨reversed, rfl⟩, hc⟩ := escape_of_badEscape hstep
      exact ⟨[], c, rest, [], reversed, rfl, rfl, hc⟩
    | next completed mode' =>
      rw [read_cons hstep] at h
      obtain ⟨front, d, rest, later, reversed, rfl, hread, hd⟩ := ih (Option.map_eq_none_iff.mp h)
      exact ⟨c :: front, d, rest, completed ++ later, reversed, rfl,
        by rw [read_cons hstep, hread, Option.map_some], hd⟩

/-! ### Parentheses in the text -/

/-- What is known of the characters that have led to a mode. -/
def Mode.Reached (chars : List Char) : Mode → Prop
  | .word reversed => ∀ c ∈ reversed, endsWord c = false
  | .quoted reversed =>
    (reversed = [] → ['|'] <:+ chars) ∧ (reversed = [')'] → ['|', ')'] <:+ chars)
  | .literal reversed _ => reversed.getLast? = some '"'
  | .between | .escape _ | .comment => True

theorem stepBetween_reached (chars : List Char) (c : Char) :
    (stepBetween c).2.Reached (chars ++ [c]) ∧
      ((stepBetween c).1 = [] ∨ (stepBetween c).1 = ["("] ∨
        (stepBetween c).1 = [")"] ∧ c = ')') := by
  unfold stepBetween
  split_ifs with hblank hopen hclose hbar hquote hcomment <;>
    simp_all [Mode.Reached, endsWord]

theorem ofList_ne_of_word {reversed : List Char} (h : Mode.Reached chars (.word reversed)) :
    String.ofList reversed.reverse ≠ ")" := by
  intro heq
  have hreversed : reversed = [')'] := by
    have hreverse : reversed.reverse = [')'] := by
      simpa using congrArg String.toList heq
    simpa using congrArg List.reverse hreverse
  have hends := h ')' (by simp [hreversed])
  simp [endsWord, isBlank] at hends

theorem ofList_ne_of_literal {reversed : List Char} {odd : Bool}
    (h : Mode.Reached chars (.literal reversed odd)) :
    String.ofList reversed.reverse ≠ ")" := by
  intro heq
  have hreverse : reversed.reverse = [')'] := by
    simpa using congrArg String.toList heq
  have hlast : reversed.getLast? = some ')' := by
    rw [← List.head?_reverse, hreverse, List.head?_cons]
  rw [Mode.Reached, hlast] at h
  simp at h

/-- One more character. A closing parenthesis that it completes is the last of its tokens; it is
written as it is or between bars. -/
theorem step_reached (h : mode.Reached chars) (hstep : step mode c = .next completed mode') :
    mode'.Reached (chars ++ [c]) ∧
      ∀ before after, completed = before ++ ")" :: after →
        after = [] ∧ ([')'] <:+ chars ++ [c] ∨ ['|', ')', '|'] <:+ chars ++ [c]) := by
  obtain ⟨hreached, hcompleted⟩ := stepBetween_reached chars c
  have hclose {before after : List String} (h : (stepBetween c).1 = before ++ ")" :: after) :
      after = [] ∧ ([')'] <:+ chars ++ [c] ∨ ['|', ')', '|'] <:+ chars ++ [c]) := by
    rcases hcompleted with hnone | hopen | ⟨hclose, rfl⟩
    · simp [hnone] at h
    · rw [hopen] at h
      cases before <;> simp at h
    · rw [hclose] at h
      refine ⟨?_, .inl (List.suffix_append _ _)⟩
      cases before <;> simp_all
  have hending {token : String} (htoken : token ≠ ")") {before after : List String}
      (h : token :: (stepBetween c).1 = before ++ ")" :: after) :
      after = [] ∧ ([')'] <:+ chars ++ [c] ∨ ['|', ')', '|'] <:+ chars ++ [c]) := by
    cases before with
    | nil => exact absurd (List.cons.inj h).1 htoken
    | cons first before => exact hclose (List.cons.inj h).2
  cases mode with
  | between =>
    obtain ⟨rfl, rfl⟩ := Step.next.inj hstep
    exact ⟨hreached, fun _ _ => hclose⟩
  | word reversed =>
    simp only [step] at hstep
    split at hstep
    · obtain ⟨rfl, rfl⟩ := Step.next.inj hstep
      exact ⟨hreached, fun _ _ => hending (ofList_ne_of_word h)⟩
    · rename_i hends
      obtain ⟨rfl, rfl⟩ := Step.next.inj hstep
      exact ⟨List.forall_mem_cons.mpr ⟨by simpa using hends, h⟩, by simp⟩
  | quoted reversed =>
    simp only [step] at hstep
    split at hstep
    · rename_i hbar
      obtain ⟨rfl, rfl⟩ := Step.next.inj hstep
      refine ⟨trivial, fun before after heq => ?_⟩
      cases before with
      | cons first before => simp at heq
      | nil =>
        obtain ⟨htext, rfl⟩ := List.cons.inj heq
        have hreverse : reversed.reverse = [')'] := by
          simpa using congrArg String.toList htext
        obtain ⟨front, rfl⟩ := h.2 (by simpa using congrArg List.reverse hreverse)
        exact ⟨rfl, .inr ⟨front, by simp [hbar]⟩⟩
    · split at hstep
      · obtain ⟨rfl, rfl⟩ := Step.next.inj hstep
        exact ⟨trivial, by simp⟩
      · obtain ⟨rfl, rfl⟩ := Step.next.inj hstep
        refine ⟨⟨nofun, fun heq => ?_⟩, by simp⟩
        obtain ⟨rfl, rfl⟩ := List.cons.inj heq
        obtain ⟨front, rfl⟩ := h.1 rfl
        exact ⟨front, by simp⟩
  | escape reversed =>
    simp only [step] at hstep
    split at hstep
    · rename_i hescaped
      obtain ⟨rfl, rfl⟩ := Step.next.inj hstep
      refine ⟨⟨nofun, fun heq => ?_⟩, by simp⟩
      obtain ⟨rfl, _⟩ := List.cons.inj heq
      simp at hescaped
    · cases hstep
  | literal reversed odd =>
    have hmore : (c :: reversed).getLast? = some '"' := by
      rw [List.getLast?_cons, show reversed.getLast? = some '"' from h]
      rfl
    simp only [step] at hstep
    split at hstep
    · obtain ⟨rfl, rfl⟩ := Step.next.inj hstep
      exact ⟨hmore, by simp⟩
    · split at hstep
      · obtain ⟨rfl, rfl⟩ := Step.next.inj hstep
        exact ⟨hreached, fun _ _ => hending (ofList_ne_of_literal h)⟩
      · obtain ⟨rfl, rfl⟩ := Step.next.inj hstep
        exact ⟨hmore, by simp⟩
  | comment =>
    obtain ⟨rfl, rfl⟩ := Step.next.inj hstep
    refine ⟨?_, by simp⟩
    split <;> trivial

/-- The position of a closing parenthesis is the end of the characters in front that complete just
the tokens before it and itself. -/
theorem position_of_close {before after : List Token} {close : Token} (h : mode.Reached as)
    (htokens : (scan mode position chars).tokens = before ++ close :: after)
    (hclose : close.text = ")") :
    ∃ front rest, chars = front ++ rest ∧ close.position = position.after front ∧
      (∃ mode', read mode front = some (before.map Token.text ++ [")"], mode')) ∧
      ([')'] <:+ as ++ front ∨ ['|', ')', '|'] <:+ as ++ front) := by
  induction chars generalizing mode position as before with
  | nil => simp [scan] at htokens
  | cons c rest ih =>
    simp only [scan] at htokens
    cases hstep : step mode c with
    | badEscape => simp [hstep] at htokens
    | next completed mode' =>
      rw [hstep] at htokens
      obtain ⟨hreached, hlast⟩ := step_reached h hstep
      rcases List.append_eq_append_iff.mp htokens with
        ⟨middle, rfl, hlater⟩ | ⟨middle, hmiddle, hlater⟩
      · obtain ⟨front, rest', rfl, hposition, ⟨mode'', hread⟩, hwritten⟩ := ih hreached hlater
        refine ⟨c :: front, rest', rfl, hposition, ⟨mode'', ?_⟩, by simpa using hwritten⟩
        simp [read_cons hstep, hread, Function.comp_def]
      · cases middle with
        | nil =>
          have hlater' : (scan mode' (position.advance c) rest).tokens = [] ++ close :: after := by
            simpa using hlater.symm
          obtain ⟨front, rest', rfl, hposition, ⟨mode'', hread⟩, hwritten⟩ := ih hreached hlater'
          refine ⟨c :: front, rest', rfl, hposition, ⟨mode'', ?_⟩, by simpa using hwritten⟩
          have hbefore : completed = before.map Token.text := by
            simpa [Function.comp_def] using congrArg (List.map Token.text) hmiddle
          simp [read_cons hstep, hread, hbefore]
        | cons token middle =>
          obtain ⟨rfl, rfl⟩ := List.cons.inj hlater
          have hcompleted : completed = before.map Token.text ++ ")" :: middle.map Token.text := by
            simpa [Function.comp_def, hclose] using congrArg (List.map Token.text) hmiddle
          obtain ⟨hnil, hwritten⟩ := hlast _ _ hcompleted
          obtain ⟨text, -, rfl⟩ : ∃ text ∈ completed, ⟨text, position.advance c⟩ = close := by
            have hmem : close ∈ completed.map (⟨·, position.advance c⟩ : String → Token) := by
              simp [hmiddle]
            exact List.mem_map.mp hmem
          refine ⟨[c], rest, rfl, rfl, ⟨mode', ?_⟩, hwritten⟩
          rw [read_cons hstep]
          simp [read, hcompleted, hnil]

/-! ### Characters of the tokens -/

/-- The characters of a token that is not complete. -/
def Mode.held : Mode → List Char
  | .word reversed | .quoted reversed | .escape reversed | .literal reversed _ => reversed
  | .between | .comment => []

variable {P : Char → Prop}

theorem stepBetween_forall (hc : P c) :
    (∀ t ∈ (stepBetween c).1, ∀ d ∈ t.toList, P d) ∧ ∀ d ∈ (stepBetween c).2.held, P d := by
  fun_cases stepBetween c <;> simp_all [Mode.held]

theorem complete_forall {reversed : List Char} (hc : P c) (hreversed : ∀ c ∈ reversed, P c)
    (h : complete reversed c = .next completed mode') :
    (∀ t ∈ completed, ∀ c ∈ t.toList, P c) ∧ ∀ c ∈ mode'.held, P c := by
  obtain ⟨rfl, rfl⟩ := Step.next.inj h
  obtain ⟨hcompleted, hheld⟩ := stepBetween_forall hc
  exact ⟨List.forall_mem_cons.mpr ⟨by simpa using hreversed, hcompleted⟩, hheld⟩

/-- A step makes its tokens of the characters that it has read. -/
theorem step_forall (hc : P c) (hheld : ∀ c ∈ mode.held, P c)
    (h : step mode c = .next completed mode') :
    (∀ t ∈ completed, ∀ c ∈ t.toList, P c) ∧ ∀ c ∈ mode'.held, P c := by
  cases mode with
  | between =>
    obtain ⟨rfl, rfl⟩ := Step.next.inj h
    exact stepBetween_forall hc
  | word reversed =>
    simp only [step] at h
    split at h
    · exact complete_forall hc hheld h
    · obtain ⟨rfl, rfl⟩ := Step.next.inj h
      exact ⟨by simp, List.forall_mem_cons.mpr ⟨hc, hheld⟩⟩
  | quoted reversed =>
    simp only [step] at h
    split_ifs at h
    · obtain ⟨rfl, rfl⟩ := Step.next.inj h
      exact ⟨by simpa [Mode.held] using hheld, by simp [Mode.held]⟩
    · obtain ⟨rfl, rfl⟩ := Step.next.inj h
      exact ⟨by simp, hheld⟩
    · obtain ⟨rfl, rfl⟩ := Step.next.inj h
      exact ⟨by simp, List.forall_mem_cons.mpr ⟨hc, hheld⟩⟩
  | escape reversed =>
    simp only [step] at h
    split_ifs at h
    obtain ⟨rfl, rfl⟩ := Step.next.inj h
    exact ⟨by simp, List.forall_mem_cons.mpr ⟨hc, hheld⟩⟩
  | literal reversed odd =>
    simp only [step] at h
    split_ifs at h
    · obtain ⟨rfl, rfl⟩ := Step.next.inj h
      exact ⟨by simp, List.forall_mem_cons.mpr ⟨hc, hheld⟩⟩
    · exact complete_forall hc hheld h
    · obtain ⟨rfl, rfl⟩ := Step.next.inj h
      exact ⟨by simp, List.forall_mem_cons.mpr ⟨hc, hheld⟩⟩
  | comment =>
    obtain ⟨rfl, rfl⟩ := Step.next.inj h
    refine ⟨by simp, ?_⟩
    split_ifs <;> simp [Mode.held]

/-- Tokens consist of characters of the text. -/
theorem read_forall (hchars : ∀ c ∈ chars, P c) (hheld : ∀ c ∈ mode.held, P c)
    (h : read mode chars = some (ts, mode')) : ∀ t ∈ ts, ∀ c ∈ t.toList, P c := by
  induction chars generalizing mode ts with
  | nil =>
    obtain ⟨rfl, rfl⟩ := Prod.mk.inj (Option.some.inj h)
    simp
  | cons c rest ih =>
    obtain ⟨hc, hrest⟩ := List.forall_mem_cons.mp hchars
    simp only [read] at h
    split at h
    · cases h
    · rename_i completed mode₁ hstep
      obtain ⟨⟨later, mode₂⟩, hread, heq⟩ := Option.map_eq_some_iff.mp h
      obtain ⟨rfl, rfl⟩ := Prod.mk.inj heq
      obtain ⟨hcompleted, hheld⟩ := step_forall hc hheld hstep
      exact List.forall_mem_append.mpr ⟨hcompleted, ih hrest hheld hread⟩

end Lexer

end SmtScript
