import SmtScript.Proofs.SExpr.Lexer
import SmtScript.Error

/-!
What the reader builds from tokens.

The trees that the reader yields are those that the tokens spell. `Reading.ofText_spells`: they are
spelled by the longest balanced part in front of the tokens, and what follows this part says how the
reading ends. It ends well if nothing follows, it fails at a closing parenthesis that is too many,
and at the end of the text if a parenthesis stays open. It breaks off where a backslash between bars
protects another character, `Reading.badlyEscaped_of_failure`.
-/

namespace SmtScript

open SExpr

namespace Reading

variable {ending : Option Position} {pending : List (List SExpr)} {tokens rest : List Token}
  {s : SExpr} {items : List SExpr}

/-! ### One token -/

section

variable {token : Token} {outer : List SExpr} {others : List (List SExpr)}

theorem build_open (h : token.text = "(") :
    build ending pending (token :: rest) = build ending ([] :: pending) rest :=
  if_pos h

theorem ne_open_of_close (h : token.text = ")") : token.text ≠ "(" := by
  simp [h]

theorem build_unexpected (h : token.text = ")") :
    build ending [] (token :: rest) = ⟨[], some (.unexpectedClose token.position)⟩ :=
  (if_neg (ne_open_of_close h)).trans (if_pos h)

theorem build_close_last (h : token.text = ")") :
    build ending [items] (token :: rest) =
      (build ending [] rest).cons (.list items.reverse) :=
  (if_neg (ne_open_of_close h)).trans (if_pos h)

theorem build_close (h : token.text = ")") :
    build ending (items :: outer :: others) (token :: rest) =
      build ending ((.list items.reverse :: outer) :: others) rest :=
  (if_neg (ne_open_of_close h)).trans (if_pos h)

theorem build_atom_top (hopen : token.text ≠ "(") (hclose : token.text ≠ ")") :
    build ending [] (token :: rest) = (build ending [] rest).cons (.atom token.text) :=
  (if_neg hopen).trans (if_neg hclose)

theorem build_atom (hopen : token.text ≠ "(") (hclose : token.text ≠ ")") :
    build ending (items :: others) (token :: rest) =
      build ending ((.atom token.text :: items) :: others) rest :=
  (if_neg hopen).trans (if_neg hclose)

end

/-! ### Trees from their tokens -/

/-- The tokens of a list are its parentheses and the tokens of its items. -/
theorem map_eq_list (h : tokens.map Token.text = (SExpr.list items).tokens) :
    ∃ opening inner closing, tokens = opening :: inner ++ [closing] ∧ opening.text = "(" ∧
      closing.text = ")" ∧ inner.map Token.text = tokensAll items := by
  obtain ⟨opening, inner, rfl, hopening, h⟩ := List.map_eq_cons_iff.mp h
  obtain ⟨inner, last, rfl, hinner, hlast⟩ := List.map_eq_append_iff.mp h
  obtain ⟨closing, rfl, hclosing⟩ := List.map_eq_singleton_iff.mp hlast
  exact ⟨opening, inner, closing, rfl, hopening, hclosing, hinner⟩

mutual

/-- The tokens of a tree inside a list add the tree to the list. -/
theorem build_tokens : ∀ {s : SExpr} {before : List SExpr} {others : List (List SExpr)}
    {tokens rest : List Token}, s.Spelled → tokens.map Token.text = s.tokens →
    build ending (before :: others) (tokens ++ rest) =
      build ending ((s :: before) :: others) rest
  | .atom _, _, _, _, _, hs, h => by
    obtain ⟨token, rfl, rfl⟩ := List.map_eq_singleton_iff.mp h
    have hspelled := hs token.text (by simp [atoms])
    exact build_atom hspelled.1 hspelled.2
  | .list _, _, _, _, _, hs, h => by
    obtain ⟨opening, inner, closing, rfl, hopening, hclosing, hinner⟩ := map_eq_list h
    rw [List.append_assoc, List.cons_append, build_open hopening,
      build_tokensAll (spelled_list.mp hs) hinner, List.singleton_append, build_close hclosing]
    simp

theorem build_tokensAll : ∀ {items before : List SExpr} {others : List (List SExpr)}
    {tokens rest : List Token}, (∀ s ∈ items, s.Spelled) → tokens.map Token.text = tokensAll items →
    build ending (before :: others) (tokens ++ rest) =
      build ending ((items.reverse ++ before) :: others) rest
  | [], _, _, _, _, _, h => by
    obtain rfl := List.map_eq_nil_iff.mp h
    rfl
  | s :: _, _, _, _, _, hs, h => by
    obtain ⟨first, later, rfl, hfirst, hlater⟩ := List.map_eq_append_iff.mp h
    rw [List.append_assoc, build_tokens (hs s List.mem_cons_self) hfirst,
      build_tokensAll (fun s hs' => hs s (List.mem_cons_of_mem _ hs')) hlater]
    simp

end

/-- Puts trees in front of those of a reading. -/
def prepend (items : List SExpr) (later : Reading) : Reading :=
  { later with exprs := items ++ later.exprs }

/-- Outside of all lists, the tokens of a tree yield the tree. -/
theorem build_top (ending : Option Position) (rest : List Token) (hs : s.Spelled)
    (h : tokens.map Token.text = s.tokens) :
    build ending [] (tokens ++ rest) = (build ending [] rest).cons s := by
  cases s with
  | atom text =>
    obtain ⟨token, rfl, rfl⟩ := List.map_eq_singleton_iff.mp h
    have hspelled := hs token.text (by simp [atoms])
    exact build_atom_top hspelled.1 hspelled.2
  | list items =>
    obtain ⟨opening, inner, closing, rfl, hopening, hclosing, hinner⟩ := map_eq_list h
    rw [List.append_assoc, List.cons_append, build_open hopening,
      build_tokensAll (spelled_list.mp hs) hinner, List.singleton_append,
      build_close_last hclosing]
    simp

/-- The tokens of several trees yield the trees. -/
theorem build_all (ending : Option Position) (rest : List Token)
    (hitems : ∀ s ∈ items, s.Spelled) (h : tokens.map Token.text = tokensAll items) :
    build ending [] (tokens ++ rest) = (build ending [] rest).prepend items := by
  induction items generalizing tokens with
  | nil =>
    obtain rfl := List.map_eq_nil_iff.mp h
    rfl
  | cons s items ih =>
    obtain ⟨first, later, rfl, hfirst, hlater⟩ := List.map_eq_append_iff.mp h
    rw [List.append_assoc, build_top ending _ (hitems s List.mem_cons_self) hfirst,
      ih (fun s hs => hitems s (List.mem_cons_of_mem _ hs)) hlater]
    rfl

/-- Trees are known from their tokens. -/
theorem eq_of_tokensAll {items items' : List SExpr} (hitems : ∀ s ∈ items, s.Spelled)
    (hitems' : ∀ s ∈ items', s.Spelled) (h : tokensAll items = tokensAll items') :
    items = items' := by
  let tokens := (tokensAll items).map (⟨·, .start⟩ : String → Token)
  have htokens : tokens.map Token.text = tokensAll items := by simp [tokens, Function.comp_def]
  have hbuild := build_all none [] hitems htokens
  rw [build_all none [] hitems' (htokens.trans h)] at hbuild
  simpa [build, prepend] using (congrArg Reading.exprs hbuild).symm

/-! ### How a reading ends -/

/-- The tokens that a reading leaves over, and its failure. -/
inductive Leaves (ending : Position) : List Token → Option ReadFailure → Prop
  | nothing : Leaves ending [] none
  | excess {token : Token} (rest : List Token) (hclose : token.text = ")") :
    Leaves ending (token :: rest) (some (.unexpectedClose token.position))
  | unclosed {tokens : List Token} (hnil : tokens ≠ []) (h : Unclosed (tokens.map Token.text)) :
    Leaves ending tokens (some (.missingClose ending))

/-- The tokens that have opened some lists and filled them with items. -/
def opened : List (List SExpr) → List String
  | [] => []
  | items :: others => opened others ++ "(" :: tokensAll items.reverse

theorem unclosed_opened (hpending : ∀ items ∈ pending, ∀ s ∈ items, s.Spelled) :
    Unclosed (opened pending) := by
  induction pending with
  | nil => exact fun front hfront hnil => absurd (List.prefix_nil.mp hfront) hnil
  | cons items others ih =>
    have hlast : Unclosed ("(" :: tokensAll items.reverse) :=
      unclosed_cons (balanced_tokensAll fun s hs =>
        hpending items List.mem_cons_self s (List.mem_reverse.mp hs))
    have hothers := ih fun items hitems => hpending items (List.mem_cons_of_mem _ hitems)
    by_cases hnil : opened others = []
    · simpa [opened, hnil] using hlast
    · exact hothers.append hnil hlast

/-- What a reading makes of tokens: trees, which are spelled by the tokens in front, and what is
left over. -/
structure Spells (ending : Position) (tokens : List Token) (reading : Reading) : Prop where
  intro ::
  spelled : ∀ s ∈ reading.exprs, s.Spelled
  split : ∃ front left, tokens = front ++ left ∧
    front.map Token.text = tokensAll reading.exprs ∧ Leaves ending left reading.failure

variable {position : Position} {reading : Reading}

theorem Spells.cons (h : Spells position rest reading) (hs : s.Spelled)
    (htokens : tokens.map Token.text = s.tokens) :
    Spells position (tokens ++ rest) (reading.cons s) := by
  obtain ⟨hspelled, front, left, rfl, hfront, hleft⟩ := h
  refine ⟨List.forall_mem_cons.mpr ⟨hs, hspelled⟩, tokens ++ front, left, ?_, ?_, hleft⟩
  · simp
  · simp [Reading.cons, tokensAll, htokens, hfront]

/-- The tokens consumed so far have opened the pending lists; with the tokens to come they spell
what the reading yields. -/
theorem spells_build (consumed : List Token)
    (hpending : ∀ items ∈ pending, ∀ s ∈ items, s.Spelled)
    (hconsumed : consumed.map Token.text = opened pending) :
    Spells position (consumed ++ tokens) (build (some position) pending tokens) := by
  induction tokens generalizing pending consumed with
  | nil =>
    rw [List.append_nil]
    cases pending with
    | nil =>
      obtain rfl := List.map_eq_nil_iff.mp hconsumed
      exact ⟨by simp [build], [], [], rfl, rfl, .nothing⟩
    | cons items others =>
      have hnil : consumed ≠ [] := by
        rintro rfl
        simp [opened] at hconsumed
      refine ⟨by simp [build], [], consumed, rfl, rfl, .unclosed hnil ?_⟩
      rw [hconsumed]
      exact unclosed_opened hpending
  | cons token tokens ih =>
    rw [show consumed ++ token :: tokens = (consumed ++ [token]) ++ tokens by simp]
    by_cases hopen : token.text = "("
    · rw [build_open hopen]
      refine ih _ (List.forall_mem_cons.mpr ⟨by simp, hpending⟩) ?_
      simp [opened, tokensAll, hopen, hconsumed]
    by_cases hclose : token.text = ")"
    · cases pending with
      | nil =>
        obtain rfl := List.map_eq_nil_iff.mp hconsumed
        rw [build_unexpected hclose]
        exact ⟨by simp, [], token :: tokens, rfl, rfl, .excess tokens hclose⟩
      | cons items pending =>
        obtain ⟨hitems, hpending⟩ := List.forall_mem_cons.mp hpending
        have hlist : (SExpr.list items.reverse).Spelled :=
          spelled_list.mpr fun s hs => hitems s (List.mem_reverse.mp hs)
        cases pending with
        | nil =>
          rw [build_close_last hclose]
          refine .cons (ih [] (by simp) rfl) hlist ?_
          simp [opened, SExpr.tokens, hclose, hconsumed]
        | cons outer others =>
          rw [build_close hclose]
          obtain ⟨houter, hothers⟩ := List.forall_mem_cons.mp hpending
          have houter : ∀ s ∈ SExpr.list items.reverse :: outer, s.Spelled :=
            List.forall_mem_cons.mpr ⟨hlist, houter⟩
          refine ih _ (List.forall_mem_cons.mpr ⟨houter, hothers⟩) ?_
          simp [opened, SExpr.tokens, tokensAll, tokensAll_append, hclose, hconsumed]
    · have hatom : (SExpr.atom token.text).Spelled := by
        simp [SExpr.Spelled, atoms, hopen, hclose]
      cases pending with
      | nil =>
        obtain rfl := List.map_eq_nil_iff.mp hconsumed
        rw [build_atom_top hopen hclose]
        exact .cons (ih [] (by simp) rfl) hatom rfl
      | cons items others =>
        obtain ⟨hitems, hothers⟩ := List.forall_mem_cons.mp hpending
        rw [build_atom hopen hclose]
        have hitems' := List.forall_mem_cons.mpr ⟨hatom, hitems⟩
        refine ih _ (List.forall_mem_cons.mpr ⟨hitems', hothers⟩) ?_
        simp [opened, SExpr.tokens, tokensAll, tokensAll_append, hconsumed]

/-- A reading that comes to the end of its text. -/
theorem spells_ofScan {scan : Scan} (h : scan.ending = some position) :
    Spells position scan.tokens (ofScan scan) := by
  rw [ofScan, h]
  exact spells_build [] (by simp) rfl

/-- After a bad escape the reading does not end well. -/
theorem failure_build_none (pending : List (List SExpr)) (tokens : List Token) :
    (build none pending tokens).failure ≠ none := by
  fun_induction build none pending tokens <;> simp_all [Reading.cons]

/-! ### Balance and failure -/

namespace Spells

variable {left : List Token} {failure : Option ReadFailure} {front : List String}

theorem balanced (h : Spells position tokens reading) : Balanced (tokensAll reading.exprs) :=
  balanced_tokensAll h.spelled

/-- No balanced part in front of the tokens goes beyond the trees. -/
theorem longest (h : Spells position tokens reading)
    (hfront : front <+: tokens.map Token.text) (hbalanced : Balanced front) :
    front <+: tokensAll reading.exprs := by
  have htrees := h.balanced
  obtain ⟨_, trees, left, rfl, htokens, hleft⟩ := h
  rw [List.map_append, htokens] at hfront
  rcases prefix_of_append hfront with hfront | ⟨part, rfl, hpart⟩
  · exact hfront
  suffices part = [] by simp [this]
  have hequal : part.count "(" = part.count ")" := by
    have hequal := hbalanced.equal
    rw [List.count_append, List.count_append, htrees.equal] at hequal
    omega
  generalize reading.failure = failure at hleft
  cases hleft with
  | nothing => exact List.prefix_nil.mp hpart
  | excess rest hclose =>
    rcases List.prefix_cons_iff.mp hpart with hnil | ⟨part, rfl, -⟩
    · exact hnil
    · have hnested := hbalanced.nested (tokensAll reading.exprs ++ [")"]) (by simp [hclose])
      simp only [List.count_append, htrees.equal, List.count_singleton_self] at hnested
      have hnone : List.count "(" [")"] = 0 := by decide
      omega
  | unclosed hnil hunclosed =>
    by_contra hne
    exact absurd hequal (hunclosed part hpart hne).ne'

/-- The three ways in which a reading ends. -/
theorem outcome (h : Spells position tokens reading) :
    reading.failure = none ∧ Balanced (tokens.map Token.text) ∨
    (∃ before token after, tokens = before ++ token :: after ∧ token.text = ")" ∧
      Balanced (before.map Token.text) ∧
      reading.failure = some (.unexpectedClose token.position)) ∨
    reading.failure = some (.missingClose position) ∧ Nested (tokens.map Token.text) ∧
      (tokens.map Token.text).count ")" < (tokens.map Token.text).count "(" := by
  have htrees := h.balanced
  obtain ⟨_, trees, left, rfl, htokens, hleft⟩ := h
  generalize reading.failure = failure at hleft ⊢
  cases hleft with
  | nothing => exact .inl ⟨rfl, by simpa [htokens] using htrees⟩
  | excess rest hclose =>
    exact .inr (.inl ⟨trees, _, rest, rfl, hclose, htokens ▸ htrees, rfl⟩)
  | unclosed hnil hunclosed =>
    refine .inr (.inr ⟨rfl, ?_, ?_⟩)
    · rw [List.map_append, htokens]
      exact .append htrees hunclosed.nested
    · have hcounts := hunclosed _ (List.prefix_refl _) (by simpa using hnil)
      rw [List.map_append, htokens, List.count_append, List.count_append, htrees.equal]
      omega

/-- A closing parenthesis after balanced tokens is too many. -/
theorem excess_of_balanced {before : List String} (h : Balanced before) (after : List String) :
    ∃ front, front <+: before ++ ")" :: after ∧ front.count "(" < front.count ")" :=
  ⟨before ++ [")"], by simp, by simp [h.equal]⟩

theorem failure_eq_none_iff (h : Spells position tokens reading) :
    reading.failure = none ↔ Balanced (tokens.map Token.text) := by
  rcases h.outcome with ⟨hfailure, hbalanced⟩ |
    ⟨before, token, after, rfl, hclose, hbefore, hfailure⟩ |
    ⟨hfailure, -, hmore⟩
  · simp [hfailure, hbalanced]
  · refine iff_of_false (by simp [hfailure]) fun hbalanced => ?_
    obtain ⟨front, hfront, hexcess⟩ := excess_of_balanced hbefore (after.map Token.text)
    exact absurd (hbalanced.nested front (by simpa [hclose] using hfront)) hexcess.not_ge
  · exact iff_of_false (by simp [hfailure]) fun hbalanced => hmore.ne' hbalanced.equal

theorem unexpectedClose_iff (h : Spells position tokens reading) :
    (∃ p, reading.failure = some (.unexpectedClose p)) ↔
      ∃ front, front <+: tokens.map Token.text ∧ front.count "(" < front.count ")" := by
  rcases h.outcome with ⟨hfailure, hbalanced⟩ |
    ⟨before, token, after, rfl, hclose, hbefore, hfailure⟩ |
    ⟨hfailure, hnested, -⟩
  · refine iff_of_false (by simp [hfailure]) fun ⟨front, hfront, hexcess⟩ => ?_
    exact absurd (hbalanced.nested front hfront) hexcess.not_ge
  · refine iff_of_true ⟨_, hfailure⟩ ?_
    simpa [hclose] using excess_of_balanced hbefore (after.map Token.text)
  · refine iff_of_false (by simp [hfailure]) fun ⟨front, hfront, hexcess⟩ => ?_
    exact absurd (hnested front hfront) hexcess.not_ge

theorem missingClose_iff (h : Spells position tokens reading) :
    (∃ p, reading.failure = some (.missingClose p)) ↔ Nested (tokens.map Token.text) ∧
      (tokens.map Token.text).count ")" < (tokens.map Token.text).count "(" := by
  rcases h.outcome with ⟨hfailure, hbalanced⟩ |
    ⟨before, token, after, rfl, hclose, hbefore, hfailure⟩ |
    ⟨hfailure, hcounts⟩
  · exact iff_of_false (by simp [hfailure]) fun ⟨_, hmore⟩ => hmore.ne' hbalanced.equal
  · refine iff_of_false (by simp [hfailure]) fun ⟨hnested, _⟩ => ?_
    obtain ⟨front, hfront, hexcess⟩ := excess_of_balanced hbefore (after.map Token.text)
    exact absurd (hnested front (by simpa [hclose] using hfront)) hexcess.not_ge
  · exact iff_of_true ⟨position, hfailure⟩ hcounts

/-- The reading fails at the first closing parenthesis that is too many. -/
theorem unexpectedClose_first {p : Position} (h : Spells position tokens reading)
    (hfailure : reading.failure = some (.unexpectedClose p)) :
    ∃ before token after, tokens = before ++ token :: after ∧ token.text = ")" ∧
      token.position = p ∧ Balanced (before.map Token.text) := by
  rcases h.outcome with ⟨hnone, -⟩ | ⟨before, token, after, htokens, hclose, hbefore, hat⟩ |
    ⟨hmissing, -⟩
  · simp [hnone] at hfailure
  · have hposition : token.position = p := by simpa [hat] using hfailure
    exact ⟨before, token, after, htokens, hclose, hposition, hbefore⟩
  · simp [hmissing] at hfailure

end Spells

/-! ### Texts -/

/-- Whether a backslash between bars in a text protects neither a bar nor a backslash. The text ends
with a newline. -/
def BadlyEscaped (text : String) : Prop :=
  ∃ front c completed reversed, front ++ [c] <+: unifyLineEnds text.toList ++ ['\n'] ∧
    Lexer.read .between front = some (completed, .escape reversed) ∧ c ≠ '|' ∧ c ≠ '\\'

theorem badlyEscaped_of_failure {text : String}
    (h : (Reading.ofText text).failure = some .badEscape) : BadlyEscaped text := by
  cases hending : (Scan.ofText text).ending with
  | some position =>
    have hspells := spells_ofScan hending
    rcases hspells.outcome with ⟨hfailure, _⟩ | ⟨_, _, _, _, _, _, hfailure⟩ | ⟨hfailure, _⟩ <;>
      cases h.symm.trans hfailure
  | none =>
    have hread : Lexer.read .between (unifyLineEnds text.toList ++ ['\n']) = none := by
      by_contra hsome
      obtain ⟨p, hp⟩ := Option.ne_none_iff_exists'.mp hsome
      cases hending.symm.trans (Lexer.scan_of_read hp .start).2
    obtain ⟨front, c, rest, completed, reversed, hchars, hfront, hc⟩ := Lexer.escape_of_read hread
    exact ⟨front, c, completed, reversed, ⟨rest, by simp [hchars]⟩, hfront, hc⟩

/-- A closing parenthesis that the scan of a text finds. The text in front of it, with itself,
yields the tokens up to it; it is written as it is or between bars. -/
theorem front_of_close {text : String} {before after : List Token} {close : Token}
    (htokens : (Scan.ofText text).tokens = before ++ close :: after) (hclose : close.text = ")") :
    ∃ front, front <+: unifyLineEnds text.toList ∧ close.position = Position.start.after front ∧
      ([')'] <:+ front ∨ ['|', ')', '|'] <:+ front) ∧
      ∃ mode, Lexer.read .between front = some (before.map Token.text ++ [")"], mode) := by
  have hreached : Lexer.Mode.Reached [] .between := trivial
  obtain ⟨front, rest, hfront, hposition, hread, hwritten⟩ :=
    Lexer.position_of_close hreached htokens hclose
  refine ⟨front, ?_, hposition, hwritten, hread⟩
  -- the newline at the end of the text is not a parenthesis
  have hall : front <+: unifyLineEnds text.toList ++ ['\n'] := hfront ▸ List.prefix_append _ _
  rcases List.prefix_concat_iff.mp hall with rfl | hprefix
  · have hlast {c : Char} (part : List Char)
        (h : part ++ [c] <:+ unifyLineEnds text.toList ++ ['\n']) :
        c = '\n' := by
      obtain ⟨start, heq⟩ := h
      rw [← List.append_assoc] at heq
      exact (List.append_inj' heq rfl).2 |> List.singleton_inj.mp
    rcases hwritten with hwritten | hwritten
    · exact absurd (hlast [] hwritten) (by decide)
    · exact absurd (hlast ['|', ')'] hwritten) (by decide)
  · exact hprefix

/-- A text without a bad escape is read into exactly the trees that its tokens spell: the longest
balanced part in front. What follows this part decides whether and where the reading fails. -/
theorem spelled_by_tokens {text : String}
    (hescapes : (Scan.ofText text).ending = some position) :
    let ts := (Scan.ofText text).tokens.map Token.text
    let reading := Reading.ofText text
    (tokensAll reading.exprs <+: ts ∧ Balanced (tokensAll reading.exprs) ∧
      ∀ front, front <+: ts → Balanced front → front <+: tokensAll reading.exprs) ∧
    (∀ items, (∀ s ∈ items, s.Spelled) → tokensAll items = tokensAll reading.exprs →
      items = reading.exprs) ∧
    (∀ s ∈ reading.exprs, ∀ a ∈ s.atoms, a ≠ "(" ∧ a ≠ ")") ∧
    (reading.failure = none ↔ Balanced ts) ∧
    ((∃ p, reading.failure = some (.unexpectedClose p)) ↔
      ∃ front, front <+: ts ∧ front.count "(" < front.count ")") ∧
    (∀ p, reading.failure = some (.unexpectedClose p) →
      ∃ before after front mode, ts = before ++ ")" :: after ∧ Balanced before ∧
        front <+: unifyLineEnds text.toList ∧ ([')'] <:+ front ∨ ['|', ')', '|'] <:+ front) ∧
        Lexer.read .between front = some (before ++ [")"], mode) ∧
        (Error.ofReadFailure (.unexpectedClose p)).report = some
          { kind := .malformed, message := "Unexpected ')'", line := some ↑(front.count '\n' + 1),
            column := some ↑(front.reverse.takeWhile (· ≠ '\n')).length }) ∧
    ((∃ p, reading.failure = some (.missingClose p)) ↔
      (∀ front, front <+: ts → front.count ")" ≤ front.count "(") ∧
        ts.count ")" < ts.count "(") := by
  intro ts reading
  have hspells : Spells position (Scan.ofText text).tokens reading := spells_ofScan hescapes
  refine ⟨⟨?_, hspells.balanced, fun _ => hspells.longest⟩,
    fun items hitems => eq_of_tokensAll hitems hspells.spelled, hspells.spelled,
    hspells.failure_eq_none_iff, hspells.unexpectedClose_iff, fun p hfailure => ?_,
    hspells.missingClose_iff⟩
  · obtain ⟨trees, left, htokens, htrees, -⟩ := hspells.split
    simp [ts, htokens, htrees]
  · obtain ⟨before, token, after, htokens, hclose, rfl, hbefore⟩ :=
      hspells.unexpectedClose_first hfailure
    obtain ⟨front, hfront, hposition, hwritten, mode, hread⟩ := front_of_close htokens hclose
    refine ⟨before.map Token.text, after.map Token.text, front, mode, by simp [ts, htokens, hclose],
      hbefore, hfront, hwritten, hread, ?_⟩
    rw [hposition, ← Position.line_after, ← Position.column_after]
    rfl

/-- A text with a parenthesis too many on its second line. -/
theorem spelled_by_tokens_excess :
    (Scan.ofText "(a |(b| \"(\")\r\n c ) d").ending = some ⟨3, 0⟩ ∧
      (∃ p, (Reading.ofText "(a |(b| \"(\")\r\n c ) d").failure = some (.unexpectedClose p)) := by
  have hending : (Scan.ofText "(a |(b| \"(\")\r\n c ) d").ending = some ⟨3, 0⟩ := by decide
  refine ⟨hending, (spelled_by_tokens hending).2.2.2.2.1.mpr ?_⟩
  refine ⟨["(", "a", "(b", "\"(\"", ")", "c", ")"], ?_⟩
  decide

end Reading

end SmtScript
