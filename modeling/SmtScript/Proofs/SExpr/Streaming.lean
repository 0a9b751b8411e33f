import Mathlib.Tactic.SplitIfs
import SmtScript.Proofs.SExpr.RoundTrip

/-!
Texts that are read piece by piece.

What is read of a text that is complete at the end of a line does not depend on what comes after
it, `Reading.ofText_append`: either its reading has failed, and is the reading of the whole, or its
expressions are the first of the whole.
-/

namespace SmtScript

/-- Line ends in front of a newline and after it are unified one by one. -/
theorem unifyLineEnds_append (front rest : List Char) :
    unifyLineEnds (front ++ '\n' :: rest) =
      unifyLineEnds (front ++ ['\n']) ++ unifyLineEnds rest := by
  fun_induction unifyLineEnds front with
  | case1 => simp [unifyLineEnds]
  | case2 front ih => simp [unifyLineEnds, ih]
  | case3 c front hpair ih =>
    cases front with
    | nil => by_cases hc : c = '\r' <;> simp [unifyLineEnds, hc]
    | cons d front =>
      by_cases hc : c = '\r'
      · have hd : d ≠ '\n' := fun hd => hpair front hc (congrArg (· :: front) hd)
        subst hc
        simpa [unifyLineEnds, hd] using ih
      · simpa [unifyLineEnds, hc] using ih

theorem getLast_unifyLineEnds (front : List Char) :
    (unifyLineEnds (front ++ ['\n'])).getLast? = some '\n' := by
  fun_induction unifyLineEnds front with
  | case1 => rfl
  | case2 front ih => simp [unifyLineEnds, List.getLast?_cons, ih]
  | case3 c front hpair ih =>
    cases front with
    | nil => by_cases hc : c = '\r' <;> simp [unifyLineEnds, hc]
    | cons d front =>
      by_cases hc : c = '\r'
      · have hd : d ≠ '\n' := fun hd => hpair front hc (congrArg (· :: front) hd)
        subst hc
        simp_all [unifyLineEnds, List.getLast?_cons]
      · simp_all [unifyLineEnds, List.getLast?_cons]

namespace Lexer

variable {mode mode' : Mode} {as : List Char} {ts : List String}

/-- Whether a mode is inside a symbol between bars or a string literal. -/
def Mode.isInside : Mode → Bool
  | .quoted _ | .escape _ | .literal _ _ => true
  | .between | .word _ | .comment => false

/-- A newline ends all that it can be outside of. -/
theorem step_newline {completed : List String} (h : step mode '\n' = .next completed mode') :
    mode' = .between ∨ mode'.isInside = true := by
  cases mode <;> simp only [step, complete, stepBetween] at h <;>
    grind [Mode.isInside, isBlank, endsWord]

theorem read_append (as bs : List Char) :
    read mode (as ++ bs) =
      (read mode as).bind fun p => (read p.2 bs).map fun q => (p.1 ++ q.1, q.2) := by
  induction as generalizing mode with
  | nil => simp [read]
  | cons c as ih =>
    simp only [List.cons_append, read]
    cases step mode c with
    | badEscape => rfl
    | next completed mode₁ =>
      simp only [ih]
      cases read mode₁ as with
      | none => rfl
      | some p => simp [Function.comp_def]

theorem scan_append_none (h : read mode as = none) (position : Position) (bs : List Char) :
    scan mode position (as ++ bs) = scan mode position as := by
  induction as generalizing mode position with
  | nil => cases h
  | cons c as ih =>
    simp only [List.cons_append, scan]
    cases hstep : step mode c with
    | badEscape => rfl
    | next completed mode₁ =>
      rw [read_cons hstep, Option.map_eq_none_iff] at h
      simp [ih h]

theorem scan_append (h : read mode as = some (ts, mode')) (position : Position) (bs : List Char) :
    let later := scan mode' (position.after as) bs
    scan mode position (as ++ bs) =
      ⟨(scan mode position as).tokens ++ later.tokens, later.ending⟩ := by
  induction as generalizing mode position ts with
  | nil =>
    obtain ⟨_, rfl⟩ := Prod.mk.inj (Option.some.inj h)
    rfl
  | cons c as ih =>
    simp only [List.cons_append, scan]
    cases hstep : step mode c with
    | badEscape => simp [read, hstep] at h
    | next completed mode₁ =>
      rw [read_cons hstep] at h
      obtain ⟨⟨later, mode₂⟩, hread, heq⟩ := Option.map_eq_some_iff.mp h
      obtain ⟨_, rfl⟩ := Prod.mk.inj heq
      simp [ih hread (position.advance c), Position.after]

end Lexer

namespace Reading

variable {text : String}

/-- Whether a text can be read by itself: it ends with a line, outside bars and quotes, and no
parenthesis is left open in it. -/
structure Complete (text : String) : Prop where
  line : text.toList.getLast? = some '\n'
  outside : ∀ ts mode, Lexer.read .between (unifyLineEnds text.toList) = some (ts, mode) →
    mode.isInside = false
  closed : ∀ position, (ofText text).failure ≠ some (.missingClose position)

/-- Between tokens, the newline that is supplied at the end of a text is no more than a blank. -/
theorem Complete.between (h : Complete text) {ts : List String} {mode : Lexer.Mode}
    (hread : Lexer.read .between (unifyLineEnds text.toList) = some (ts, mode)) :
    mode = .between := by
  obtain ⟨front, hfront⟩ := List.getLast?_eq_some_iff.mp h.line
  obtain ⟨chars, hchars⟩ := List.getLast?_eq_some_iff.mp (getLast_unifyLineEnds front)
  have hinside := h.outside ts mode hread
  rw [hfront, hchars, Lexer.read_append] at hread
  obtain ⟨⟨first, mode₁⟩, -, hlast⟩ := Option.bind_eq_some_iff.mp hread
  obtain ⟨⟨last, mode₂⟩, hnewline, heq⟩ := Option.map_eq_some_iff.mp hlast
  obtain ⟨-, rfl⟩ := Prod.mk.inj heq
  cases hstep : Lexer.step mode₁ '\n' with
  | badEscape => simp [Lexer.read, hstep] at hnewline
  | next completed mode' =>
    rw [Lexer.read_cons hstep] at hnewline
    obtain ⟨-, rfl⟩ := Prod.mk.inj (Option.some.inj hnewline)
    simpa [hinside] using Lexer.step_newline hstep

section

variable {position : Position} {tokens : List Token}

/-- Tokens that can be read yield the same trees whatever comes later. -/
theorem build_append (h : (build (some position) [] tokens).failure = none)
    (ending : Option Position) (later : List Token) :
    build ending [] (tokens ++ later) =
      (build ending [] later).prepend (build (some position) [] tokens).exprs := by
  obtain ⟨hspelled, front, left, rfl, hfront, hleft⟩ : Spells position ([] ++ tokens)
      (build (some position) [] tokens) := spells_build [] (by simp) rfl
  rw [h] at hleft
  cases hleft
  rw [List.append_assoc]
  exact build_all ending _ hspelled hfront

/-- Tokens that fail, but not for an open parenthesis, fail whatever comes later. -/
theorem build_append_failed {failure : ReadFailure}
    (h : (build (some position) [] tokens).failure = some failure)
    (hclosed : ∀ p, failure ≠ .missingClose p) (ending : Option Position) (later : List Token) :
    build ending [] (tokens ++ later) = build (some position) [] tokens := by
  obtain ⟨hspelled, front, left, rfl, hfront, hleft⟩ : Spells position ([] ++ tokens)
      (build (some position) [] tokens) := spells_build [] (by simp) rfl
  generalize build (some position) [] (front ++ left) = own at *
  obtain ⟨exprs, _⟩ := own
  obtain rfl := h
  cases hleft with
  | excess rest hclose =>
    rw [List.append_assoc, build_all ending _ hspelled hfront, List.cons_append,
      build_unexpected hclose, prepend, List.append_nil]
  | unclosed => exact absurd rfl (hclosed position)

end

/-- A complete text is read in the same way whatever comes after it. Its reading either fails, and
that is all that is read, or it is the first part of all that is read. -/
theorem ofText_append (h : Complete text) (later : String) :
    (∃ failure, (ofText text).failure = some failure ∧
      ofText (text ++ later) = ofText text) ∨
    (ofText text).failure = none ∧
      ∃ rest : Reading, ofText (text ++ later) = rest.prepend (ofText text).exprs := by
  obtain ⟨front, hfront⟩ := List.getLast?_eq_some_iff.mp h.line
  have hchars : unifyLineEnds (text ++ later).toList =
      unifyLineEnds text.toList ++ unifyLineEnds later.toList := by
    rw [String.toList_append, hfront, List.append_assoc, List.singleton_append,
      unifyLineEnds_append]
  cases hread : Lexer.read .between (unifyLineEnds text.toList) with
  | none =>
    have hsame : ofText (text ++ later) = ofText text := by
      simp only [ofText, Scan.ofText, hchars, List.append_assoc, Lexer.scan_append_none hread]
    cases hfailure : (ofText text).failure with
    | some failure => exact .inl ⟨failure, rfl, hsame⟩
    | none => exact .inr ⟨rfl, ⟨[], none⟩, by simp [hsame, prepend, ← hfailure]⟩
  | some p =>
    obtain ⟨ts, mode⟩ := p
    obtain rfl := h.between hread
    let tokens := (Lexer.scan .between .start (unifyLineEnds text.toList)).tokens
    let position := Position.start.after (unifyLineEnds text.toList)
    have hown : ofText text = build (some (position.advance '\n')) [] tokens := by
      rw [ofText, ofScan, Scan.ofText, Lexer.scan_append hread]
      exact congrArg (build _ [] ·) (List.append_nil tokens)
    have hwhole : ∃ ending rest, ofText (text ++ later) = build ending [] (tokens ++ rest) := by
      rw [ofText, ofScan, Scan.ofText, hchars, List.append_assoc, Lexer.scan_append hread]
      exact ⟨_, _, rfl⟩
    obtain ⟨ending, rest, hwhole⟩ := hwhole
    rw [hwhole]
    have hclosed := h.closed
    rw [hown] at hclosed ⊢
    cases hfailure : (build (some (position.advance '\n')) [] tokens).failure with
    | none => exact .inr ⟨rfl, _, build_append hfailure ending rest⟩
    | some failure =>
      refine .inl ⟨failure, rfl, build_append_failed hfailure (fun p hp => ?_) ending rest⟩
      exact hclosed p (hfailure.trans (congrArg some hp))

end Reading

end SmtScript
