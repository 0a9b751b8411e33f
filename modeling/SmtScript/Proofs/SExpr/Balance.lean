import Mathlib.Data.List.Infix
import SmtScript.SExpr.Basic

/-!
Tokens of S-expressions and their parentheses.

An S-expression is spelled by its tokens, `SExpr.tokens`. As long as no atom is taken for a
parenthesis, these tokens are balanced: every initial part has at least as many opening as closing
parentheses, and on the whole there are equally many.
-/

namespace SmtScript

namespace SExpr

mutual

/-- The tokens that spell an S-expression. -/
def tokens : SExpr → List String
  | .atom text => [text]
  | .list items => "(" :: tokensAll items ++ [")"]

/-- The tokens of several S-expressions, one after the other. -/
def tokensAll : List SExpr → List String
  | [] => []
  | s :: rest => s.tokens ++ tokensAll rest

end

mutual

/-- The atoms of an S-expression, from left to right. -/
def atoms : SExpr → List String
  | .atom text => [text]
  | .list items => atomsAll items

/-- The atoms of several S-expressions. -/
def atomsAll : List SExpr → List String
  | [] => []
  | s :: rest => s.atoms ++ atomsAll rest

end

/-- Whether no atom is a parenthesis. -/
def Spelled (s : SExpr) : Prop := ∀ a ∈ s.atoms, a ≠ "(" ∧ a ≠ ")"

theorem mem_atomsAll {a : String} {items : List SExpr} :
    a ∈ atomsAll items ↔ ∃ s ∈ items, a ∈ s.atoms := by
  induction items with
  | nil => simp [atomsAll]
  | cons s rest ih => simp [atomsAll, ih]

theorem spelled_list {items : List SExpr} :
    (SExpr.list items).Spelled ↔ ∀ s ∈ items, s.Spelled := by
  simp only [Spelled, atoms, mem_atomsAll]
  exact ⟨fun h s hs a ha => h a ⟨s, hs, ha⟩, fun h a ⟨s, hs, ha⟩ => h s hs a ha⟩

theorem tokensAll_append (items items' : List SExpr) :
    tokensAll (items ++ items') = tokensAll items ++ tokensAll items' := by
  induction items with
  | nil => rfl
  | cons s rest ih => simp [tokensAll, ih]

end SExpr

/-! ### Balance -/

/-- Whether every initial part has at least as many opening as closing parentheses. -/
def Nested (ts : List String) : Prop :=
  ∀ front, front <+: ts → front.count ")" ≤ front.count "("

/-- Whether the parentheses belong together in pairs. -/
structure Balanced (ts : List String) : Prop where
  nested : Nested ts
  equal : ts.count "(" = ts.count ")"

/-- Whether every initial part but the empty one has more opening than closing parentheses. -/
def Unclosed (ts : List String) : Prop :=
  ∀ front, front <+: ts → front ≠ [] → front.count ")" < front.count "("

variable {ts us : List String} {a : String}

/-- A part in front of two lists together ends in the first one or in the second one. -/
theorem prefix_of_append {α : Type} {front as bs : List α} (h : front <+: as ++ bs) :
    front <+: as ∨ ∃ part, front = as ++ part ∧ part <+: bs := by
  rcases List.prefix_or_prefix_of_prefix h (List.prefix_append as bs) with hfront | ⟨part, rfl⟩
  · exact .inl hfront
  · exact .inr ⟨part, rfl, (List.prefix_append_right_inj as).mp h⟩

theorem balanced_nil : Balanced [] := by
  refine ⟨fun front h => ?_, rfl⟩
  simp [List.prefix_nil.mp h]

theorem balanced_atom (hopen : a ≠ "(") (hclose : a ≠ ")") : Balanced [a] := by
  refine ⟨fun front h => ?_, by simp [hopen, hclose]⟩
  rcases List.prefix_cons_iff.mp h with rfl | ⟨rest, rfl, hrest⟩
  · simp
  · simp [List.prefix_nil.mp hrest, hclose]

theorem Nested.append (hts : Balanced ts) (hus : Nested us) : Nested (ts ++ us) := by
  intro front hfront
  rcases prefix_of_append hfront with hfront | ⟨part, rfl, hpart⟩
  · exact hts.nested front hfront
  · have hcounts := hus part hpart
    have hequal := hts.equal
    simp only [List.count_append]
    omega

theorem Balanced.append (hts : Balanced ts) (hus : Balanced us) : Balanced (ts ++ us) := by
  refine ⟨.append hts hus.nested, ?_⟩
  rw [List.count_append, List.count_append, hts.equal, hus.equal]

theorem Unclosed.nested (h : Unclosed ts) : Nested ts := by
  intro front hfront
  by_cases hnil : front = []
  · simp [hnil]
  · exact (h front hfront hnil).le

/-- An opening parenthesis with balanced tokens after it has not been closed. -/
theorem unclosed_cons (h : Balanced ts) : Unclosed ("(" :: ts) := by
  intro front hfront hnil
  rcases List.prefix_cons_iff.mp hfront with rfl | ⟨rest, rfl, hrest⟩
  · exact absurd rfl hnil
  · have hle := h.nested rest hrest
    simp only [List.count_cons, String.reduceBEq, Bool.false_eq_true, if_false, if_true]
    omega

theorem Unclosed.append (hts : Unclosed ts) (hne : ts ≠ []) (hus : Unclosed us) :
    Unclosed (ts ++ us) := by
  intro front hfront hnil
  rcases prefix_of_append hfront with hfront | ⟨part, rfl, hpart⟩
  · exact hts front hfront hnil
  · have hall := hts ts (List.prefix_refl ts) hne
    have hcounts := hus.nested part hpart
    simp only [List.count_append]
    omega

theorem Balanced.list (h : Balanced ts) : Balanced ("(" :: ts ++ [")"]) := by
  have hopen := unclosed_cons h
  have hequal := h.equal
  refine ⟨fun front hfront => ?_, by simp [hequal]⟩
  rcases List.prefix_concat_iff.mp hfront with rfl | hfront
  · simp [hequal]
  · exact hopen.nested front hfront

namespace SExpr

mutual

/-- The tokens of an S-expression are balanced. -/
theorem balanced_tokens : ∀ {s : SExpr}, s.Spelled → Balanced s.tokens
  | .atom text, h => balanced_atom (h text (by simp [atoms])).1 (h text (by simp [atoms])).2
  | .list _, h => (balanced_tokensAll (spelled_list.mp h)).list

theorem balanced_tokensAll : ∀ {items : List SExpr}, (∀ s ∈ items, s.Spelled) →
    Balanced (tokensAll items)
  | [], _ => balanced_nil
  | s :: _, h =>
    (balanced_tokens (h s List.mem_cons_self)).append
      (balanced_tokensAll fun s hs => h s (List.mem_cons_of_mem _ hs))

end

end SExpr

end SmtScript
