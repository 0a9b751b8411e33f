import SmtScript.Proofs.Session.Bounded
import SmtScript.Proofs.Session.Enclosed
import SmtScript.Proofs.Term.Accepted
import SmtScript.Proofs.Translate.Application

/-!
Widths of bit-vectors in a session.

In every scope of a session that a run leads to, bit-vectors have bits, in the sorts and in the
terms that are read there, and constants fit in them. Concatenation adds up widths, and an indexed
operator leads to the width that its indices say, `Session.terms_have_widths`.
-/

namespace SmtScript

open Solver Step

/-! ### Widths of applications -/

namespace IndexedOperator

/-- The width that an indexed operator leads to, from the width of its operand. -/
inductive Yields (width : Nat) : IndexedOperator → List Nat → Nat → Prop where
  | extract {high low : Nat} (hlow : low ≤ high) (hhigh : high < width) :
      Yields width .extract [high, low] (high - low + 1)
  | repeated {count : Nat} (hcount : 1 ≤ count) : Yields width .repeated [count] (count * width)
  /-- Repeated not at all, a bit-vector stays as it is. -/
  | unrepeated : Yields width .repeated [0] width
  | widen {bits : Widening} {extra : Nat} : Yields width (.widen bits) [extra] (width + extra)
  | rotate {side : Side} {step : Nat} : Yields width (.rotate side) [step] width

theorem yields_of_apply {op : IndexedOperator} {indices : List Nat} {width : Nat} {t u : Term}
    (ht : t.sort = .bitVec width) (h : op.apply indices t = .ok u) :
    ∃ width', u.sort = .bitVec width' ∧ Yields width op indices width' := by
  have hwidth : t.sort.width = width := by rw [ht]; rfl
  unfold IndexedOperator.apply at h
  split at h
  · split at h
    · obtain ⟨hlow, hhigh, hu⟩ := Term.sorts_mkExtract (Term.ok_of_lift h)
      exact ⟨_, hu, .extract hlow (hwidth ▸ hhigh)⟩
    · cases h
  · rename_i count
    have hu := Term.sort_mkCopies (Term.ok_of_lift h) ht
    cases count with
    | zero => exact ⟨_, by simpa using hu, .unrepeated⟩
    | succ count => exact ⟨_, hu, .repeated (Nat.le_add_left 1 count)⟩
  · exact ⟨_, Term.sort_mkWiden (Term.ok_of_lift h), by rw [hwidth]; exact .widen⟩
  · exact ⟨_, (Term.sort_mkRotate (Term.ok_of_lift h)).trans ht, .rotate⟩
  · cases h

end IndexedOperator

/-- A concatenation has the bits of all its operands, which are bit-vectors. -/
theorem Operator.sorts_concat {ts : List Term} {u : Term}
    (h : Operator.apply .concat ts = .ok u) :
    ∃ widths : List Nat, ts.map Term.sort = widths.map SmtSort.bitVec ∧
      u.sort = .bitVec widths.sum := by
  unfold Operator.apply at h
  split at h
  all_goals try cases ‹Operator.concat = _›
  · rename_i a b rest
    have hchain := Term.ok_of_lift h
    obtain ⟨first, hfirst, -⟩ := Term.bind_ok hchain
    obtain ⟨left, -, hleft, -, -⟩ := Term.sorts_mkConcat hfirst
    obtain ⟨widths, hwidths, hu⟩ := Term.sorts_concatChain hchain hleft
    exact ⟨left :: widths, by rw [List.map_cons, hleft, hwidths, List.map_cons],
      by rw [hu, List.sum_cons]⟩
  · cases h

namespace Session

variable {σ μ : Type} {S : Session σ μ} {names : Names} {T : TermState}

/-- What is known of the widths of bit-vectors in a scope. -/
structure Widths (S : Session σ μ) (names : Names) (T : TermState) : Prop where
  /-- No bit-vector in a sort that is read has width zero. -/
  sorts : ∀ {s : SExpr} {sort : SmtSort}, S.sorts.parse s = .ok sort → sort.HasBits
  /-- Nor has one in the sort of a part of a term. -/
  subterms : ∀ {s : SExpr} {u v : Term} {T' : TermState},
    (translate S.sorts names s).run T = (.ok u, T') → v.Subterm u → v.sort.HasBits
  /-- Nor has one in the sort of a symbol that occurs in a term, free or bound. -/
  symbols : ∀ {s : SExpr} {u : Term} {T' : TermState} {symbol : Symbol},
    (translate S.sorts names s).run T = (.ok u, T') → u.Mentions symbol → symbol.sort.HasBits
  /-- The constants in a term fit in their widths. -/
  constants : ∀ {s : SExpr} {u : Term} {T' : TermState} {width : Nat} {value : BitVec width},
    (translate S.sorts names s).run T = (.ok u, T') → (Term.bitVec width value).Subterm u →
      0 < width ∧ value.toNat < 2 ^ width
  /-- A constant that is given by its value and its width is accepted only if it fits. -/
  indexedConstants : ∀ {items : List SExpr} {u : Term} {T' : TermState},
    (translate S.sorts names (.list (.atom "_" :: items))).run T = (.ok u, T') →
      ∃ text value digits width, items = [.atom text, digits] ∧
        decimalBits? text = some value ∧ digits.IsNumeral width ∧ 0 < width ∧ value < 2 ^ width ∧
        u = .bitVec width (BitVec.ofNat width value)
  /-- A concatenation is as wide as its operands together. -/
  concat : ∀ {args : List SExpr} {u : Term} {T' : TermState}, names.find? "concat" = none →
    (translate S.sorts names (.list (.atom "concat" :: args))).run T = (.ok u, T') →
      ∃ (ts : List Term) (widths : List Nat),
        (translateAll S.sorts names args).run T = (.ok ts, T') ∧
        ts.map Term.sort = widths.map SmtSort.bitVec ∧ u.sort = .bitVec widths.sum
  /-- An indexed operator leads to the width that its indices say. -/
  indexed : ∀ {name : String} {indices args : List SExpr} {u : Term} {T' : TermState},
    (translate S.sorts names
      (.list (.list (.atom "_" :: .atom name :: indices) :: args))).run T = (.ok u, T') →
      ∃ op arg numbers t width width', IndexedOperator.ofName? name = some op ∧ args = [arg] ∧
        List.Forall₂ SExpr.IsNumeral indices numbers ∧
        (translate S.sorts names arg).run T = (.ok t, T') ∧ t.sort = .bitVec width ∧
        u.sort = .bitVec width' ∧ op.Yields width numbers width'

/-- In every scope of every session that a run leads to, bit-vectors have at least one bit, and
constants fit in them. Concatenations are as wide as their operands together, extractions as the
range of bits says, extended and repeated bit-vectors as their index says, and rotated ones as
before. -/
theorem terms_have_widths [Solver σ μ] (hS : S.Reachable) (hscope : S.Scope names T) :
    S.Widths names T := by
  obtain ⟨hT, hnames⟩ := hS.bounded.inScope hscope
  have hbounded {s : SExpr} {u : Term} {T' : TermState}
      (hrun : (translate S.sorts names s).run T = (.ok u, T')) : u.Bounded Symbol.HasBits :=
    (translate_bounded hT hnames s _ _ hrun).2 u rfl
  exact
    { sorts := SortTable.hasBits_of_parse
      subterms := fun hrun hv => ((hbounded hrun).subterm hv).hasBits
      symbols := fun hrun hs => hs.allowed (hbounded hrun).1.1 (hbounded hrun).1.2
      constants := fun hrun hv => ⟨((hbounded hrun).subterm hv).hasBits, BitVec.isLt _⟩
      indexedConstants := run_translate_constant_ok
      concat := fun hfree hrun => by
        have hop : Operator.ofName? "concat" = some .concat := rfl
        obtain ⟨ts, hargs, happly⟩ := run_translate_operator_ok hop hfree hrun
        obtain ⟨widths, hsorts, hu⟩ := Operator.sorts_concat happly
        exact ⟨ts, widths, hargs, hsorts, hu⟩
      indexed := fun hrun => by
        obtain ⟨op, arg, numbers, t, hop, hargs, hindices, harg, hbits, happly⟩ :=
          run_translate_indexed_ok hrun
        obtain ⟨width, ht⟩ := Term.isBitVec_iff.mp hbits
        obtain ⟨width', hu, hyields⟩ := op.yields_of_apply ht happly
        exact ⟨op, arg, numbers, t, width, width', hop, hargs, hindices, harg, ht, hu, hyields⟩ }

/-- Bits of a declared vector that is one bit wider by a literal. -/
theorem terms_have_widths_extract :
    ∃ (commands : List SExpr) (S : Session Scripted ScriptedModel) (u : Term) (T' : TermState),
      commands = [.list [.atom "set-logic", .atom "ALL"],
        .list [.atom "declare-fun", .atom "x", .list [],
          .list [.atom "_", .atom "BitVec", .atom "8"]]] ∧
      after commands (start (.ofSolver "z3")) = S ∧ S.Widths S.environment S.terms ∧
      (translate S.sorts S.environment
        (.list [.list [.atom "_", .atom "extract", .atom "8", .atom "2"],
          .list [.atom "concat", .atom "x", .atom "#b1"]])).run S.terms = (.ok u, T') ∧
      u.sort = .bitVec 7 := by
  obtain ⟨S, hS⟩ : ∃ S : Session Scripted ScriptedModel, after
    [.list [.atom "set-logic", .atom "ALL"],
      .list [.atom "declare-fun", .atom "x", .list [],
        .list [.atom "_", .atom "BitVec", .atom "8"]]]
    (start (.ofSolver "z3")) = S := ⟨_, rfl⟩
  obtain ⟨⟨result, T'⟩, hrun⟩ : ∃ q : Except Error Term × TermState,
    (translate S.sorts S.environment
      (.list [.list [.atom "_", .atom "extract", .atom "8", .atom "2"],
        .list [.atom "concat", .atom "x", .atom "#b1"]])).run S.terms = q := ⟨_, rfl⟩
  have hsort : result.toOption.map Term.sort = some (.bitVec 7) := by
    have h : result = _ := (congrArg Prod.fst hrun).symm
    subst h hS
    decide +kernel
  cases result with
  | error e => cases hsort
  | ok u =>
    exact ⟨_, S, u, T', rfl, hS, terms_have_widths ⟨_, _, hS⟩ .top, hrun, Option.some.inj hsort⟩

end Session

end SmtScript
