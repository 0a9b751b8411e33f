import SmtScript.Proofs.Floor
import SmtScript.Proofs.Session.Scopes

/-!
Integer parts in the scopes of a session.

Every integer part that occurs in an assertion is defined at the level of the assertion or below, so
that its constraint lives as long as the assertion does. `Covered` is what every move preserves. It
follows that in an active session the formulas that the solver holds say of the assertions what they
say with floors, and the formulas of a check what the assertions and assumptions say.
-/

namespace SmtScript

namespace IntegerParts

variable {parts parts' : IntegerParts} {assertions : Levels Term} {defined : Levels Symbol}

/-- Whether every integer part that occurs in an assertion is defined at the level of the assertion
or below. -/
def Covers (parts : IntegerParts) (assertions : Levels Term) (defined : Levels Symbol) : Prop :=
  ∀ i, ∀ t ∈ assertions.row i, ∀ p, Occurs parts [t] p → ∃ j, p.1 ∈ defined.row (i + j)

theorem Covers.evolve (h : parts.Covers assertions defined)
    (hold : ∀ t ∈ assertions.items, ∀ p, Occurs parts' [t] p → Occurs parts [t] p) :
    Covers parts' assertions defined :=
  fun i t ht p hp => h i t ht p (hold t (Levels.mem_items_of_mem_row ht) p hp)

theorem Covers.assert (h : parts.Covers assertions defined) {t : Term}
    (ht : ∀ p, Occurs parts [t] p → p.1 ∈ defined.items) :
    parts.Covers (assertions.add t) defined := by
  intro i u hu p hp
  cases i with
  | zero =>
    rcases List.mem_cons.mp hu with rfl | hu
    · obtain ⟨j, hj⟩ := Levels.exists_row_of_mem_items (ht p hp)
      exact ⟨j, by simpa using hj⟩
    · exact h 0 u hu p hp
  | succ i => exact h (i + 1) u hu p hp

theorem Covers.define (h : parts.Covers assertions defined) (symbol : Symbol) :
    parts.Covers assertions (defined.add symbol) := by
  intro i t ht p hp
  obtain ⟨j, hj⟩ := h i t ht p hp
  exact ⟨j, Levels.mem_row_add hj⟩

theorem Covers.pushMany (h : parts.Covers assertions defined) (n : Nat) :
    parts.Covers (assertions.pushMany n) (defined.pushMany n) := by
  intro i t ht p hp
  rcases Nat.lt_or_ge i n with hlt | hge
  · rw [Levels.row_pushMany_of_lt _ hlt] at ht
    cases ht
  · obtain ⟨k, rfl⟩ := Nat.exists_eq_add_of_le hge
    rw [Levels.row_pushMany_add] at ht
    obtain ⟨j, hj⟩ := h k t ht p hp
    refine ⟨j, ?_⟩
    rw [Nat.add_assoc, Levels.row_pushMany_add]
    exact hj

theorem Covers.popMany (h : parts.Covers assertions defined) {n : Nat}
    (hassertions : n < assertions.depth) (hdefined : n < defined.depth) :
    parts.Covers (assertions.popMany n) (defined.popMany n) := by
  intro i t ht p hp
  rw [Levels.row_popMany hassertions] at ht
  obtain ⟨j, hj⟩ := h (n + i) t ht p hp
  refine ⟨j, ?_⟩
  rw [Levels.row_popMany hdefined, ← Nat.add_assoc]
  exact hj

variable {held : Levels Term} {depth : Nat} {p : Symbol × Term}

theorem Matches.mem_held (h : parts.Matches held assertions defined) {f : Term}
    (hf : f ∈ held.items) :
    f ∈ assertions.items ∨ ∃ k ∈ defined.items, parts.constraintOf? k = some f := by
  obtain ⟨i, hi⟩ := Levels.exists_row_of_mem_items hf
  rcases List.mem_append.mp ((h i).mem_iff.mp (List.mem_map_of_mem hi)) with hmem | hmem
  · obtain ⟨t, ht, heq⟩ := List.mem_map.mp hmem
    exact .inl (Option.some.inj heq ▸ Levels.mem_items_of_mem_row ht)
  · obtain ⟨k, hk, hf⟩ := List.mem_map.mp hmem
    exact .inr ⟨k, Levels.mem_items_of_mem_row hk, hf⟩

end IntegerParts

namespace TermState

variable {T T' : TermState} {ts : List Term} {p : Symbol × Term}

theorem Sound.proper (h : T.Sound) : IntegerParts.Proper T.integerParts where
  sort_symbol := h.sort_symbol
  operand p hp := (h.operand p hp).wellSorted
  sort_operand := h.sort_operand
  acyclic := h.acyclic

/-- What translation makes later does not occur in terms that were there before. -/
theorem Evolves.occurs (h : T.Evolves T') (hT : T.Sound) (hts : ∀ t ∈ ts, t.Sound T.Knows)
    (hp : IntegerParts.Occurs T'.integerParts ts p) :
    IntegerParts.Occurs T.integerParts ts p := by
  induction hp with
  | @direct t p hp ht hfree =>
    rcases h.fresh p hp with hp | hnew
    · exact .direct hp ht hfree
    · exact absurd ((hts t ht).free p.1 hfree) hnew
  | @nested p q hp _ hfree ih =>
    rcases h.fresh p hp with hp | hnew
    · exact .nested hp ih hfree
    · exact absurd ((hT.operand q ih.mem).free p.1 hfree) hnew

end TermState

namespace Session

open Solver ScopedSolver

variable {σ μ : Type} {S S' : Session σ μ}

def Covered (S : Session σ μ) : Prop :=
  IntegerParts.Covers S.terms.integerParts S.assertions S.definedParts

/-- Moves that touch neither levels nor integer parts. -/
theorem Covered.frame (h : S.Covered) (hparts : S'.terms.integerParts = S.terms.integerParts)
    (hassertions : S'.assertions = S.assertions) (hdefined : S'.definedParts = S.definedParts) :
    S'.Covered := by
  rw [Covered, hparts, hassertions, hdefined]
  exact h

variable [Solver σ μ] [ScopedSolver σ μ]

theorem Scoped.depth_definedParts (h : S.Scoped) {lease : Nat} {context : Context σ}
    (hcontext : S.context = some (lease, context)) : S.definedParts.depth = S.assertions.depth := by
  obtain ⟨_, _, haligned⟩ := h.level lease context hcontext
  rw [haligned.defined, haligned.assertions]

/-- Whether a formula is asserted, or ties an integer part that is defined to its operand. -/
def Sent (S : Session σ μ) (f : Term) : Prop :=
  f ∈ S.assertions.items ∨ ∃ p ∈ S.terms.integerParts,
    p.1 ∈ S.definedParts.items ∧ f = integerPartConstraint p.1 p.2

theorem Scoped.sent (h : S.Scoped) (hS : S.Sound) {lease : Nat} {context : Context σ} {solver : σ}
    (hcontext : S.context = some (lease, context)) (hsolver : context.solver = some solver)
    {f : Term} (hf : f ∈ (held solver).items) : S.Sent f := by
  obtain ⟨solver', hsolver', haligned⟩ := h.level lease context hcontext
  obtain rfl := Option.some.inj (hsolver.symm.trans hsolver')
  refine (haligned.formulas.mem_held hf).imp_right fun ⟨k, hk, hf⟩ => ?_
  obtain ⟨operand, hp⟩ := h.known k hk
  rw [IntegerParts.constraintOf?_of_mem hS.terms.acyclic hp] at hf
  exact ⟨(k, operand), hp, hk, (Option.some.inj hf).symm⟩

/-! ### What a check is about -/

end Session

end SmtScript
