import SmtScript.Engine.Assignment
import SmtScript.Proofs.Term.HasSort
import SmtScript.Proofs.Term.Instantiation

/-!
Completions as interpretations.

A quantifier ranges over values of its sort, `hasSort_range`. A completion of nothing takes the
default everywhere, which makes it a proper interpretation.
-/

namespace SmtScript

namespace Engine

theorem hasSort_range (σ : Assignment) (isNested : Bool) (sort : SmtSort) :
    ∀ v ∈ σ.range isNested sort, v.HasSort sort := by
  intro v hv
  have hbits {width bound : Nat} (hv : v ∈ (List.range bound).map fun n =>
      Value.bitVec width (BitVec.ofNat width n)) : v.HasSort (.bitVec width) := by
    obtain ⟨n, _, rfl⟩ := List.mem_map.mp hv
    rfl
  cases sort with
  | bool => rcases List.mem_pair.mp hv with rfl | rfl <;> trivial
  | int =>
    obtain ⟨n, _, rfl⟩ := List.mem_map.mp hv
    trivial
  | real =>
    obtain ⟨n, _, rfl⟩ := List.mem_map.mp hv
    trivial
  | bitVec width =>
    have hv : v ∈ someBits width := hv
    unfold someBits at hv
    split at hv
    · exact hbits hv
    · exact hbits hv
  | user name =>
    obtain ⟨n, _, rfl⟩ := List.mem_map.mp hv
    rfl
  | array index elements =>
    obtain rfl := List.mem_singleton.mp hv
    exact Value.hasSort_default _
  | arrow domain codomain => cases v <;> trivial

/-- Properties that hold of the same values of a sort hold of all values in the same cases. -/
theorem holdsOfAll_congr (model : Completion) (sort : SmtSort) {p q : Value → Bool}
    (h : ∀ v : Value, v.HasSort sort → p v = q v) :
    model.interpretation.holdsOfAll sort p = model.interpretation.holdsOfAll sort q := by
  refine Bool.eq_iff_iff.mpr ?_
  simp only [Completion.interpretation, List.all_eq_true]
  exact forall₂_congr fun v hv => by rw [h v (hasSort_range _ _ _ v hv)]

/-- The completion of an assignment that says nothing. -/
def Completion.empty : Completion := ⟨[], true⟩

theorem symbol_empty (s : Symbol) :
    Completion.empty.interpretation.symbol s = .default s.sort := by
  have hsort : (plain s).sort = s.sort := by
    unfold plain
    split <;> rfl
  rw [← hsort]
  show Assignment.build [] (plain s).sort _ = _
  cases (plain s).sort <;> rfl

theorem proper_empty : Completion.empty.interpretation.Proper where
  symbol s := symbol_empty s ▸ Value.hasSort_default _
  apply f args := by
    have hvalue : Completion.empty.interpretation.apply f args = .default f.sort.target := rfl
    rw [hvalue]
    cases hfunction : (f.sort.afterArguments args.length).isFunction with
    | false =>
      rw [SmtSort.afterArguments_eq_target hfunction]
      exact Value.hasSort_default _
    | true =>
      -- nothing is asked of a function that waits for more arguments
      cases hsort : f.sort.afterArguments args.length <;> simp_all [SmtSort.isFunction]
  ranges sort _ _ h := holdsOfAll_congr _ sort h

end Engine

end SmtScript
