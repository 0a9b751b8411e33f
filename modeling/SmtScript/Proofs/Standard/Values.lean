import Mathlib.Data.List.Chain
import Mathlib.Tactic.Ring
import SmtScript.Proofs.Standard.Meaning
import SmtScript.Proofs.Term.Builds

/-!
Operations on pairs of values and on lists of values.

The standard looks at all operands of an application to tell whether they are reals. Going from
one operand to the next and making reals only where two sorts meet comes to the same.
-/

namespace SmtScript

namespace Standard

inductive IsNumber : Value → Prop where
  | int (n : Int) : IsNumber (.int n)
  | real (q : Rat) : IsNumber (.real q)

/-- Arithmetic on two numbers, of which neither needs to be Real. -/
def paired (onInt : Int → Int → Int) (onReal : Rat → Rat → Rat) : Value → Value → Value
  | .int a, .int b => .int (onInt a b)
  | v, w => .real (onReal (number v) (number w))

section Arithmetic

variable {onInt : Int → Int → Int} {onReal : Rat → Rat → Rat}

theorem isNumber_paired {v w : Value} : IsNumber (paired onInt onReal v w) := by
  unfold paired
  split
  · exact .int _
  · exact .real _

theorem isReal_paired {v w : Value} (hv : IsNumber v) (hw : IsNumber w) :
    isReal (paired onInt onReal v w) = (isReal v || isReal w) := by
  cases hv <;> cases hw <;> rfl

theorem number_paired (hom : ∀ a b, ((onInt a b : Int) : Rat) = onReal a b) {v w : Value}
    (hv : IsNumber v) (hw : IsNumber w) :
    number (paired onInt onReal v w) = onReal (number v) (number w) := by
  cases hv <;> cases hw <;> simp [paired, number, hom]

/-- Arithmetic from the left makes reals of the integers as soon as it meets a real. -/
theorem foldl_paired (hom : ∀ a b, ((onInt a b : Int) : Rat) = onReal a b) (vs : List Value)
    (v : Value) (hv : IsNumber v) (hvs : ∀ w ∈ vs, IsNumber w) :
    vs.foldl (paired onInt onReal) v = combined onInt onReal (v :: vs) := by
  induction vs generalizing v with
  | nil => cases hv <;> rfl
  | cons w rest ih =>
    have hw : IsNumber w := hvs w (by simp)
    rw [List.foldl_cons, ih _ isNumber_paired fun u hu => hvs u (by simp [hu])]
    have hany : (paired onInt onReal v w :: rest).any isReal = (v :: w :: rest).any isReal := by
      simp [isReal_paired hv hw, Bool.or_assoc]
    have hreal : fromLeft onReal ((paired onInt onReal v w :: rest).map number) =
        fromLeft onReal ((v :: w :: rest).map number) := by
      simp [fromLeft, number_paired hom hv hw]
    unfold combined
    rw [hany, hreal]
    split
    · rfl
    · rename_i hnone
      have hnone : isReal v = false ∧ isReal w = false := by
        simp only [List.any_cons, Bool.or_eq_true, not_or, Bool.not_eq_true] at hnone
        exact ⟨hnone.1, hnone.2.1⟩
      cases hv with
      | real q => cases hnone.1
      | int m =>
        cases hw with
        | real q => cases hnone.2
        | int n => simp [fromLeft, paired, integer]

end Arithmetic

/-! ### Unified values -/

theorem unified_eq_self {vs : List Value} (h : ∀ v ∈ vs, isReal v = false) : unified vs = vs := by
  unfold unified
  rw [if_neg (by simpa using h)]

theorem unified_eq_map {vs : List Value} (h : ∃ v ∈ vs, isReal v = true) :
    unified vs = vs.map fun v => .real (number v) := by
  unfold unified
  rw [if_pos (by simpa using h)]

/-- Unified values are the same numbers as before. -/
theorem map_number_unified (vs : List Value) : (unified vs).map number = vs.map number := by
  unfold unified
  split <;> simp [number]

/-- Unified numbers are told apart by what numbers they are. -/
theorem number_eq_iff_of_unified {vs : List Value} (hvs : ∀ v ∈ vs, IsNumber v) {v w : Value}
    (hv : v ∈ unified vs) (hw : w ∈ unified vs) : number v = number w ↔ v = w := by
  unfold unified at hv hw
  split at hv
  · rename_i hany
    rw [if_pos hany] at hw
    obtain ⟨_, _, rfl⟩ := List.mem_map.mp hv
    obtain ⟨_, _, rfl⟩ := List.mem_map.mp hw
    simp [number]
  · rename_i hnone
    rw [if_neg hnone] at hw
    simp only [List.any_eq_true, not_exists, not_and] at hnone
    have hv' := hnone v hv
    have hw' := hnone w hw
    cases hvs v hv with
    | real q => exact absurd rfl hv'
    | int m =>
      cases hvs w hw with
      | real q => exact absurd rfl hw'
      | int n => simp [number]

/-- Numbers are equal one after the other whether or not they are unified before. -/
theorem isChain_eq_unified {vs : List Value} (hvs : ∀ v ∈ vs, IsNumber v) :
    (unified vs).IsChain (· = ·) ↔ (vs.map number).IsChain (· = ·) := by
  rw [← map_number_unified vs, List.isChain_map]
  refine List.IsChain.iff_of_mem_imp fun v w hv hw => ?_
  exact (number_eq_iff_of_unified hvs hv hw).symm

/-- What a function makes of two values after they are unified. -/
def onUnified (f : Value → Value → Value) (v w : Value) : Value :=
  match unified [v, w] with
  | [v, w] => f v w
  | _ => default

theorem onUnified_bool (f : Value → Value → Value) (a b : Bool) :
    onUnified f (.bool a) (.bool b) = f (.bool a) (.bool b) := rfl

theorem onUnified_arith {op : ArithOp} {onInt : Int → Int → Int} {onReal : Rat → Rat → Rat}
    (hint : ∀ a b, Value.arith op (.int a) (.int b) = .int (onInt a b))
    (hreal : ∀ a b, Value.arith op (.real a) (.real b) = .real (onReal a b)) {v w : Value}
    (hv : IsNumber v) (hw : IsNumber w) :
    onUnified (Value.arith op) v w = paired onInt onReal v w := by
  cases hv <;> cases hw <;>
    simp [onUnified, unified, isReal, number, paired, hint, hreal]

theorem onUnified_eq {v w : Value} (hv : IsNumber v) (hw : IsNumber w) :
    onUnified (fun v w => .bool (decide (v = w))) v w = .bool (decide (number v = number w)) := by
  -- the two sides decide an equality of rationals by different instances
  cases hv <;> cases hw <;> simp [onUnified, unified, isReal, number] <;> congr

end Standard

end SmtScript
