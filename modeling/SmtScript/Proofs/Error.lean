import SmtScript.Error
import SmtScript.Proofs.Steps

/-!
Errors that have no wording.

An error has no wording if nothing is told about it, or if its message has to name a sort that has
no name, `Error.report_eq_none`. `Tells` says that a computation fails only in ways that are told,
`Step.Owns` that a step fails in another way for a cause only.
-/

namespace SmtScript

namespace Fault

/-- Whether nothing is told about a fault. -/
def isSilent : Fault → Bool
  | .broken => true
  | _ => false

theorem isSilent_iff {f : Fault} : f.isSilent = true ↔ f = .broken := by
  cases f <;> simp [isSilent]

theorem isTold_eq_false {f : Fault} :
    f.isTold = false ↔ f.isSilent = true ∨ ∃ sort ∈ f.sorts, sort.isNamed = false := by
  cases f with
  | redefined name sort previous =>
    cases hsort : sort.isNamed <;> simp [isTold, isSilent, sorts, hsort]
  | _ => simp [isTold, isSilent, sorts]

end Fault

namespace Error

/-- Whether nothing is told about an error. -/
def isSilent : Error → Bool
  | .defect => true
  | .fault f _ _ _ => f.isSilent
  | _ => false

/-- The sorts that a message names. -/
def namedSorts : Error → List SmtSort
  | .cannotNegate sort | .divOperands sort _ | .absOperand sort | .toIntOperand sort => [sort]
  | .bodySort _ found expected _ => [found, expected]
  | .fault f _ _ _ => f.sorts
  | _ => []

theorem aboutSort_eq_none {sort : SmtSort} {message : String → String} {sexpr : Option SExpr} :
    aboutSort sort message sexpr = none ↔ sort.isNamed = false := by
  simp [aboutSort, about, SmtSort.name?]

theorem report_eq_none {e : Error} :
    e.report = none ↔ e.isSilent = true ∨ ∃ sort ∈ e.namedSorts, sort.isNamed = false := by
  cases e with
  | fault f sexpr terms sorts =>
    rw [isSilent, namedSorts, ← Fault.isTold_eq_false, report]
    cases f.isTold <;> simp
  | bodySort name found expected body =>
    cases hfound : found.isNamed <;>
      simp [report, isSilent, namedSorts, SmtSort.name?, aboutSort_eq_none, hfound]
  | cannotNegate sort => simp [report, isSilent, namedSorts, aboutSort_eq_none]
  | divOperands sort sexpr => simp [report, isSilent, namedSorts, aboutSort_eq_none]
  | absOperand sort => simp [report, isSilent, namedSorts, aboutSort_eq_none]
  | toIntOperand sort => simp [report, isSilent, namedSorts, aboutSort_eq_none]
  | defect => simp [report, isSilent]
  | _ => simp [report, isSilent, namedSorts, about, atPosition, fromSolver]

end Error

/-! ### Computations that tell why they fail -/

/-- Whether a computation that fails does so in one of the ways that are told. -/
def Tells {ε α : Type} (silent : ε → Prop) (x : Except ε α) : Prop :=
  ∀ e, x = .error e → ¬ silent e

namespace Tells

variable {ε δ α β : Type} {silent : ε → Prop} {x : Except ε α}

theorem ok (a : α) : Tells silent (.ok a) := fun _ h => nomatch h

theorem error {e : ε} (h : ¬ silent e) : Tells silent (.error e : Except ε α) :=
  fun _ he => Except.error.inj he ▸ h

theorem bind {f : α → Except ε β} (hx : Tells silent x)
    (hf : ∀ a, x = .ok a → Tells silent (f a)) : Tells silent (x >>= f) := by
  cases x with
  | error e => exact .error (hx e rfl)
  | ok a => exact hf a rfl

theorem mapError {silent' : δ → Prop} {f : ε → δ} (h : Tells silent x)
    (hf : ∀ e, silent' (f e) → silent e) : Tells silent' (x.mapError f) := by
  cases x with
  | error e => exact .error fun hsilent => h e rfl (hf e hsilent)
  | ok a => exact .ok a

theorem map (h : Tells silent x) (f : α → β) : Tells silent (x.map f) := by
  cases x with
  | error e => exact .error (h e rfl)
  | ok a => exact .ok _

theorem mapM {f : α → Except ε β} {as : List α} (hf : ∀ a ∈ as, Tells silent (f a)) :
    Tells silent (as.mapM f) := by
  induction as with
  | nil => exact .ok _
  | cons a rest ih =>
    obtain ⟨hfirst, hrest⟩ := List.forall_mem_cons.mp hf
    rw [List.mapM_cons]
    exact .bind hfirst fun _ _ => .bind (ih hrest) fun _ _ => .ok _

end Tells

/-- Whether a step that fails without a word does so for a cause. -/
abbrev Step.Owns {σ α : Type} (cause : σ → Prop) (x : ExceptT Error (StateM σ) α) (s : σ) : Prop :=
  Step.Stops (fun e s' => e.isSilent = true → cause s') x s

namespace Step.Owns

variable {σ α : Type} {cause : σ → Prop} {s : σ}

theorem throw {e : Error} (h : e.isSilent = false) :
    Step.Owns cause (MonadExcept.throw e : ExceptT Error (StateM σ) α) s :=
  Step.Stops.throw fun hsilent => absurd hsilent (by simp [h])

theorem mk {r : Except Error α} (h : ∀ e, r = .error e → e.isSilent = true → cause s) :
    Step.Owns cause (ExceptT.mk (pure r) : ExceptT Error (StateM σ) α) s := by
  intro e s' hrun
  obtain ⟨he, rfl⟩ := Prod.mk.inj hrun
  exact h e he

theorem told {r : Except Error α} (h : Tells (·.isSilent = true) r) :
    Step.Owns cause (ExceptT.mk (pure r) : ExceptT Error (StateM σ) α) s :=
  .mk fun e he hsilent => (h e he hsilent).elim

end Step.Owns

end SmtScript
