import Mathlib
import SmtScript.Proofs.Engine
import SmtScript.Proofs.Engine.Completion
import SmtScript.Proofs.Session.Floors
import SmtScript.Proofs.Session.Neat
import SmtScript.Proofs.Session.Resolution

/-!
Values of terms with integer parts.

Before a model is asked for a term, each integer part in it is replaced by the floor of its operand,
computed in the model after those of the integer parts in it. Whatever the model says of the symbols
for integer parts, the values are those under the one reading that differs from the model in these
symbols only and makes floors of them, `values_with_floors`. They are the values in the model itself
if it satisfies the constraints of the integer parts.
-/

namespace SmtScript

open Solver Step IntegerParts

/-- Floors can be put in the place of integer parts, as no bound variable stands for one. -/
theorem TermState.resolvable {T : TermState} (hsound : T.Sound) (hneat : T.Neat) :
    IntegerParts.Resolvable T.integerParts T.Bindable where
  proper := hsound.proper
  tame := hneat.operands
  apart _ hs := hs.2

namespace Session

variable {σ μ α : Type} {S S' : Session σ μ} [Solver σ μ] [ConsistentSolver σ μ]
  {parts : IntegerParts} {I : Interpretation} {hidden : Symbol → Prop}

/-- Whether the model of a session reads symbols in some way, with nothing left of a
substitution. -/
abbrev Answering (parts : IntegerParts) (I : Interpretation) (S : Session σ μ) : Prop :=
  Asked σ parts I (S.model.map Prod.snd, S.terms)

theorem onModel_obtains {step : PartStep μ α} {Q : α → Prop} (hS : S.Answering parts I)
    (h : Obtains σ I step (S.model.map Prod.snd, S.terms) fun p a => Asked σ parts I p ∧ Q a) :
    Obtains σ I (onModel step) S fun S' a => S'.Answering parts I ∧ Q a := by
  have hrun := run_onModel step S
  rcases h.cases with ⟨a, p', hok, hp', ha⟩ | ⟨e, p', herror, hrefused⟩
  · rw [hok] at hrun
    have hmodel : p'.1.isSome = S.model.isSome := by
      simpa using congrArg Option.isSome (hp'.reading.trans hS.reading.symm)
    refine .of_run hrun ⟨?_, ha⟩
    rw [Answering, model_withAsked hmodel]
    exact hp'
  · rw [herror] at hrun
    exact .of_refused hrun hrefused

/-- The terms are asked for one after the other, each with integer parts read as floors. -/
theorem evaluateAll_obtains (hparts : parts.Resolvable hidden) (hI : I.Proper) {ts : List Term}
    (hts : ∀ t ∈ ts, t.WellSorted ∧ t.Tame hidden) (hS : S.Answering parts I) :
    Obtains σ I (evaluateAll ts) S fun S' vs => S'.Answering parts I ∧
      vs = ts.map fun t => (t.eval (parts.read I)).term := by
  induction ts generalizing S with
  | nil => exact .of_run (run_pure _ _) ⟨hS, rfl⟩
  | cons t rest ih =>
    obtain ⟨⟨ht, htame⟩, hrest⟩ := List.forall_mem_cons.mp hts
    refine (onModel_obtains hS (resolve_obtains hparts hI hS ht htame)).bind fun v S₁ h₁ => ?_
    refine (ih hrest h₁.1).bind fun vs S₂ h₂ => ?_
    obtain ⟨hS₂, rfl⟩ := h₂
    obtain rfl := h₁.2
    exact .of_run (run_pure _ _) ⟨hS₂, rfl⟩

/-- What a session that a run leads to reads as terms has the values with floors in every model, one
term at a time or all in a row, unless the model refuses to answer a question. If the constraints of
all integer parts that occur in a term hold in the model, this is the value in the model itself. -/
theorem values_with_floors (h : S.Reachable) {sexprs : List SExpr} {ts : List Term}
    (hparse : (parseTerms sexprs).run S = (.ok ts, S')) (hclean : S'.terms.leftover = none)
    {m : μ} (hreading : ConsistentSolver.reading (σ := σ) m = I) (hI : I.Proper) :
    ∃ J, (∀ J', TakesFloors S'.terms.integerParts I J' ↔ J' = J) ∧
      (∀ t ∈ ts,
        ((∃ p, (do evaluate (σ := σ) (← resolve (σ := σ) t)).run (some m, S'.terms) =
            (.ok (t.eval J).term, p)) ∨
          ∃ e p, (do evaluate (σ := σ) (← resolve (σ := σ) t)).run (some m, S'.terms) =
            (.error e, p) ∧ Refused σ I e) ∧
        ((∀ p, Occurs S'.terms.integerParts [t] p →
          (integerPartConstraint p.1 p.2).eval I = .bool true) → t.eval J = t.eval I)) ∧
      ∀ S₁ : Session σ μ, S₁.terms = S'.terms → S₁.model.map Prod.snd = some m →
        (∃ S₂, (evaluateAll ts).run S₁ = (.ok (ts.map fun t => (t.eval J).term), S₂)) ∨
          ∃ e S₂, (evaluateAll ts).run S₁ = (.error e, S₂) ∧ Refused σ I e := by
  obtain ⟨hreads, hsound⟩ := parseTerms_reads h.sound sexprs _ _ hparse
  obtain ⟨hwidens, htame⟩ := parseTerms_neat h.neat sexprs _ _ hparse
  have hS' := hreads.sound h.sound
  have hparts := TermState.resolvable hS'.terms (hwidens.widens.neat h.neat).terms
  have hts : ∀ t ∈ ts, t.WellSorted ∧ t.Tame S'.terms.Bindable := fun t ht =>
    ⟨(hsound ts rfl t ht).wellSorted, htame ts rfl t ht⟩
  have hasked : Asked σ S'.terms.integerParts I (some m, S'.terms) :=
    ⟨congrArg some hreading, rfl, hclean⟩
  have hacyclic := hparts.proper.acyclic
  refine ⟨IntegerParts.read S'.terms.integerParts I, fun J' => takesFloors_iff hacyclic,
    fun t ht => ⟨?_, fun hconstraints => ?_⟩, fun S₁ hterms hmodel => ?_⟩
  · obtain ⟨hwell, htame⟩ := hts t ht
    rcases (resolve_obtains hparts hI hasked hwell htame).cases with ⟨v, p, hok, _, rfl⟩ | hrefused
    · exact .inl ⟨p, hok⟩
    · exact .inr hrefused
  · exact (eval_eq_read_of_constraints hparts.proper hI.toWellSorted hconstraints).symm
  · have hS₁ : S₁.Answering S'.terms.integerParts I := by
      rw [Answering, hmodel, hterms]
      exact hasked
    rcases (evaluateAll_obtains hparts hI hts hS₁).cases with ⟨vs, S₂, hok, _, rfl⟩ | hrefused
    · exact .inl ⟨S₂, hok⟩
    · exact .inr hrefused

/-- So the integer part of `x + 2` is `2` in a model that knows nothing of `x`, and nothing of the
symbol that stands for the integer part. -/
theorem values_with_floors_unconstrained :
    let commands : List SExpr := [.list [.atom "set-logic", .atom "ALL"],
      .list [.atom "declare-const", .atom "x", .atom "Real"]]
    let sexpr : SExpr := .list [.atom "to_int", .list [.atom "+", .atom "x", .atom "2"]]
    let m : Engine.Model := ⟨.empty, .start⟩
    ∃ (S S' : Session Engine Engine.Model) (t : Term),
      after commands (start (.ofSolver "z3")) = S ∧ (parseTerms [sexpr]).run S = (.ok [t], S') ∧
      S'.terms.leftover = none ∧ t.eval m.completion.interpretation = .int 0 ∧
      ((∃ p, (do evaluate (σ := Engine) (← resolve (σ := Engine) t)).run (some m, S'.terms) =
          (.ok (.int 2), p)) ∨
        ∃ e p, (do evaluate (σ := Engine) (← resolve (σ := Engine) t)).run (some m, S'.terms) =
          (.error e, p) ∧ Refused Engine m.completion.interpretation e) := by
  intro commands sexpr m
  obtain ⟨S, hS⟩ : ∃ S : Session Engine Engine.Model,
    after commands (start (.ofSolver "z3")) = S := ⟨_, rfl⟩
  obtain ⟨⟨r, S'⟩, hrun⟩ : ∃ q : Except Error (List Term) × Session Engine Engine.Model,
    (parseTerms [sexpr]).run S = q := ⟨_, rfl⟩
  have hfacts : (r, S'.terms.integerParts, S'.terms.leftover) =
      (.ok [.symbol ⟨"to_int_0", .int⟩],
        [(⟨"to_int_0", .int⟩, .arith .add (.symbol ⟨"x", .real⟩) (.real 2))], none) := by
    have hresult := congrArg Prod.fst hrun
    have hstate := congrArg Prod.snd hrun
    dsimp only at hresult hstate
    rw [← hresult, ← hstate, ← hS]
    cbv
    rw [Term.symbols_eq]
    cbv
  simp only [Prod.mk.injEq] at hfacts
  obtain ⟨rfl, hparts, hclean⟩ := hfacts
  obtain ⟨J, hJ, hvalues, -⟩ := values_with_floors (I := m.completion.interpretation)
    ⟨_, _, hS⟩ hrun hclean rfl Engine.proper_empty
  have hfloors := (hJ J).mpr rfl
  rw [hparts] at hfloors
  have hx : J.symbol ⟨"x", .real⟩ = .real 0 := by
    rw [← hfloors.agree.symbol _ (by simp), Engine.symbol_empty]
    rfl
  have hvalue : J.symbol ⟨"to_int_0", .int⟩ = .int 2 := by
    rw [hfloors.floor _ (List.mem_singleton_self _)]
    simp only [Term.eval, hx]
    decide +kernel
  have hrun' := (hvalues _ (List.mem_singleton_self _)).1
  simp only [Term.eval, hvalue] at hrun'
  exact ⟨S, S', _, hS, hrun, hclean, Engine.symbol_empty _, hrun'⟩

end Session

end SmtScript
