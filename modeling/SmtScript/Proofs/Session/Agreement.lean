import Mathlib
import SmtScript.Proofs.Engine
import SmtScript.Proofs.Session.Enclosed
import SmtScript.Proofs.Session.Floors
import SmtScript.Proofs.Session.Resolution
import SmtScript.Proofs.Session.Values

/-!
Listed values and values that are asked for.

The value that is listed for a name is the one that the model gives to the symbol of the name.
Asked for the value of the name, a session answers the same unless the symbol stands for an integer
part: then it answers the floor of the operand, `Session.value_of_listed`. The two differ if the
model does not satisfy the constraint of the integer part, which is there for the integer parts of
assertions only.
-/

namespace SmtScript

open Solver Step

namespace IntegerParts

variable {parts : IntegerParts} {s : Symbol}

theorem mentionedIn_symbol (h : s ∉ parts.map Prod.fst) : parts.mentionedIn (.symbol s) = [] := by
  refine List.eq_nil_iff_forall_not_mem.mpr fun p hp => ?_
  obtain ⟨hpart, hfree⟩ := mem_mentionedIn.mp hp
  obtain rfl : p.1 = s := by simpa [Term.freeSymbols] using hfree
  exact h (List.mem_map_of_mem hpart)

end IntegerParts

namespace Session

variable {σ μ : Type} [Solver σ μ] {S S' S₁ : Session σ μ} {D : List Symbol} {name : String}
  {t : Term} {s : Symbol}

omit [Solver σ μ] in
/-- A name is read as what it is bound to. -/
theorem run_parseTerms_name (h : S.names.get? name = some (.term t)) :
    (parseTerms [.atom name]).run S = (.ok [t], S) := by
  have hfind : S.environment.find? name = some (.term t) := by
    simpa [environment, Environment.find?] using h
  have hparse : (parseTerm (.atom name)).run S = (.ok t, S) := by
    unfold parseTerm
    rw [run_bind_ok (run_get S), run_onTerms, translate.eq_def]
    dsimp only
    rw [translateAtom, hfind]
    rfl
  rw [parseTerms, run_bind_ok hparse, parseTerms, run_bind_ok (run_pure _ _), run_pure]

omit [Solver σ μ] in
/-- Only an active session has a model. -/
theorem active_of_ensureModel [Solver σ μ] (h : ensureModel.run S = (.ok ⟨⟩, S₁)) :
    S.status = .active := by
  unfold ensureModel at h
  rw [run_bind] at h
  split at h
  · rename_i hrun
    exact ((requireActive_leads closed_true S _ _ hrun).2 _ rfl).2
  · cases h

/-- The value of a name is that of what it is bound to, in the model that there is then. -/
theorem run_getValue_name (hname : S.names.get? name = some (.term t))
    (hensure : ensureModel.run S = (.ok ⟨⟩, S₁)) {v : Term} :
    (getValue [.atom name]).run S = (.ok [(.atom name, v)], S') ↔
      (onModel do IntegerParts.evaluate (σ := σ) (← IntegerParts.resolve (σ := σ) t)).run S₁ =
        (.ok v, S') := by
  unfold getValue
  rw [run_bind_ok (run_requireActive (active_of_ensureModel hensure)),
    run_bind_ok (run_parseTerms_name hname), run_bind_ok hensure, run_bind, evaluateAll, run_bind]
  generalize
    (onModel do IntegerParts.evaluate (σ := σ) (← IntegerParts.resolve (σ := σ) t)).run S₁ = p
  obtain ⟨r, S₂⟩ := p
  cases r with
  | error e =>
    refine ⟨fun h => ?_, fun h => ?_⟩
    · cases (Prod.mk.inj h).1
    · cases (Prod.mk.inj h).1
  | ok w =>
    refine ⟨fun h => ?_, fun h => ?_⟩
    · obtain ⟨heq, rfl⟩ := Prod.mk.inj h
      obtain rfl : w = v := by simpa using Except.ok.inj heq
      rfl
    · obtain ⟨heq, rfl⟩ := Prod.mk.inj h
      obtain rfl := Except.ok.inj heq
      rfl

theorem leftover_ensureModel (hensure : ensureModel.run S = (.ok ⟨⟩, S₁)) :
    S₁.terms.leftover = S.terms.leftover := by
  have hclosed : Closed fun S S' : Session σ μ => S'.terms.leftover = S.terms.leftover :=
    ⟨fun _ => rfl, fun h h' => h'.trans h⟩
  have hleads : Leads (fun S S' : Session σ μ => S'.terms.leftover = S.terms.leftover) ensureModel S
      fun _ _ => True := by
    refine .bind hclosed (requireActive_leads hclosed S) fun _ S' _ _ => .get ?_
    split
    · exact .pure hclosed trivial
    · refine .bind hclosed (Q := fun _ _ => True) ?_ fun _ S'' _ _ => .modify rfl trivial
      intro r S'' hrun
      cases hcontext : S'.context with
      | none =>
        obtain ⟨_, rfl⟩ := Prod.mk.inj ((run_onContext_none _ hcontext).symm.trans hrun)
        exact ⟨rfl, fun _ _ => trivial⟩
      | some p =>
        obtain ⟨_, rfl⟩ := Prod.mk.inj ((run_onContext _ hcontext).symm.trans hrun)
        exact ⟨rfl, fun _ _ => trivial⟩
  exact (hleads _ _ hensure).1

/-- A symbol that stands for no integer part is asked for as it is. -/
theorem getValue_of_gives {v : Term} (hname : S.names.get? name = some (.term (.symbol s)))
    (hensure : ensureModel.run S = (.ok ⟨⟩, S₁)) (hgives : S₁.Gives (.symbol s) v)
    (hpart : s ∉ S₁.terms.integerParts.map Prod.fst) :
    ∃ S', (getValue [.atom name]).run S = (.ok [(.atom name, v)], S') := by
  obtain ⟨lease, m, m', table', hmodel, hrun⟩ := hgives
  have hresolve (p : Option μ × TermState) (hp : p.2 = S₁.terms) :
      (IntegerParts.resolve (σ := σ) (.symbol s)).run p = (.ok (.symbol s), p) := by
    unfold IntegerParts.resolve
    rw [run_bind_ok (run_get p)]
    dsimp only
    rw [hp, IntegerParts.mentionedIn_symbol hpart]
    rfl
  have hvalue : (IntegerParts.evaluate (σ := σ) (.symbol s)).run (some m, S₁.terms) =
      (.ok v, some m', { S₁.terms with table := table' }) := by
    unfold IntegerParts.evaluate Model.evaluate
    rw [PartStep.run_ofModel, Model.run_ask _ hrun]
    rfl
  have hrun : (onModel do
      IntegerParts.evaluate (σ := σ) (← IntegerParts.resolve (σ := σ) (.symbol s))).run S₁ =
        (.ok v, S₁.withAsked (some m', { S₁.terms with table := table' })) := by
    rw [run_onModel, run_bind_ok (hresolve _ rfl), hmodel, Option.map_some, hvalue]
  exact ⟨_, (run_getValue_name hname hensure).mpr hrun⟩

/-! ### Integer parts -/

/-- In a tidy session floors can be put in the place of integer parts. -/
theorem Tidy.resolvable [GrowingSolver σ μ] (h : Tidy D S) :
    IntegerParts.Resolvable S.terms.integerParts (S.terms.Hidden D []) where
  proper := h.reachable.sound.terms.proper
  tame := h.confined.tame
  apart _ hs hmem := hs.2 (.inl (.inr hmem))

variable [ConsistentSolver σ μ] {I : Interpretation}

/-- A symbol that stands for an integer part is asked for as the floor of its operand. -/
theorem getValue_of_part {v : Term} (hS : Tidy D S) (hI : I.Proper)
    (hname : S.names.get? name = some (.term (.symbol s)))
    (hensure : ensureModel.run S = (.ok ⟨⟩, S₁)) (hreading : S₁.reading? = some I)
    (hrun : (getValue [.atom name]).run S = (.ok [(.atom name, v)], S')) :
    v = ((IntegerParts.read S.terms.integerParts I).symbol s).term := by
  have hvalue := (run_getValue_name hname hensure).mp hrun
  rw [run_onModel] at hvalue
  have hasked : IntegerParts.Asked σ S.terms.integerParts I (S₁.model.map Prod.snd, S₁.terms) := by
    refine ⟨?_, (ensureModel_still S _ _ hensure).1.integerParts,
      (leftover_ensureModel hensure).trans hS.clean⟩
    simpa [reading?, Function.comp_def] using hreading
  have hsymbol : (Term.symbol s).WellSorted := .node rfl (by simp [Term.operands])
  have hresolve := IntegerParts.resolve_value hS.resolvable hI hasked hsymbol (Term.tame_symbol s)
  exact (hresolve _ _ rfl).2 v (Prod.mk.inj hvalue).1

open IntegerParts in
/-- The value that is listed for an integer part is the one that is asked for if the model says of
its symbol that it is the floor, and so if the model satisfies the constraints that it needs. -/
theorem term_symbol_eq_iff {parts : IntegerParts} {q : Symbol × Term} (hparts : Proper parts)
    (hI : I.WellSorted) (hq : q ∈ parts) :
    ((parts.read I).symbol q.1).term = .int (q.2.eval (parts.read I)).floor ∧
      ((I.symbol q.1).term = ((parts.read I).symbol q.1).term ↔
        I.symbol q.1 = .int (q.2.eval (parts.read I)).floor) ∧
      ((∀ p, Occurs parts [.symbol q.1] p → (integerPartConstraint p.1 p.2).eval I = .bool true) →
        I.symbol q.1 = .int (q.2.eval (parts.read I)).floor) := by
  have hread := symbol_read hparts.acyclic I hq
  obtain ⟨n, hn⟩ := Value.hasSort_int.mp (hparts.sort_symbol q hq ▸ hI.symbol q.1)
  refine ⟨by rw [hread]; rfl, ?_, fun hconstraints => ?_⟩
  · rw [hread, hn]
    simp [Value.term]
  · have hextends : parts.Extends I I := ⟨hI, .refl I⟩
    have hoccurs : Occurs parts [.symbol q.1] q :=
      .direct hq List.mem_cons_self (by simp [Term.freeSymbols])
    rw [symbol_eq_read hparts hextends hconstraints q hoccurs, hread]

/-- The value that is listed for a name is the value of its symbol in the model. So is the value
that is asked for, unless the symbol stands for an integer part. Then an answer, as long as no
substitution has been left unfinished, is the floor of the operand; it is the listed value exactly
if the model gives this floor to the symbol, as it does if it satisfies the constraints of the
integer part and of those in its operand. -/
theorem value_of_listed {listing : List ModelEntry} (hS : S.Reachable)
    (hrun : getModel.run S = (.ok listing, S')) :
    ∃ I, S'.reading? = some I ∧ ∀ e ∈ listing, e.parameters = [] →
      ∃ s, S.names.get? e.name = some (.term (.symbol s)) ∧ e.value = (I.symbol s).term ∧
        (s ∉ S.terms.integerParts.map Prod.fst →
          ∃ S'', (getValue [.atom e.name]).run S = (.ok [(.atom e.name, e.value)], S'')) ∧
        ∀ D operand v S'', Tidy D S → I.Proper → (s, operand) ∈ S.terms.integerParts →
          (getValue [.atom e.name]).run S = (.ok [(.atom e.name, v)], S'') →
            let floor := (operand.eval (IntegerParts.read S.terms.integerParts I)).floor
            v = .int floor ∧ (e.value = v ↔ I.symbol s = .int floor) ∧
              ((∀ p, IntegerParts.Occurs S.terms.integerParts [.symbol s] p →
                (integerPartConstraint p.1 p.2).eval I = .bool true) → e.value = v) := by
  obtain ⟨S₁, hensure, harisen, hreading, hentries⟩ := getModel_entries hS.orderly hrun
  obtain ⟨lease, m, hmodel, _⟩ := harisen
  refine ⟨ConsistentSolver.reading (σ := σ) m, hreading.trans (by simp [reading?, hmodel]),
    fun e he hnone => ?_⟩
  have hreading₁ : S₁.reading? = some (ConsistentSolver.reading (σ := σ) m) := by
    simp [reading?, hmodel]
  obtain ⟨s, hname, hgives⟩ := hentries e he hnone
  have hvalue : e.value = _ := hgives.eq hreading₁
  refine ⟨s, hname, hvalue, fun hpart => ?_, fun D operand v S'' htidy hI hmem hasked => ?_⟩
  · refine getValue_of_gives hname hensure hgives ?_
    rwa [(ensureModel_still S _ _ hensure).1.integerParts]
  · obtain ⟨hfloor, hiff, hconstraints⟩ :=
      term_symbol_eq_iff hS.sound.terms.proper hI.toWellSorted hmem
    obtain rfl := getValue_of_part htidy hI hname hensure hreading₁ hasked
    rw [hvalue]
    exact ⟨hfloor, hiff, fun hall => hiff.mpr (hconstraints hall)⟩

/-- So it is for a constant that no assertion is about. -/
theorem value_of_listed_constant : ∃ (S : Session Engine Engine.Model) (listing : List ModelEntry)
    (S' : Session Engine Engine.Model),
    after [.list [.atom "set-logic", .atom "ALL"],
      .list [.atom "declare-const", .atom "x", .atom "Int"], .list [.atom "check-sat"]]
      (start (.ofSolver "z3")) = S ∧
    getModel.run S = (.ok listing, S') ∧ listing.map ModelEntry.name = ["x"] ∧
    ∀ e ∈ listing, e.parameters = [] →
      ∃ S'', (getValue [.atom e.name]).run S = (.ok [(.atom e.name, e.value)], S'') := by
  obtain ⟨S, hS⟩ : ∃ S : Session Engine Engine.Model,
    after [.list [.atom "set-logic", .atom "ALL"],
      .list [.atom "declare-const", .atom "x", .atom "Int"], .list [.atom "check-sat"]]
      (start (.ofSolver "z3")) = S := ⟨_, rfl⟩
  have hok : (getModel.run S : Except Error (List ModelEntry) × _).1.map
      (·.map ModelEntry.name) = .ok ["x"] := by
    subst hS
    cbv
  have hparts : S.terms.integerParts = [] := by
    subst hS
    cbv
  obtain ⟨⟨result, S'⟩, hrun⟩ : ∃ p : Except Error (List ModelEntry) × Session Engine Engine.Model,
    getModel.run S = p := ⟨_, rfl⟩
  cases result with
  | error e => simp [hrun, Except.map] at hok
  | ok listing =>
    obtain ⟨I, -, hentries⟩ := value_of_listed ⟨_, _, hS⟩ hrun
    refine ⟨S, listing, S', hS, hrun, by simpa [hrun, Except.map] using hok, fun e he hnone => ?_⟩
    obtain ⟨s, -, -, hplain, -⟩ := hentries e he hnone
    exact hplain (by simp [hparts])

end Session

end SmtScript
