import SmtScript.Proofs.Floor
import SmtScript.Proofs.IntegerPart.Order
import SmtScript.Proofs.Session.Running
import SmtScript.Proofs.Term.Instantiation

/-!
Terms with floors in the place of integer parts.

The floors of integer parts are asked for one after the other, each with the floors of those before
it put into its operand. Every floor is that of the operand when all integer parts are read as
floors, and so the value of a term in which they are put is its value with such a reading,
`IntegerParts.resolve_obtains`. Nothing fails on the way unless the model refuses to answer a
question.
-/

namespace SmtScript

namespace IntegerParts

open Interpretation Solver Step Term

variable {parts : IntegerParts} {q : Symbol × Term} {I : Interpretation} {hidden : Symbol → Prop}
  {known : Substitution} {t : Term}

/-! ### Substituted floors -/

/-- Whether each integer part has its floor put in its place, if anything. -/
def AreFloors (parts : IntegerParts) (I : Interpretation) (known : Substitution) : Prop :=
  ∀ r ∈ known, ∃ q ∈ parts, r = (q.1, .int (q.2.eval (parts.read I)).floor)

/-- Whether floors can be put in the place of integer parts: no bound variable of an operand has to
do with them. -/
structure Resolvable (parts : IntegerParts) (hidden : Symbol → Prop) : Prop where
  proper : parts.Proper
  tame : ∀ p ∈ parts, p.2.Tame hidden
  apart : ∀ s, hidden s → s ∉ parts.map Prod.fst

/-- With the floors of all integer parts that are free in it, a term is read with floors. -/
theorem eval_bind_floors (hacyclic : Acyclic parts) (hknown : parts.AreFloors I known)
    (hcovers : ∀ q ∈ parts, q.1 ∈ t.freeSymbols → q.1 ∈ known.map Prod.fst) :
    t.eval (I.bind known) = t.eval (parts.read I) := by
  have hread := agree_read parts I
  refine eval_congr ⟨fun s hs => ?_, hread.apply, hread.holdsOfAll⟩
  unfold Interpretation.bind
  dsimp only
  split
  · rename_i u hlookup
    obtain ⟨before, after, hsplit, _⟩ := List.lookup_eq_some_iff.mp hlookup
    obtain ⟨q, hq, heq⟩ := hknown (s, u) (by simp [hsplit])
    obtain ⟨rfl, rfl⟩ := Prod.mk.inj heq
    exact (symbol_read hacyclic I hq).symm
  · rename_i hlookup
    refine hread.symbol s fun hpart => ?_
    obtain ⟨q, hq, rfl⟩ := List.mem_map.mp hpart
    obtain ⟨r, hr, heq⟩ := List.mem_map.mp (hcovers q hq hs)
    have hne := List.lookup_eq_none_iff.mp hlookup r hr
    simp [heq] at hne

theorem substitute_floors (hparts : parts.Resolvable hidden) (hI : I.Proper)
    (hknown : parts.AreFloors I known) (ht : t.WellSorted) (htame : t.Tame hidden)
    (hcovers : ∀ q ∈ parts, q.1 ∈ t.freeSymbols → q.1 ∈ known.map Prod.fst) :
    ∃ u, t.substitute known = .ok u ∧ u.eval I = t.eval (parts.read I) := by
  have htyped : ∀ r ∈ known, r.2.Typed r.1.sort := by
    intro r hr
    obtain ⟨q, hq, rfl⟩ := hknown r hr
    rw [hparts.proper.sort_symbol q hq]
    exact typed_int _
  have hhidden : ∀ s, hidden s → known.lookup s = none ∧ ∀ r ∈ known, s ∉ r.2.freeSymbols := by
    refine fun s hs => ⟨List.lookup_eq_none_iff.mpr fun r hr => ?_, fun r hr => ?_⟩
    · obtain ⟨q, hq, rfl⟩ := hknown r hr
      have hne : s ≠ q.1 := fun heq => hparts.apart s hs (heq ▸ List.mem_map_of_mem hq)
      simpa using hne
    · obtain ⟨q, _, rfl⟩ := hknown r hr
      simp [freeSymbols]
  obtain ⟨u, hu, hbecomes⟩ := substitute_becomes ht htame htyped hhidden
  refine ⟨u, hu, ?_⟩
  rw [hbecomes.eval I hI, eval_bind_floors hparts.proper.acyclic hknown hcovers]

/-! ### Asking for floors -/

variable {σ μ : Type} [Solver σ μ]

variable [ConsistentSolver σ μ] {p : Option μ × TermState}

/-- Whether a model is asked that reads symbols in some way, with nothing left of a substitution. -/
structure Asked (σ : Type) {μ : Type} [Solver σ μ] [ConsistentSolver σ μ] (parts : IntegerParts)
    (I : Interpretation) (p : Option μ × TermState) : Prop where
  reading : p.1.map (ConsistentSolver.reading (σ := σ)) = some I
  parts : p.2.integerParts = parts
  clean : p.2.leftover = none

/-- Whether an error is that of a question which a model has refused to answer. -/
inductive Refused (σ : Type) {μ : Type} [Solver σ μ] [ConsistentSolver σ μ] (I : Interpretation) :
    Error → Prop where
  | intro {t : Term} {m m' : μ} {table table' : SymbolTable} {f : Fault}
      (hreading : ConsistentSolver.reading (σ := σ) m = I)
      (hrun : (Solver.evaluate σ t).run (m, table) = (.error f, m', table')) :
      Refused σ I (Model.errorAbout t f)

/-- Whether a step fails only where the model refuses to answer, and otherwise does what is
expected. -/
def Obtains {α ρ : Type} (σ : Type) {μ : Type} [Solver σ μ] [ConsistentSolver σ μ]
    (I : Interpretation) (step : ExceptT Error (StateM ρ) α) (s : ρ) (Q : ρ → α → Prop) : Prop :=
  Stops (fun e _ => Refused σ I e) step s ∧ Leads (fun _ _ => True) step s Q

section

variable {α β ρ : Type} {step : ExceptT Error (StateM ρ) α} {s s' : ρ} {a : α} {Q : ρ → α → Prop}

theorem Obtains.of_run (hrun : step.run s = (.ok a, s')) (h : Q s' a) : Obtains σ I step s Q :=
  ⟨.of_ok hrun, .of_run hrun trivial fun _ ha => Except.ok.inj ha ▸ h⟩

theorem Obtains.of_refused {e : Error} (hrun : step.run s = (.error e, s')) (h : Refused σ I e) :
    Obtains σ I step s Q :=
  ⟨.of_error hrun h, .of_run hrun trivial nofun⟩

theorem Obtains.bind {f : α → ExceptT Error (StateM ρ) β} {Q' : ρ → β → Prop}
    (h : Obtains σ I step s Q) (hf : ∀ a s', Q s' a → Obtains σ I (f a) s' Q') :
    Obtains σ I (step >>= f) s Q' :=
  Stops.bind_and_leads closed_true h fun a s' _ ha => hf a s' ha

/-- A step that is known to succeed is passed by. -/
theorem Obtains.bind_of_run {f : α → ExceptT Error (StateM ρ) β} {Q' : ρ → β → Prop}
    (hrun : step.run s = (.ok a, s')) (h : Obtains σ I (f a) s' Q') :
    Obtains σ I (step >>= f) s Q' :=
  ⟨.bind_of_run hrun h.1, .bind_of_run hrun h.2⟩

theorem Obtains.mono {Q' : ρ → α → Prop} (h : Obtains σ I step s Q)
    (hQ : ∀ s' a, Q s' a → Q' s' a) : Obtains σ I step s Q' :=
  ⟨h.1, h.2.mono fun s' a _ => hQ s' a⟩

/-- There is a result unless the model refuses. -/
theorem Obtains.cases (h : Obtains σ I step s Q) :
    (∃ a s', step.run s = (.ok a, s') ∧ Q s' a) ∨
      ∃ e s', step.run s = (.error e, s') ∧ Refused σ I e := by
  obtain ⟨⟨r, s'⟩, hrun⟩ : ∃ q : Except Error α × ρ, step.run s = q := ⟨_, rfl⟩
  cases r with
  | ok a => exact .inl ⟨a, s', hrun, (h.2 _ _ hrun).2 a rfl⟩
  | error e => exact .inr ⟨e, s', hrun, h.1 e s' hrun⟩

end

theorem evaluate_asked (hp : Asked σ parts I p) (t : Term) :
    Obtains σ I (evaluate (σ := σ) t) p fun p' v =>
      Asked σ parts I p' ∧ v = (t.eval I).term := by
  obtain ⟨model, T⟩ := p
  obtain ⟨hreading, hparts, hclean⟩ := hp
  obtain ⟨m, rfl, hm⟩ := Option.map_eq_some_iff.mp hreading
  obtain ⟨⟨r, m', table'⟩, hrun⟩ :
    ∃ q, (Solver.evaluate σ t).run (m, T.table) = q := ⟨_, rfl⟩
  have hask := PartStep.run_ofModel (Model.ask t (Solver.evaluate σ t)) (some m, T)
  rw [Model.run_ask t hrun] at hask
  cases r with
  | error f => exact .of_refused hask (.intro hm hrun)
  | ok v =>
    refine .of_run hask ⟨⟨?_, hparts, hclean⟩, hm ▸ ConsistentSolver.value hrun⟩
    exact congrArg some ((ConsistentSolver.asked (.evaluate t) hrun).trans hm)

theorem run_substitute (hp : Asked σ parts I p) {u : Term} (hu : t.substitute known = .ok u) :
    (substitute known t).run p = (.ok u, p) := by
  obtain ⟨model, T⟩ := p
  have hleftover : T.leftover = none := hp.clean
  have hsame : ({ T with leftover := none } : TermState) = T := by rw [← hleftover]
  unfold IntegerParts.substitute
  rw [run_bind_ok (run_get _)]
  dsimp only
  rw [hleftover, substituteOver_none hu, run_bind_ok (run_set _ _)]
  dsimp only
  rw [hsame, run_pure]

/-- The floor of an operand, once the floors of all integer parts in it are known. -/
theorem floors_one (hparts : parts.Resolvable hidden) (hI : I.Proper) (hp : Asked σ parts I p)
    (hknown : parts.AreFloors I known) (hq : q ∈ parts)
    (hcovers : ∀ r ∈ parts, r.1 ∈ q.2.freeSymbols → r.1 ∈ known.map Prod.fst) :
    Obtains σ I (floors (σ := σ) [q] known) p fun p' known' =>
      Asked σ parts I p' ∧ known' = (q.1, .int (q.2.eval (parts.read I)).floor) :: known := by
  obtain ⟨u, hu, heval⟩ := substitute_floors hparts hI hknown (hparts.proper.operand q hq)
    (hparts.tame q hq) hcovers
  obtain ⟨n, hn⟩ := Value.hasSort_real.mp
    (hparts.proper.sort_operand q hq ▸
      hasSort_eval (wellSorted_read hparts.proper hI.toWellSorted) (hparts.proper.operand q hq))
  unfold floors
  refine .bind_of_run (run_substitute hp hu) ?_
  refine (evaluate_asked hp u).bind fun v p' hv => ?_
  obtain ⟨hp', rfl⟩ := hv
  rw [heval, hn]
  exact .of_run (run_pure _ _) ⟨hp', rfl⟩

/-- The floors of integer parts, each of which comes after those in its operand. -/
theorem floors_asked (hparts : parts.Resolvable hidden) (hI : I.Proper) (hp : Asked σ parts I p)
    (hknown : parts.AreFloors I known) {order : IntegerParts} (horder : ∀ q ∈ order, q ∈ parts)
    (hordered : Ordered parts (known.map Prod.fst) order) :
    Obtains σ I (floors (σ := σ) order known) p fun p' known' =>
      Asked σ parts I p' ∧ parts.AreFloors I known' ∧
        known'.map Prod.fst = (order.map Prod.fst).reverse ++ known.map Prod.fst := by
  induction order generalizing p known with
  | nil => exact .of_run (run_pure _ _) ⟨hp, hknown, rfl⟩
  | cons q rest ih =>
    obtain ⟨hq, hrest⟩ := List.forall_mem_cons.mp horder
    obtain ⟨hcovers, hordered⟩ := hordered
    rw [← List.singleton_append, floors_append]
    refine (floors_one hparts hI hp hknown hq hcovers).bind fun known' p' h => ?_
    obtain ⟨hp', rfl⟩ := h
    have hknown' := List.forall_mem_cons.mpr ⟨⟨q, hq, rfl⟩, hknown⟩
    refine (ih hp' hknown' hrest hordered).mono fun p'' known'' h => ⟨h.1, h.2.1, ?_⟩
    rw [h.2.2]
    simp

/-- A term in which integer parts are resolved has the value that it has with floors, and nothing
but the model stands in the way of it. -/
theorem resolve_obtains (hparts : parts.Resolvable hidden) (hI : I.Proper)
    (hp : Asked σ parts I p) (ht : t.WellSorted) (htame : t.Tame hidden) :
    Obtains σ I (do evaluate (σ := σ) (← resolve (σ := σ) t)) p fun p' v =>
      Asked σ parts I p' ∧ v = (t.eval (parts.read I)).term := by
  have hacyclic := hparts.proper.acyclic
  have hresolve : Obtains σ I (resolve (σ := σ) t) p fun p' u =>
      Asked σ parts I p' ∧ u.eval I = t.eval (parts.read I) := by
    refine .bind_of_run (run_get p) ?_
    dsimp only
    rw [hp.parts]
    split
    · rename_i hempty
      refine .of_run (run_pure _ _) ⟨hp, ?_⟩
      have hread := agree_read parts I
      refine eval_congr ⟨fun s hs => hread.symbol s fun hpart => ?_, hread.apply, hread.holdsOfAll⟩
      obtain ⟨q, hq, rfl⟩ := List.mem_map.mp hpart
      have hmem := mem_mentionedIn.mpr ⟨hq, hs⟩
      rw [List.isEmpty_iff.mp hempty] at hmem
      cases hmem
    · rw [valuesIn_nil]
      have hordered : Ordered parts [] (demanded parts t []) :=
        ordered_demanded hacyclic (List.nil_append parts)
      have hnone : parts.AreFloors I [] := nofun
      have horder : ∀ q ∈ demanded parts t [], q ∈ parts := fun q hq =>
        (occurs_of_mem_demanded hq).mem
      refine (floors_asked hparts hI hp hnone horder hordered).bind fun known p' h => ?_
      obtain ⟨hp', hknown, hkeys⟩ := h
      have hcovers : ∀ q ∈ parts, q.1 ∈ t.freeSymbols → q.1 ∈ known.map Prod.fst := by
        intro q hq hfree
        have hmem : q ∈ demanded parts t [] :=
          (mem_demanded_of_free hacyclic.nodup_keys hq hfree).resolve_left nofun
        rw [hkeys, List.map_nil, List.append_nil, List.mem_reverse]
        exact List.mem_map_of_mem hmem
      obtain ⟨u, hu, heval⟩ := substitute_floors hparts hI hknown ht htame hcovers
      exact .of_run (run_substitute hp' hu) ⟨hp', heval⟩
  refine hresolve.bind fun u p' h => ?_
  refine (evaluate_asked h.1 u).mono fun p'' v hv => ⟨hv.1, ?_⟩
  rw [hv.2, h.2]

theorem resolve_value (hparts : parts.Resolvable hidden) (hI : I.Proper) (hp : Asked σ parts I p)
    (ht : t.WellSorted) (htame : t.Tame hidden) :
    Leads (fun _ _ => True)
      (do evaluate (σ := σ) (← resolve (σ := σ) t)) p
      fun _ v => v = (t.eval (parts.read I)).term :=
  (resolve_obtains hparts hI hp ht htame).2.mono fun _ _ _ h => h.2

end IntegerParts

end SmtScript
