import Mathlib
import SmtScript.Proofs.Engine
import SmtScript.Proofs.IntegerPart.Order
import SmtScript.Proofs.IntegerPart.Search
import SmtScript.Proofs.Session.NewSymbols

/-!
The integer parts of a session.

A symbol for an integer part is made after its operand has been read, so the operand mentions only
integer parts that were made before. This holds at any time, also after a term that could not be
read to its end, and it is all that the search for the integer parts in some terms and the recursion
that resolves them need: both come to an end, and neither comes to the same integer part twice,
`Session.integerParts_wellFounded`.
-/

namespace SmtScript

open Solver Step

namespace IntegerParts

variable {σ μ : Type} [Solver σ μ] {parts : IntegerParts} {t : Term} {count : μ → Nat}
  {known : Substitution} {s s' : Option μ × TermState}

/-! ### How many questions are asked -/

/-- Whether no question to a model adds more than one to a count. -/
def Counts (σ : Type) {μ : Type} [Solver σ μ] (count : μ → Nat) : Prop :=
  ∀ (t : Term) (m m' : μ) (table table' : SymbolTable) (r : Except Fault Term),
    (Solver.evaluate σ t).run (m, table) = (r, m', table') → count m' ≤ count m + 1

/-- How many questions the model has been asked, if it has not been released. -/
def asked (count : μ → Nat) (s : Option μ × TermState) : Nat :=
  (s.1.map count).getD 0

theorem evaluate_asks_once (hcount : Counts σ count) (t : Term) :
    Leads (fun s s' => asked count s' ≤ asked count s + 1) (evaluate (σ := σ) t) s
      fun _ _ => True := by
  intro r s' hrun
  refine ⟨?_, fun _ _ => trivial⟩
  obtain ⟨model, T⟩ := s
  have hask := PartStep.run_ofModel (Model.ask t (Solver.evaluate σ t)) (model, T)
  cases model with
  | none =>
    obtain ⟨_, rfl⟩ := Prod.mk.inj (hask.symm.trans hrun)
    exact Nat.zero_le _
  | some m =>
    obtain ⟨⟨r', m', table'⟩, hquery⟩ : ∃ q, (Solver.evaluate σ t).run (m, T.table) = q := ⟨_, rfl⟩
    rw [Model.run_ask t hquery] at hask
    obtain ⟨_, rfl⟩ := Prod.mk.inj (hask.symm.trans hrun)
    exact hcount t m m' T.table table' r' hquery

/-- A substitution asks nothing. -/
theorem substitute_asks_none (count : μ → Nat) (known : Substitution) (t : Term) :
    Leads (fun s s' => asked count s' = asked count s) (substitute known t) s
      fun _ _ => True := by
  intro r s' hrun
  refine ⟨?_, fun _ _ => trivial⟩
  unfold substitute at hrun
  rw [run_bind_ok (run_get s)] at hrun
  dsimp only at hrun
  rw [run_bind_ok (run_set _ _)] at hrun
  split at hrun <;> obtain ⟨_, rfl⟩ := Prod.mk.inj hrun <;> rfl

/-- Each floor takes one question. -/
theorem floors_asks (hcount : Counts σ count) (order : IntegerParts) (known : Substitution) :
    Leads (fun s s' => asked count s' ≤ asked count s + order.length)
      (floors (σ := σ) order known) s fun _ _ => True := by
  induction order generalizing known s with
  | nil => exact .of_run (run_pure _ _) (Nat.le_refl _) fun _ _ => trivial
  | cons part rest ih =>
    obtain ⟨symbol, operand⟩ := part
    unfold floors
    refine (substitute_asks_none count known operand).bind_into (fun s₁ h₁ => ?_)
      fun u s₁ h₁ _ => ?_
    · exact h₁ ▸ Nat.le_add_right _ _
    refine (evaluate_asks_once hcount u).bind_into (fun s₂ h₂ => ?_) fun v s₂ h₂ _ => ?_
    · simp only [List.length_cons]
      omega
    split
    · refine .of_run (run_throw _ _) ?_ nofun
      simp only [List.length_cons]
      omega
    · refine (ih _).weaken fun s₃ h₃ => ?_
      simp only [List.length_cons]
      omega

/-- What a resolved term takes: a question for each integer part that it demands. -/
theorem resolve_asks (hcount : Counts σ count) (hacyclic : Acyclic s.2.integerParts) (t : Term) :
    Leads (fun s s' => asked count s' ≤ asked count s + (demanded s.2.integerParts t []).length)
      (resolve (σ := σ) t) s fun _ _ => True := by
  have hdemanded : Leads
      (fun s₁ s' => asked count s' ≤ asked count s₁ + (demanded s.2.integerParts t []).length)
      (do substitute (← floors (σ := σ) (demanded s.2.integerParts t []) []) t) s
      fun _ _ => True := by
    refine (floors_asks hcount _ []).bind_into (fun s₁ h₁ => h₁) fun known s₁ h₁ _ => ?_
    exact (substitute_asks_none count known t).weaken fun s₂ h₂ => h₂ ▸ h₁
  intro r s' hrun
  rw [run_resolve hacyclic] at hrun
  split at hrun
  · obtain ⟨_, rfl⟩ := Prod.mk.inj hrun
    exact ⟨Nat.le_add_right _ _, fun _ _ => trivial⟩
  · exact hdemanded r s' hrun

/-! ### Searching and resolving -/

/-- Whether each operand mentions only integer parts that are older. -/
structure NewestFirst (parts : IntegerParts) : Prop where
  distinct : (parts.map Prod.fst).Nodup
  older : ∀ {newer older : IntegerParts} {p q : Symbol × Term}, parts = newer ++ p :: older →
    q ∈ parts → q.1 ∈ p.2.freeSymbols → q ∈ older

/-- Whether a search through some terms comes to an end, whatever it meets first, and has then found
the integer parts that occur in the terms, each of them once, and looked at each of the terms and of
their operands once. -/
structure Searched (parts : IntegerParts) (ts : List Term) : Prop where
  step : ∀ {n : Nat} {s : Search}, Search.Runs parts n (.start ts) s → s.pending ≠ [] →
    ∃ s', Search.Step parts s s'
  rounds : ∀ {n : Nat} {s : Search}, Search.Runs parts n (.start ts) s →
    n ≤ ts.length + parts.length
  found : ∀ {n : Nat} {found : IntegerParts}, Search.Runs parts n (.start ts) ⟨found, []⟩ →
    (found.map Prod.fst).Nodup ∧ (∀ p, p ∈ found ↔ Occurs parts ts p) ∧
      n = ts.length + found.length
  reachable : ∃ n, Search.Runs parts n (.start ts) ⟨parts.reachable ts, []⟩

/-- Whether a term is resolved by asking for the floors of some integer parts, one after the other:
those that occur in it, each of them once and after those that its operand mentions. -/
structure Resolves (σ : Type) {μ : Type} [Solver σ μ] (parts : IntegerParts) (t : Term)
    (order : IntegerParts) : Prop where
  distinct : (order.map Prod.fst).Nodup
  occurs : ∀ p, p ∈ order ↔ Occurs parts [t] p
  before : ∀ {first later : IntegerParts} {p q : Symbol × Term}, order = first ++ p :: later →
    q ∈ parts → q.1 ∈ p.2.freeSymbols → q ∈ first
  /-- Whatever is done beyond some depth, the recursion does not come to it. -/
  recursion : ∀ (beyond : Term → Substitution → PartStep μ Substitution) {depth : Nat},
    parts.length < depth → valuesTo σ beyond parts depth t [] = floors (σ := σ) order []
  resolve : ∀ s : Option μ × TermState, s.2.integerParts = parts →
    (resolve (σ := σ) t).run s =
      (if order = [] then pure t else do substitute (← floors (σ := σ) order []) t :
        PartStep μ Term).run s
  questions : ∀ {count : μ → Nat} {s s' : Option μ × TermState} {r : Except Error Term},
    Counts σ count → s.2.integerParts = parts → (IntegerParts.resolve (σ := σ) t).run s = (r, s') →
      asked count s' ≤ asked count s + order.length

theorem Acyclic.newestFirst (h : Acyclic parts) : parts.NewestFirst where
  distinct := h.nodup_keys
  older hsplit hq hfree := by
    subst hsplit
    exact h.mem_older hq hfree

theorem Acyclic.searched (h : Acyclic parts) (ts : List Term) : parts.Searched ts where
  step _ hpending := Search.exists_step hpending
  rounds hruns := hruns.rounds h.nodup_keys
  found hruns := hruns.found_iff h.nodup_keys
  reachable := Search.runs_reachable parts ts

theorem Acyclic.resolves (h : Acyclic parts) (t : Term) :
    Resolves σ parts t (demanded parts t []) where
  distinct := nodup_demanded h.nodup_keys
  occurs _ := mem_demanded h
  before {first later p q} hsplit hq hfree := by
    have hordered : Ordered parts [] (demanded parts t []) :=
      ordered_demanded h (List.nil_append parts)
    rw [hsplit] at hordered
    refine hordered.mem_before h hq hfree fun r hr => ?_
    exact (occurs_of_mem_demanded (hsplit ▸ List.mem_append_left _ hr)).mem
  recursion _ _ hdepth := by rw [valuesTo_eq h hdepth, valuesIn_nil]
  resolve s hs := by
    subst hs
    exact run_resolve h t
  questions hcount hs hrun := by
    subst hs
    exact (resolve_asks hcount h t _ _ hrun).1

end IntegerParts

namespace Session

variable {σ μ : Type} {S S' : Session σ μ} [Solver σ μ] [GrowingSolver σ μ]

/-- Integer parts are never forgotten unless a session starts again. -/
theorem LeadsOn.parts {S₀ : Session σ μ} (h : LeadsOn S₀ S) (hS₀ : S₀.Reachable) :
    S₀.terms.integerParts <:+ S.terms.integerParts := by
  induction h with
  | refl => exact List.suffix_refl _
  | tail hfirst hlast ih =>
    obtain ⟨hrun, hreset⟩ := hlast
    rcases execute_widens (LeadsOn.keeps hfirst hS₀).1.neat hrun with hwidens | ⟨hrequest, hok, _⟩
    · exact ih.trans hwidens.terms.grows.parts
    · exact absurd ⟨hrequest, hok⟩ hreset

/-- New integer parts are put before those that there are, and operands mention only older ones, in
any session that a run leads to and whatever it has gone on to read, with success or without. So a
search for integer parts comes to an end with those that occur in some terms, and so does the
recursion that asks for the floors of those in one term. -/
theorem integerParts_wellFounded (h : S.Reachable) {sexprs : List SExpr}
    {r : Except Error (List Term)} (hparse : (parseTerms sexprs).run S = (r, S')) :
    (∀ {t u : Term} {T T' : TermState}, (integerPart t).run T = (.ok u, T') →
      T' = T ∨ ∃ s, T.table.hasName s.name = false ∧
        T'.integerParts = (s, t) :: T.integerParts) ∧
    (∀ {S₀ : Session σ μ}, S₀.Reachable → LeadsOn S₀ S →
      S₀.terms.integerParts <:+ S'.terms.integerParts) ∧
    IntegerParts.NewestFirst S'.terms.integerParts ∧
    (∀ ts, IntegerParts.Searched S'.terms.integerParts ts) ∧
    ∀ t, ∃ order, IntegerParts.Resolves σ S'.terms.integerParts t order := by
  have hreads := (parseTerms_reads h.sound sexprs _ _ hparse).1
  have hacyclic : IntegerParts.Acyclic S'.terms.integerParts := (hreads.sound h.sound).terms.acyclic
  refine ⟨fun {t u T T'} hrun => ?_, fun hS₀ hgoes => ?_, hacyclic.newestFirst, hacyclic.searched,
    fun t => ⟨_, hacyclic.resolves t⟩⟩
  · rcases Translation.integerPart_makes hrun with hsame | ⟨s, _, hmakes, hparts⟩
    · exact .inl hsame
    · exact .inr ⟨s, hmakes.new _ (List.mem_singleton_self _), hparts⟩
  · exact (hgoes.parts hS₀).trans hreads.terms.parts

/-- An integer part of an integer part, which stays although a name after it is not bound. -/
theorem integerParts_wellFounded_nested :
    let commands : List SExpr := [.list [.atom "set-logic", .atom "ALL"],
      .list [.atom "declare-const", .atom "x", .atom "Real"]]
    let nested : SExpr := .list [.atom "to_int", .list [.atom "+", .atom "x",
      .list [.atom "to_real", .list [.atom "to_int", .atom "x"]]]]
    let inner : Symbol := ⟨"to_int_0", .int⟩
    let outer : Symbol := ⟨"to_int_1", .int⟩
    ∃ (S S' : Session Engine Engine.Model) (u : Term),
      after commands (start (.ofSolver "z3")) = S ∧
      (parseTerms [nested, .atom "y"]).run S = (.error (.unrecognizedAtom "y"), S') ∧
      S'.terms.integerParts = [(outer, u), (inner, .symbol ⟨"x", .real⟩)] ∧
      inner ∈ u.freeSymbols ∧
      IntegerParts.Searched S'.terms.integerParts [.symbol outer] ∧
      ∃ order, IntegerParts.Resolves Engine S'.terms.integerParts (.symbol outer) order := by
  intro commands nested inner outer
  obtain ⟨S, hS⟩ : ∃ S : Session Engine Engine.Model,
    after commands (start (.ofSolver "z3")) = S := ⟨_, rfl⟩
  obtain ⟨⟨r, S'⟩, hrun⟩ : ∃ q : Except Error (List Term) × Session Engine Engine.Model,
    (parseTerms [nested, .atom "y"]).run S = q := ⟨_, rfl⟩
  have hfacts : (r, S'.terms.integerParts) = (.error (.unrecognizedAtom "y"),
      [(outer, .arith .add (.symbol ⟨"x", .real⟩) (.toReal (.symbol inner))),
        (inner, .symbol ⟨"x", .real⟩)]) := by
    have hresult := congrArg Prod.fst hrun
    have hstate := congrArg Prod.snd hrun
    dsimp only at hresult hstate
    rw [← hresult, ← hstate, ← hS]
    cbv
    rw [Term.symbols_eq]
    cbv
    -- the operand of the outer one is known only now
    unfold integerPart
    cbv
  obtain ⟨rfl, hparts⟩ := Prod.mk.inj hfacts
  obtain ⟨-, -, -, hsearched, hresolves⟩ := integerParts_wellFounded ⟨_, _, hS⟩ hrun
  exact ⟨S, S', _, hS, hrun, hparts, by decide, hsearched _, hresolves _⟩

end Session

end SmtScript
