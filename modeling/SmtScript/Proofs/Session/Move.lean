import Mathlib.Logic.Relation
import SmtScript.Proofs.Solver
import SmtScript.Proofs.Translate.Sound
import SmtScript.Session

/-!
The moves of a session.

`Session.Move` lists all that an elementary step of an operation can do to a session, with the
conditions under which it is done. A solver call that succeeds is one move together with what the
session notes of it, so that no move leaves the solver and the session apart.
-/

namespace SmtScript

namespace Session

open Solver

variable {σ μ α : Type}

/-- The solver, as long as there is one. -/
def solver? (S : Session σ μ) : Option σ :=
  S.context.bind fun p => p.2.solver

/-- The answer of the last check, if nothing has changed since. -/
def lastStatus (S : Session σ μ) : Option CheckStatus :=
  S.context.bind fun p => p.2.last

def mapContext (f : Context σ → Context σ) (S : Session σ μ) : Session σ μ :=
  { S with context := S.context.map fun p => (p.1, f p.2) }

/-- The session without its model. -/
def dropped (S : Session σ μ) : Session σ μ :=
  match S.model with
  | none => S
  | some (lease, _) => { S with model := none, models := S.models.giveBack lease }

/-- The session without its model and its context. -/
def released (S : Session σ μ) : Session σ μ :=
  match S.dropped.context with
  | none => S.dropped
  | some (lease, _) =>
    { S.dropped with context := none, contexts := S.dropped.contexts.giveBack lease }

section

variable (f : Context σ → Context σ) (S : Session σ μ)

@[simp] theorem mapContext_terms : (S.mapContext f).terms = S.terms := rfl

@[simp] theorem mapContext_names : (S.mapContext f).names = S.names := rfl

@[simp] theorem mapContext_sorts : (S.mapContext f).sorts = S.sorts := rfl

@[simp] theorem mapContext_model : (S.mapContext f).model = S.model := rfl

@[simp] theorem mapContext_assertions : (S.mapContext f).assertions = S.assertions := rfl

@[simp] theorem mapContext_definedParts : (S.mapContext f).definedParts = S.definedParts := rfl

@[simp] theorem mapContext_status : (S.mapContext f).status = S.status := rfl

theorem mapContext_id : S.mapContext id = S := by
  unfold mapContext
  cases S with
  | mk initial configuration status logic sorts names terms info assertions definedParts context
    model contexts models => cases context <;> rfl

theorem solver?_mapContext {f : Context σ → Context σ} (hf : ∀ c, (f c).solver = c.solver) :
    (S.mapContext f).solver? = S.solver? := by
  cases h : S.context <;> simp [solver?, mapContext, h, hf]

@[simp] theorem dropped_model : S.dropped.model = none := by
  unfold dropped
  split
  · assumption
  · rfl

@[simp] theorem dropped_terms : S.dropped.terms = S.terms := by
  unfold dropped
  split <;> rfl

@[simp] theorem dropped_names : S.dropped.names = S.names := by
  unfold dropped
  split <;> rfl

@[simp] theorem dropped_sorts : S.dropped.sorts = S.sorts := by
  unfold dropped
  split <;> rfl

@[simp] theorem dropped_assertions : S.dropped.assertions = S.assertions := by
  unfold dropped
  split <;> rfl

@[simp] theorem dropped_definedParts : S.dropped.definedParts = S.definedParts := by
  unfold dropped
  split <;> rfl

@[simp] theorem dropped_context : S.dropped.context = S.context := by
  unfold dropped
  split <;> rfl

@[simp] theorem dropped_status : S.dropped.status = S.status := by
  unfold dropped
  split <;> rfl

@[simp] theorem dropped_next : S.dropped.models.next = S.models.next := by
  unfold dropped
  split <;> rfl

@[simp] theorem dropped_configuration : S.dropped.configuration = S.configuration := by
  unfold dropped
  split <;> rfl

@[simp] theorem dropped_info : S.dropped.info = S.info := by
  unfold dropped
  split <;> rfl

@[simp] theorem dropped_initial : S.dropped.initial = S.initial := by
  unfold dropped
  split <;> rfl

@[simp] theorem released_initial : S.released.initial = S.initial := by
  unfold released
  split <;> simp

@[simp] theorem released_configuration : S.released.configuration = S.configuration := by
  unfold released
  split <;> simp

@[simp] theorem released_info : S.released.info = S.info := by
  unfold released
  split <;> simp

@[simp] theorem released_next : S.released.models.next = S.models.next := by
  unfold released
  split <;> simp

@[simp] theorem released_context : S.released.context = none := by
  unfold released
  split
  · assumption
  · rfl

@[simp] theorem released_terms : S.released.terms = S.terms := by
  unfold released
  split <;> simp

@[simp] theorem released_names : S.released.names = S.names := by
  unfold released
  split <;> simp

@[simp] theorem released_sorts : S.released.sorts = S.sorts := by
  unfold released
  split <;> simp

@[simp] theorem released_model : S.released.model = none := by
  unfold released
  split <;> simp

@[simp] theorem released_assertions : S.released.assertions = S.assertions := by
  unfold released
  split <;> simp

@[simp] theorem released_definedParts : S.released.definedParts = S.definedParts := by
  unfold released
  split <;> simp

end

/-- The session once the constraint of an integer part has been added. -/
def withDefined (symbol : Symbol) (S : Session σ μ) : Session σ μ :=
  { S.mapContext ({ · with last := none }) with definedParts := S.definedParts.add symbol }

/-- Whether a call of the solver has a result and leaves a session. -/
inductive Called (call : SolverCall σ α) (S : Session σ μ) :
    Except Fault α → Session σ μ → Prop where
  | intro {lease : Nat} {context : Context σ} {solver solver' : σ} {table' : SymbolTable}
      {r : Except Fault α} (hcontext : S.context = some (lease, context))
      (hsolver : context.solver = some solver)
      (hrun : call.run (solver, S.terms.table) = (r, solver', table')) :
      Called call S r { S with
        context := some (lease, { context with solver := some solver' })
        terms := { S.terms with table := table' } }

variable {call : SolverCall σ α} {r : Except Fault α} {S S' : Session σ μ}

theorem Called.names (h : Called call S r S') :
    S'.names = S.names := by
  cases h
  rfl

theorem Called.assertions (h : Called call S r S') :
    S'.assertions = S.assertions := by
  cases h
  rfl

theorem Called.definedParts (h : Called call S r S') : S'.definedParts = S.definedParts := by
  cases h
  rfl

theorem Called.integerParts (h : Called call S r S') :
    S'.terms.integerParts = S.terms.integerParts := by
  cases h
  rfl

theorem Called.locals (h : Called call S r S') : S'.terms.locals = S.terms.locals := by
  cases h
  rfl

theorem Called.sorts (h : Called call S r S') : S'.sorts = S.sorts := by
  cases h
  rfl

theorem Called.model (h : Called call S r S') : S'.model = S.model := by
  cases h
  rfl

theorem Called.status (h : Called call S r S') : S'.status = S.status := by
  cases h
  rfl

theorem Called.models (h : Called call S r S') : S'.models = S.models := by
  cases h
  rfl

theorem Called.lastStatus (h : Called call S r S') : S'.lastStatus = S.lastStatus := by
  cases h with
  | intro hcontext _ _ => simp [Session.lastStatus, hcontext]

theorem Called.run (h : Called call S r S') : ∃ solver solver' table',
    S.solver? = some solver ∧ S'.solver? = some solver' ∧
      call.run (solver, S.terms.table) = (r, solver', table') := by
  cases h with
  | @intro _ _ solver solver' table' _ hcontext hsolver hrun =>
    exact ⟨solver, solver', table', by simp [solver?, hcontext, hsolver], by simp [solver?], hrun⟩

/-- What an elementary step can do. -/
inductive Move [Solver σ μ] : Session σ μ → Session σ μ → Prop where
  /-- Options, infos and declared sorts. -/
  | note (S : Session σ μ) (configuration : Configuration) (sorts : SortTable)
      (info : Table String) : Move S { S with configuration, sorts, info }
  /-- Symbols, integer parts and what substitutions leave behind. -/
  | translate {S : Session σ μ} {terms : TermState} (h : S.terms.Evolves terms) :
      Move S { S with terms }
  | bind {S : Session σ μ} (name : String) {binding : Binding}
      (h : binding.Sound S.terms.Knows) :
      Move S { S with names := S.names.insert name binding }
  | activate {S : Session σ μ} (logic : String) (hstatus : S.status = .uninitialized)
      (hadmits : S.configuration.admits logic = .ok ()) :
      Move S { S with
        context := some (S.contexts.take.1, .ofSolver (Solver.start S.configuration.options))
        contexts := S.contexts.take.2, logic := some logic, status := .active }
  | drop (S : Session σ μ) : Move S S.dropped
  /-- A call that fails. -/
  | refuse {S S' : Session σ μ} {α : Type} {call : SolverCall σ α} {e : Fault}
      (hoffers : Offers call) (h : Called call S (.error e) S') : Move S S'
  /-- The constraint of an integer part. -/
  | define {S S' : Session σ μ} {symbol : Symbol} {operand : Term}
      (hpart : (symbol, operand) ∈ S.terms.integerParts)
      (hnew : S.definedParts.contains symbol = false)
      (h : Called (Solver.add (integerPartConstraint symbol operand)) S (.ok ()) S') :
      Move S (S'.withDefined symbol)
  /-- A term whose integer parts all have their constraints. -/
  | assert {S S' : Session σ μ} {t : Term} (ht : t.Sound S.terms.Knows)
      (hparts : ∀ p ∈ IntegerParts.reachable S.terms.integerParts [t],
        S.definedParts.contains p.1 = true)
      (h : Called (Solver.add t) S (.ok ()) S') :
      Move S { S'.mapContext ({ · with last := none }) with
        assertions := S'.assertions.add t }.dropped
  | push {S S' : Session σ μ} {levels : Nat} (hmodel : S.model = none)
      (h : Called (Solver.push levels) S (.ok ()) S') :
      Move S { S'.mapContext fun c => { c with depth := c.depth + levels, last := none } with
        assertions := S'.assertions.pushMany levels
        definedParts := S'.definedParts.pushMany levels }
  | pop {S S' : Session σ μ} {levels : Nat} (hmodel : S.model = none)
      (hdepth : levels < S.assertions.depth) (h : Called (Solver.pop levels) S (.ok ()) S') :
      Move S { S'.mapContext fun c => { c with depth := c.depth - levels, last := none } with
        assertions := S'.assertions.popMany levels
        definedParts := S'.definedParts.popMany levels }
  | clear {S S' : Session σ μ} (hmodel : S.model = none)
      (h : Called Solver.reset S (.ok ()) S') :
      Move S { S'.mapContext ({ · with depth := 1, last := none }) with
        assertions := .empty, definedParts := .empty }
  | check {S S' : Session σ μ} {assumptions : List Term} {outcome : Except Fault Bool}
      {status : CheckStatus} (hmodel : S.model = none)
      (hstatus : Context.statusOf assumptions outcome = .ok status)
      (h : Called (Solver.satisfiable assumptions) S outcome S') :
      Move S (S'.mapContext ({ · with last := some status }))
  /-- A model that is made and kept. -/
  | keep {S S' : Session σ μ} {model : μ} (hmodel : S.model = none)
      (hlast : S.lastStatus = some .sat ∨ S.lastStatus = some .unknown)
      (h : Called Solver.model S (.ok model) S') :
      Move S { S' with
        model := some (S'.models.take.1, model), models := S'.models.take.2 }
  | core {S S' : Session σ μ} {ts : List Term} (hlast : S.lastStatus = some .unsat)
      (h : Called Solver.core S (.ok ts) S') : Move S S'
  /-- A question to the model. -/
  | ask {S : Session σ μ} {α : Type} {query : ModelQuery μ α} {lease : Nat} {model model' : μ}
      {table' : SymbolTable} {r : Except Fault α} (hanswers : Answers σ query)
      (hmodel : S.model = some (lease, model))
      (hrun : query.run (model, S.terms.table) = (r, model', table')) :
      Move S { S with
        model := some (lease, model'), terms := { S.terms with table := table' } }
  | restart {S : Session σ μ} (hopen : S.status ≠ .closed) :
      Move S { start S.initial with contexts := S.released.contexts, models := S.released.models }
  | exit {S : Session σ μ} (hopen : S.status ≠ .closed) :
      Move S { S.released with status := .closed }

/-- Any number of moves. -/
abbrev Moves [Solver σ μ] : Session σ μ → Session σ μ → Prop :=
  Relation.ReflTransGen Move

end Session

end SmtScript
