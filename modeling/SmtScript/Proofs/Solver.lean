import SmtScript.Levels
import SmtScript.Proofs.Steps
import SmtScript.Proofs.Symbol
import SmtScript.Solver.Scripted
import SmtScript.Term.Eval

/-!
What sessions rely on in solvers.

No call of a solver and no question to a model takes a symbol away, `GrowingSolver`. Of a
`ScopedSolver` it is known which formulas it holds in each scope: a call that succeeds changes them
as it should, and a call that fails leaves them as they were. A `WillingSolver` opens scopes
whenever it is asked to, and closes those that are open. The cores of a `TracingSolver` are made of
formulas that it holds. A `SteadySolver` is not changed by calls that fail, nor by being asked for a
model, nor its models by questions. The models of a `ConsistentSolver` do not contradict themselves.
A `NamingSolver` gives new names to the symbols that it makes.
Formulas that a `StrictSolver` takes are Boolean.
-/

namespace SmtScript

namespace Solver

/-- The calls of a solver. -/
inductive Offers {σ μ : Type} [Solver σ μ] : {α : Type} → SolverCall σ α → Prop where
  | add (t : Term) : Offers (Solver.add t)
  | push (levels : Nat) : Offers (Solver.push levels)
  | pop (levels : Nat) : Offers (Solver.pop levels)
  | reset : Offers Solver.reset
  | satisfiable (assumptions : List Term) : Offers (Solver.satisfiable assumptions)
  | model : Offers Solver.model
  | core : Offers Solver.core

/-- The questions to the models of a solver. -/
inductive Answers (σ : Type) {μ : Type} [Solver σ μ] : {α : Type} → ModelQuery μ α → Prop where
  | evaluate (t : Term) : Answers σ (Solver.evaluate σ t)
  | interpret (f : Symbol) : Answers σ (Solver.interpret σ f)

/-- The models that a solver comes to have: those that it gives, as questions leave them. -/
inductive Arises (σ : Type) {μ : Type} [Solver σ μ] : μ → Prop where
  | given {solver solver' : σ} {table table' : SymbolTable} {model : μ}
      (hrun : Solver.model.run (solver, table) = (.ok model, solver', table')) : Arises σ model
  | asked {α : Type} {query : ModelQuery μ α} {model model' : μ} {table table' : SymbolTable}
      {r : Except Fault α} (h : Arises σ model) (hanswers : Answers σ query)
      (hrun : query.run (model, table) = (r, model', table')) : Arises σ model'

end Solver

open Solver

class GrowingSolver (σ : Type) (μ : outParam Type) [Solver σ μ] : Prop where
  call : ∀ {α : Type} {call : SolverCall σ α} {solver table r solver' table'},
    Offers call → call.run (solver, table) = (r, solver', table') →
      table.symbols <:+ table'.symbols
  question : ∀ {α : Type} {query : ModelQuery μ α} {model table r model' table'},
    Answers σ query → query.run (model, table) = (r, model', table') →
      table.symbols <:+ table'.symbols

class ScopedSolver (σ : Type) (μ : outParam Type) [Solver σ μ] extends GrowingSolver σ μ where
  /-- The formulas that a solver holds in each scope. -/
  held : σ → Levels Term
  start : ∀ options, held (Solver.start options) = .empty
  refused : ∀ {α : Type} {call : SolverCall σ α} {solver table e solver' table'},
    Offers call → call.run (solver, table) = (.error e, solver', table') →
      held solver' = held solver
  add : ∀ {t solver table solver' table'},
    (Solver.add t).run (solver, table) = (.ok (), solver', table') →
      held solver' = (held solver).add t
  push : ∀ {levels solver table solver' table'},
    (Solver.push levels).run (solver, table) = (.ok (), solver', table') →
      held solver' = (held solver).pushMany levels
  pop : ∀ {levels solver table solver' table'},
    (Solver.pop levels).run (solver, table) = (.ok (), solver', table') →
      held solver' = (held solver).popMany levels
  reset : ∀ {solver : σ} {table solver' table'},
    Solver.reset.run (solver, table) = (.ok (), solver', table') → held solver' = .empty
  satisfiable : ∀ {assumptions solver table outcome solver' table'},
    (Solver.satisfiable assumptions).run (solver, table) = (.ok outcome, solver', table') →
      held solver' = held solver
  model : ∀ {solver : σ} {table model solver' table'},
    Solver.model.run (solver, table) = (.ok model, solver', table') → held solver' = held solver
  core : ∀ {solver : σ} {table ts solver' table'},
    Solver.core.run (solver, table) = (.ok ts, solver', table') → held solver' = held solver

class WillingSolver (σ : Type) (μ : outParam Type) [Solver σ μ] extends ScopedSolver σ μ where
  push_ok : ∀ levels (solver : σ) table, ∃ solver' table',
    (Solver.push levels).run (solver, table) = (.ok (), solver', table')
  pop_ok : ∀ levels (solver : σ) table, levels < (held solver).depth → ∃ solver' table',
    (Solver.pop levels).run (solver, table) = (.ok (), solver', table')

class TracingSolver (σ : Type) (μ : outParam Type) [Solver σ μ] extends ScopedSolver σ μ where
  selected : ∀ {solver : σ} {table ts solver' table'},
    Solver.core.run (solver, table) = (.ok ts, solver', table') → ∀ t ∈ ts, t ∈ (held solver).items

class SteadySolver (σ : Type) (μ : outParam Type) [Solver σ μ] : Prop
    extends GrowingSolver σ μ where
  refused : ∀ {α : Type} {call : SolverCall σ α} {solver table e solver' table'},
    Offers call → call.run (solver, table) = (.error e, solver', table') → solver' = solver
  /-- Whether there is a model, and which, depends on the solver only. -/
  model : ∀ {solver : σ} {table r solver' table'},
    Solver.model.run (solver, table) = (r, solver', table') →
      ∀ other, Solver.model.run (solver, other) = (r, solver, other)
  answered : ∀ {α : Type} {query : ModelQuery μ α} {model table r model' table'},
    Answers σ query → query.run (model, table) = (r, model', table') → model' = model

class ConsistentSolver (σ : Type) (μ : outParam Type) [Solver σ μ] extends GrowingSolver σ μ where
  /-- What a model says of symbols. -/
  reading : μ → Interpretation
  asked : ∀ {α : Type} {query : ModelQuery μ α} {model table r model' table'},
    Answers σ query → query.run (model, table) = (r, model', table') →
      reading model' = reading model
  value : ∀ {t v : Term} {model : μ} {table model' table'},
    (Solver.evaluate σ t).run (model, table) = (.ok v, model', table') →
      v = (t.eval (reading model)).term
  /-- Questions that have been answered do not stand in the way of the value of a symbol. -/
  before : ∀ {α : Type} {query : ModelQuery μ α} {model model' model'' : μ}
    {table table' table'' : SymbolTable} {a : α} {s : Symbol} {v : Term}, Arises σ model →
    Answers σ query → query.run (model, table) = (.ok a, model', table') →
    (Solver.evaluate σ (.symbol s)).run (model', table') = (.ok v, model'', table'') →
      ∃ model₁ table₁,
        (Solver.evaluate σ (.symbol s)).run (model, table) = (.ok v, model₁, table₁)
  /-- A function is defined with a parameter for each argument. -/
  parameters : ∀ {f : Symbol} {model : μ} {table symbols body model' table'},
    (Solver.interpret σ f).run (model, table) = (.ok (symbols, body), model', table') →
      symbols.length = f.sort.domains.length

class NamingSolver (σ : Type) (μ : outParam Type) [Solver σ μ] : Prop
    extends GrowingSolver σ μ where
  called : ∀ {α : Type} {call : SolverCall σ α} {solver table r solver' table'},
    Offers call → call.run (solver, table) = (r, solver', table') →
      table.Distinct → table'.Distinct
  answered : ∀ {α : Type} {query : ModelQuery μ α} {model table r model' table'},
    Answers σ query → query.run (model, table) = (r, model', table') →
      table.Distinct → table'.Distinct

class StrictSolver (σ : Type) (μ : outParam Type) [Solver σ μ] : Prop
    extends GrowingSolver σ μ where
  add : ∀ {t : Term} {solver : σ} {table solver' table'},
    (Solver.add t).run (solver, table) = (.ok (), solver', table') → t.sort = .bool

/-- What can become of a table of symbols: a symbol with a new name is made, or the solver or one of
its models is asked something. -/
inductive Solver.Enlarges (σ : Type) {μ : Type} [Solver σ μ] :
    SymbolTable → SymbolTable → Prop where
  | make {table : SymbolTable} {s : Symbol} (hnew : table.hasName s.name = false) (counter : Nat) :
      Enlarges σ table ⟨s :: table.symbols, counter⟩
  | called {α : Type} {call : SolverCall σ α} {solver solver' : σ} {table table' : SymbolTable}
      {r : Except Fault α} (hoffers : Offers call)
      (hrun : call.run (solver, table) = (r, solver', table')) : Enlarges σ table table'
  | answered {α : Type} {query : ModelQuery μ α} {model model' : μ} {table table' : SymbolTable}
      {r : Except Fault α} (hanswers : Answers σ query)
      (hrun : query.run (model, table) = (r, model', table')) : Enlarges σ table table'

theorem Solver.Enlarges.distinct {σ μ : Type} [Solver σ μ] [NamingSolver σ μ]
    {table table' : SymbolTable} (h : Enlarges σ table table') (htable : table.Distinct) :
    table'.Distinct := by
  cases h with
  | make hnew counter => exact htable.cons hnew counter
  | called hoffers hrun => exact NamingSolver.called hoffers hrun htable
  | answered hanswers hrun => exact NamingSolver.answered hanswers hrun htable

namespace Scripted

variable {α : Type}

theorem run_answer (f : Scripted → α) (scripted : Scripted) (table : SymbolTable) :
    (answer f).run (scripted, table) =
      (match scripted.fault with
        | some fault => .error fault
        | none => .ok (f scripted), scripted, table) := by
  rw [answer, Step.run_bind, Step.run_get]
  dsimp only
  cases scripted.fault <;> rfl

theorem run_offered {call : SolverCall Scripted α} (h : Offers call) (scripted : Scripted)
    (table : SymbolTable) : ∃ r, call.run (scripted, table) = (r, scripted, table) := by
  cases h <;> exact ⟨_, run_answer _ scripted table⟩

theorem run_answered {query : ModelQuery ScriptedModel α} (h : Answers Scripted query)
    (model : ScriptedModel) (table : SymbolTable) :
    ∃ r, query.run (model, table) = (r, model, table) := by
  cases h with
  | evaluate t =>
    change ∃ r, (Scripted.evaluate t).run (model, table) = (r, model, table)
    unfold Scripted.evaluate
    split
    · exact ⟨_, rfl⟩
    · rw [Step.run_bind, Step.run_get]
      dsimp only
      split <;> exact ⟨_, rfl⟩
  | interpret f => exact ⟨_, rfl⟩

/-- The prepared answers leave the solver and its models as they are. -/
instance : SteadySolver Scripted ScriptedModel where
  call h hrun := by
    obtain ⟨r, hsame⟩ := run_offered h _ _
    obtain ⟨_, hstate⟩ := Prod.mk.inj (hsame.symm.trans hrun)
    obtain ⟨_, rfl⟩ := Prod.mk.inj hstate
    exact List.suffix_refl _
  question h hrun := by
    obtain ⟨r, hsame⟩ := run_answered h _ _
    obtain ⟨_, hstate⟩ := Prod.mk.inj (hsame.symm.trans hrun)
    obtain ⟨_, rfl⟩ := Prod.mk.inj hstate
    exact List.suffix_refl _
  refused h hrun := by
    obtain ⟨r, hsame⟩ := run_offered h _ _
    obtain ⟨_, hstate⟩ := Prod.mk.inj (hsame.symm.trans hrun)
    exact (Prod.mk.inj hstate).1.symm
  model hrun other := by
    have hsame := (run_answer _ _ _).symm.trans hrun
    rw [← (Prod.mk.inj hsame).1]
    exact run_answer _ _ other
  answered h hrun := by
    obtain ⟨r, hsame⟩ := run_answered h _ _
    obtain ⟨_, hstate⟩ := Prod.mk.inj (hsame.symm.trans hrun)
    exact (Prod.mk.inj hstate).1.symm

instance : NamingSolver Scripted ScriptedModel where
  called h hrun := by
    obtain ⟨r, hsame⟩ := run_offered h _ _
    obtain ⟨_, hstate⟩ := Prod.mk.inj (hsame.symm.trans hrun)
    obtain ⟨_, rfl⟩ := Prod.mk.inj hstate
    exact id
  answered h hrun := by
    obtain ⟨r, hsame⟩ := run_answered h _ _
    obtain ⟨_, hstate⟩ := Prod.mk.inj (hsame.symm.trans hrun)
    obtain ⟨_, rfl⟩ := Prod.mk.inj hstate
    exact id

end Scripted

end SmtScript
