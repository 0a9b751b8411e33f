import SmtScript.Solver.Interface
import SmtScript.Term.Printer

/-!
A solver that gives prepared answers.

Before each call one says what the call is to answer, or with which fault it is to fail. Its
models know the values of some terms by their texts, and nothing of uninterpreted sorts and
functions.
-/

namespace SmtScript

/-- A model with prepared values. -/
structure ScriptedModel where
  values : List (String × Term)

/-- What the next call answers. -/
structure Scripted where
  fault : Option Fault
  outcome : Bool
  values : List (String × Term)
  core : List Term

namespace Scripted

def start : Scripted := ⟨none, true, [], []⟩

/-- Gives an answer, unless a fault is prepared. -/
def answer {α : Type} (f : Scripted → α) : SolverCall Scripted α := do
  let (scripted, _) ← get
  match scripted.fault with
  | some fault => throw fault
  | none => return f scripted

/-- The fault of a question to which no answer is prepared. -/
def noValue (t : Term) : Fault :=
  .reported .invalidValue "" ("No value for " ++ t.text) none

def evaluate (t : Term) : ModelQuery ScriptedModel Term := do
  if t.sort.isUser then throw .needsOwnModel
  match (← get).1.values.lookup t.text with
  | some value => return value
  | none => throw (noValue t)

instance : Solver Scripted ScriptedModel where
  start _ := Scripted.start
  add _ := answer fun _ => ()
  push _ := answer fun _ => ()
  pop _ := answer fun _ => ()
  reset := answer fun _ => ()
  satisfiable _ := answer Scripted.outcome
  model := answer fun scripted => ⟨scripted.values⟩
  core := answer Scripted.core
  evaluate := Scripted.evaluate
  interpret _ := throw .needsOwnModel

end Scripted

end SmtScript
