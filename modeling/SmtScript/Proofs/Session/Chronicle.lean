import SmtScript.Proofs.Session.Deeds
import SmtScript.Proofs.Survivors

/-!
Which assertions are in force.

The chronicle of a run says what its deeds do to the assertions. Setting a logic, a reset and a
reset of the assertions begin anew; the assertions of a session are the survivors of the chronicle,
in the order in which they were asserted, `Session.assertions_survive`.
-/

namespace SmtScript

open Step

namespace Session

variable {σ μ : Type} {S S' : Session σ μ}

/-- What a deed does to the assertions. -/
def Deed.marks (deed : Deed σ μ) : List (Mark Term) :=
  match deed.command with
  | .assertTerm sexpr =>
    match ((parseTerm sexpr).run deed.before).1 with
    | .ok t => [.added t]
    | .error _ => []
  | .push levels => [.opened levels]
  | .pop levels => [.closed levels]
  | .setLogic _ | .resetAssertions | .reset => [.cleared]
  | _ => []

variable [Solver σ μ]

/-- What the deeds of a run do to the assertions. -/
def chronicle (commands : List SExpr) (S : Session σ μ) : List (Mark Term) :=
  (deeds commands S).flatMap Deed.marks

/-- The marks of a deed record what it does to the assertions. -/
theorem Does.records {command : Command} (hS : S.Reachable) (h : Does S S' command) :
    Levels.Records S.assertions (Deed.mk command S S').marks S'.assertions := by
  have hsame (h : Untouched S S') : Levels.Records S.assertions [] S'.assertions := by
    rw [h.assertions]
    exact .nil _
  cases command with
  | assertTerm sexpr =>
    obtain ⟨_, t, hread, hassertions⟩ := h
    rw [hassertions]
    simp only [Deed.marks, hread]
    exact .added t (.nil _)
  | push levels =>
    rw [h.2]
    exact .opened levels (.nil _)
  | pop levels =>
    obtain ⟨_, hdepth, hassertions⟩ := h
    rw [hassertions]
    exact .closed hdepth (.nil _)
  | setLogic logic =>
    -- Before a logic is set there are no assertions, so that nothing is lost.
    obtain ⟨hsame, hidle⟩ := h
    rw [hsame.assertions, (hS.staged.idle hidle).2.assertions]
    exact .cleared (.nil _)
  | resetAssertions =>
    rw [h.2]
    exact .cleared (.nil _)
  | reset =>
    rw [h.1]
    exact .cleared (.nil _)
  | declareFun name domains codomain =>
    rw [h.1]
    exact .nil _
  | defineFun name parameters codomain body =>
    rw [h.1]
    exact .nil _
  | _ => exact hsame h

/-- The chronicle of a run records how its assertions come about. -/
theorem records_chronicle (configuration : Configuration) (commands : List SExpr) :
    Levels.Records .empty (chronicle commands (start configuration : Session σ μ))
      (after commands (start configuration : Session σ μ)).assertions := by
  refine deeds_induction (P := fun done S =>
    Levels.Records .empty (done.flatMap Deed.marks) S.assertions) (.nil _) ?_ ?_ commands
  · intro done S S' _ h hsame
    rw [hsame.assertions]
    exact h
  · intro done S S' command hS h hdoes
    rw [List.flatMap_append, List.flatMap_singleton]
    exact h.append (hdoes.records hS)

/-- The assertions of an active session are, in the order in which they were asserted, those that
the run has asserted since it began anew and whose level has stayed open; this is what is printed of
them. For a stack by itself, its size is the number of survivors, popping gives the items that were
added at the top level since it was opened, and the base level cannot be popped. -/
theorem assertions_survive :
    (∀ (configuration : Configuration) (commands : List SExpr) (S : Session σ μ) log,
      after commands (start configuration) = S → S.status = .active →
      chronicle commands (start configuration : Session σ μ) = log →
        S.assertions.items = Mark.survivors 1 log ∧
        ∀ command : SExpr, command.Requests .getAssertions →
          (execute command).run S = (.ok (termLines (Mark.survivors 1 log)), S)) ∧
    ∀ (α : Type) (log : List (Mark α)) (levels : Levels α), Levels.History log levels →
      levels.items = Mark.survivors 1 log ∧ levels.size = (Mark.survivors 1 log).length ∧
      (levels.depth = 1 → levels.pop = .error .popBaseLevel) ∧
      (1 < levels.depth → ∃ items rest before within, levels.pop = .ok (items, rest) ∧
        log = before ++ .opened 1 :: within ∧ Levels.History before rest ∧
        rest.depth < Mark.lasting (rest.depth + 1) within ∧
        items = Mark.addedAt (rest.depth + 1) (rest.depth + 1) within) := by
  constructor
  · intro configuration commands S log hafter hactive hlog
    have hrecords := records_chronicle (σ := σ) configuration commands
    rw [hafter, hlog] at hrecords
    have hitems := hrecords.items_of_empty
    refine ⟨hitems, fun command hrequest => ?_⟩
    have hopen : S.status ≠ .closed := by simp [hactive]
    rw [run_execute hrequest hopen, run_perform_getAssertions hactive, hitems]
  · intro α log levels h
    have hitems := h.records.items_of_empty
    refine ⟨hitems, congrArg List.length hitems, Levels.pop_of_depth_eq, fun hdepth => ?_⟩
    obtain ⟨items, hpop⟩ := Levels.exists_pop hdepth
    obtain ⟨before, within, hlog, hbefore, hlasting, hadded⟩ := h.pop_eq hpop
    exact ⟨items, _, before, within, hpop, hlog, hbefore, hlasting, hadded⟩

/-- An assertion at a level that is closed again is gone, and those around it are left. What is
popped is what was added at the level. -/
theorem assertions_survive_closed_level :
    (∃ S : Session Scripted ScriptedModel, after [.list [.atom "set-logic", .atom "ALL"],
        .list [.atom "assert", .atom "true"], .list [.atom "push", .atom "1"],
        .list [.atom "assert", .atom "false"], .list [.atom "pop", .atom "1"],
        .list [.atom "assert", .atom "false"]] (start (.ofSolver "z3")) = S ∧ S.status = .active ∧
      (execute (.list [.atom "get-assertions"])).run S = (.ok (some "true\nfalse"), S)) ∧
    ∃ log, Levels.History log (⟨[2], [[1]]⟩ : Levels Nat) ∧
      (⟨[2], [[1]]⟩ : Levels Nat).items = Mark.survivors 1 log := by
  constructor
  · obtain ⟨S, hS⟩ : ∃ S : Session Scripted ScriptedModel,
      after [.list [.atom "set-logic", .atom "ALL"],
        .list [.atom "assert", .atom "true"], .list [.atom "push", .atom "1"],
        .list [.atom "assert", .atom "false"], .list [.atom "pop", .atom "1"],
        .list [.atom "assert", .atom "false"]] (start (.ofSolver "z3")) = S := ⟨_, rfl⟩
    have hactive : S.status = .active := by
      subst hS
      decide +kernel
    have hlines : termLines S.assertions.items = some "true\nfalse" := by
      subst hS
      decide +kernel
    have hrequest : (SExpr.list [.atom "get-assertions"]).Requests .getAssertions := .intro rfl rfl
    obtain ⟨hitems, hprinted⟩ := assertions_survive.1 _ _ S _ hS hactive rfl
    refine ⟨S, hS, hactive, ?_⟩
    rw [hprinted _ hrequest, ← hitems, hlines]
  · have hlog : Levels.History [.added 1, .opened 1, .added 2] (⟨[2], [[1]]⟩ : Levels Nat) :=
      .added (.pushed (.added .start 1)) 2
    exact ⟨_, hlog, (assertions_survive (σ := Scripted).2 Nat _ _ hlog).1⟩

end Session

end SmtScript
