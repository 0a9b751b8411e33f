import SmtScript.CommandLine
import SmtScript.Proofs.SExpr.Reader
import SmtScript.Proofs.Session.Lapses

/-!
Internal errors.

An error that has no wording is an internal error: the command line ends with exit code 2. The
reader has none but bad escapes, and of the commands only those that name a sort without a name, or
fail without a word, `Session.execute_lapses`.
-/

namespace SmtScript

open Solver Step

namespace Session

variable {σ μ : Type} [Solver σ μ] {S S' : Session σ μ} {e : Error}

/-- Why a command fails with an error that has no wording: a sort that would have to be named has
no name, or the command fails without a word. -/
def Puzzles (S : Session σ μ) (command : SExpr) (e : Error) (S' : Session σ μ) : Prop :=
  (∃ sort ∈ e.namedSorts, sort.isNamed = false) ∨ Lapse S command S'

/-- A script stops with an error of the reader, or else with that of a command. -/
theorem error_runAll {failure : Option ReadFailure} {exprs : List SExpr}
    (h : (runAll failure exprs S).error = some e) :
    (∃ f, failure = some f ∧ e = .ofReadFailure f) ∨
      ∃ before command later S', exprs = before ++ command :: later ∧
        (execute command).run (after before S) = (.error e, S') := by
  induction exprs generalizing S with
  | nil =>
    obtain ⟨f, hf, rfl⟩ := Option.map_eq_some_iff.mp h
    exact .inl ⟨f, hf, rfl⟩
  | cons command rest ih =>
    obtain ⟨⟨r, S₁⟩, hrun⟩ : ∃ p, (execute command).run S = p := ⟨_, rfl⟩
    rw [runAll, hrun] at h
    cases r with
    | error e' =>
      obtain rfl := Option.some.inj h
      exact .inr ⟨[], command, rest, S₁, rfl, hrun⟩
    | ok output =>
      dsimp only [Transcript.after] at h
      split at h
      · cases h
      · rcases ih h with hfailure | ⟨before, command', later, S', rfl, hlast⟩
        · exact .inl hfailure
        · refine .inr ⟨command :: before, command', later, S', rfl, ?_⟩
          rw [← hlast, after, List.foldl_cons, hrun]
          rfl

/-- Whatever commands come before it, a command fails with an error that has no wording only for
one of the causes. -/
theorem execute_puzzles [GrowingSolver σ μ] (hS : S.Reachable) {command : SExpr}
    (hrun : (execute command).run S = (.error e, S')) (hreport : e.report = none) :
    S.Puzzles command e S' := by
  rcases Error.report_eq_none.mp hreport with hsilent | hsort
  · exact .inr (execute_lapses hS.sound hS.equipped command e S' hrun hsilent)
  · exact .inl hsort

end Session

theorem Reading.badlyEscaped_of_report {text : String} {failure : ReadFailure}
    (h : (Reading.ofText text).failure = some failure)
    (hreport : (Error.ofReadFailure failure).report = none) : BadlyEscaped text := by
  cases failure with
  | badEscape => exact badlyEscaped_of_failure h
  | unexpectedClose position => cases hreport
  | missingClose position => cases hreport

namespace CommandLine

open Session

variable {e : Error}

theorem report_of_finish {transcript : Transcript} (h : (finish transcript).exitCode = 2) :
    ∃ e, transcript.error = some e ∧ e.report = none := by
  unfold finish at h
  split at h
  · cases h
  · rename_i e herror
    refine ⟨e, herror, ?_⟩
    by_contra hreport
    obtain ⟨r, hr⟩ := Option.ne_none_iff_exists'.mp hreport
    unfold outcomeOf at h
    rw [hr] at h
    dsimp only at h
    split at h <;> cases h

theorem configure_unreadable {options : List (String × String)} {c c' : Configuration}
    (h : (configure options).run c = (.error e, c')) (hreport : e.report = none) :
    ∃ value, (":random-seed", value) ∈ options ∧ Numeral.read value = .unreadable := by
  induction options generalizing c with
  | nil => cases h
  | cons option rest ih =>
    obtain ⟨keyword, value⟩ := option
    rw [configure, run_bind] at h
    split at h
    · obtain ⟨value', hmem, hread⟩ := ih h
      exact ⟨value', List.mem_cons_of_mem _ hmem, hread⟩
    · rename_i e' c₁ hset
      obtain rfl := Except.error.inj (Prod.mk.inj h).1
      obtain ⟨rfl, hread⟩ := Configuration.setOption_unreported hset hreport
      exact ⟨value, List.mem_cons_self, hread⟩

/-- The session that a script runs in. -/
def sessionOf (σ : Type) {μ : Type} [Solver σ μ] (invocation : Invocation) : Session σ μ :=
  start ((configure invocation.options).run (.ofSolver invocation.solver)).2

/-- The command line ends with exit code 2 only if a seed among the options has digits without a
value, an escape in the script is bad, or a command of the script fails with an error that has no
wording. -/
theorem run_unreported (σ : Type) {μ : Type} [Solver σ μ] [GrowingSolver σ μ]
    {invocation : Invocation} {text : String} (h : (run σ invocation text).exitCode = 2) :
    (∃ value, (":random-seed", value) ∈ invocation.options ∧ Numeral.read value = .unreadable) ∨
      Reading.BadlyEscaped text ∨
      ∃ before command later e, ∃ S' : Session σ μ,
        (Reading.ofText text).exprs = before ++ command :: later ∧
        (execute command).run (after before (sessionOf σ invocation)) = (.error e, S') ∧
        e.report = none := by
  unfold sessionOf
  unfold run at h
  split at h
  · rename_i e c hconfigure
    obtain ⟨e', he, hreport⟩ := report_of_finish h
    obtain rfl := Option.some.inj he
    exact .inl (configure_unreadable hconfigure hreport)
  · rename_i configuration hconfigure
    rw [hconfigure]
    obtain ⟨e, he, hreport⟩ := report_of_finish h
    rcases error_runAll he with
      ⟨failure, hfailure, rfl⟩ | ⟨before, command, later, S', hsplit, hrun⟩
    · exact .inr (.inl (Reading.badlyEscaped_of_report hfailure hreport))
    · exact .inr (.inr ⟨before, command, later, e, S', hsplit, hrun, hreport⟩)

/-- Internal errors have few causes. A text is read with one only if an escape is bad. Whatever
commands come before it, a command fails with one only if it would have to name a sort without a
name, has a slip in it, or makes a call of the solver or asks the model a question that fails in
this way. The command line ends with exit code 2 only for one of these causes, or because of the
options that it is given. -/
theorem internal_errors_have_causes (σ : Type) {μ : Type} [Solver σ μ] [GrowingSolver σ μ] :
    (∀ (text : String) (failure : ReadFailure), (Reading.ofText text).failure = some failure →
      (Error.ofReadFailure failure).report = none → Reading.BadlyEscaped text) ∧
    (∀ (configuration : Configuration) (before : List SExpr) (command : SExpr) (e : Error)
      (S' : Session σ μ),
      (execute command).run (after before (start configuration)) = (.error e, S') →
      e.report = none → (after before (start configuration)).Puzzles command e S') ∧
    ∀ (invocation : Invocation) (text : String), (run σ invocation text).exitCode = 2 →
      (∃ value, (":random-seed", value) ∈ invocation.options ∧
        Numeral.read value = .unreadable) ∨
      Reading.BadlyEscaped text ∨
      ∃ before command later e, ∃ S' : Session σ μ,
        (Reading.ofText text).exprs = before ++ command :: later ∧
        (execute command).run (after before (sessionOf σ invocation)) = (.error e, S') ∧
        (after before (sessionOf σ invocation)).Puzzles command e S' := by
  refine ⟨fun _ _ => Reading.badlyEscaped_of_report,
    fun _ _ _ _ _ => execute_puzzles ⟨_, _, rfl⟩, fun invocation text h => ?_⟩
  rcases run_unreported σ h with hseed | hescape |
    ⟨before, command, later, e, S', hsplit, hrun, hreport⟩
  · exact .inl hseed
  · exact .inr (.inl hescape)
  · exact .inr (.inr ⟨before, command, later, e, S', hsplit, hrun,
      execute_puzzles ⟨_, _, rfl⟩ hrun hreport⟩)

/-- So it is with a number of levels that is written with a digit without a value. -/
theorem internal_errors_have_causes_ornate :
    (run Scripted ⟨"levels.smt2", "z3", [], none⟩ "(set-logic ALL)(push ²)").exitCode = 2 ∧
      ∃ S S' : Session Scripted ScriptedModel,
        after [.list [.atom "set-logic", .atom "ALL"]] (start (.ofSolver "z3")) = S ∧
        (execute (.list [.atom "push", .atom "²"])).run S = (.error .defect, S') ∧
        S.Puzzles (.list [.atom "push", .atom "²"]) .defect S' := by
  obtain ⟨S, hS⟩ : ∃ S : Session Scripted ScriptedModel,
    after [.list [.atom "set-logic", .atom "ALL"]] (start (.ofSolver "z3")) = S := ⟨_, rfl⟩
  have hfails : ((execute (.list [.atom "push", .atom "²"])).run S).1 = .error .defect := by
    subst hS
    cbv
  have hrun : (execute (.list [.atom "push", .atom "²"])).run S = (.error .defect, _) :=
    Prod.ext hfails rfl
  refine ⟨by decide +kernel, S, _, hS, hrun, ?_⟩
  subst hS
  exact (internal_errors_have_causes Scripted).2.1 _ _ _ _ _ hrun rfl

end CommandLine

end SmtScript
