import SmtScript.Engine
import SmtScript.Proofs.CommandLine
import SmtScript.Proofs.SExpr.Streaming
import SmtScript.Proofs.Session.Restart

/-!
Scripts that are run piece by piece.

A run ends at the first command that fails, at an exit or at the end of what can be read of the
script, `Session.Plays`, and nothing that comes later has a part in it, `Session.Plays.extend`. What
is printed, and the exit code, follow from the commands that have succeeded and from this end. The
line for an error is a single expression, `CommandLine.errorLine_eq`.
-/

namespace SmtScript

/-! ### Texts between quotes -/

@[simp] theorem doubleQuotes_nil : doubleQuotes [] = [] := rfl

theorem doubleQuotes_cons {c : Char} (hc : c ≠ '"') (rest : List Char) :
    doubleQuotes (c :: rest) = c :: doubleQuotes rest := by
  rw [doubleQuotes, if_neg hc]

theorem doubleQuotes_quote (rest : List Char) :
    doubleQuotes ('"' :: rest) = '"' :: '"' :: doubleQuotes rest := by
  rw [doubleQuotes, if_pos rfl]

theorem head_doubleQuotes (c : Char) (rest : List Char) :
    ∃ more, doubleQuotes (c :: rest) = c :: more := by
  by_cases hc : c = '"'
  · exact ⟨_, hc ▸ doubleQuotes_quote rest⟩
  · exact ⟨_, doubleQuotes_cons hc rest⟩

namespace Control

variable {c : Char} {chars rest : List Char}

theorem rest?_cons (hc : c ≠ '\x1b') : rest? (c :: rest) = none := by
  unfold rest?
  split
  · simp_all
  · rfl

theorem rest?_cons_cons (hc : c ≠ '[') : rest? ('\x1b' :: c :: rest) = none := by
  unfold rest?
  split
  · simp_all
  · rfl

theorem erase_of_rest (h : rest? chars = some rest) : erase chars = erase rest := by
  cases chars with
  | nil => cases h
  | cons c later =>
    rw [erase]
    split
    · simp_all
    · simp_all

theorem erase_cons (h : rest? (c :: rest) = none) : erase (c :: rest) = c :: erase rest := by
  rw [erase]
  split
  · simp_all
  · rfl

theorem erase_append (h : ∀ c ∈ chars, c ≠ '\x1b') : erase (chars ++ rest) = chars ++ erase rest := by
  induction chars with
  | nil => rfl
  | cons c chars ih =>
    obtain ⟨hc, hchars⟩ := List.forall_mem_cons.mp h
    rw [List.cons_append, erase_cons (rest?_cons hc), ih hchars, List.cons_append]

theorem dropWhile_doubleQuotes {p : Char → Bool} (hp : p '"' = false) (chars : List Char) :
    (doubleQuotes chars ++ ['"', ')']).dropWhile p =
      doubleQuotes (chars.dropWhile p) ++ ['"', ')'] := by
  induction chars with
  | nil => simp [hp]
  | cons c rest ih =>
    by_cases hc : c = '"'
    · subst hc
      simp [doubleQuotes_quote, hp]
    · rw [doubleQuotes_cons hc, List.cons_append]
      by_cases hpc : p c
      · simpa [hpc] using ih
      · simp [hpc, doubleQuotes_cons hc]

/-- Doubled quotes are skipped in pairs, and a closing quote and parenthesis if nothing else is
left. -/
theorem dropWhile_isIntermediate_doubleQuotes (chars : List Char) :
    (doubleQuotes chars ++ ['"', ')']).dropWhile isIntermediate =
      match chars.dropWhile isIntermediate with
      | [] => []
      | c :: rest => c :: (doubleQuotes rest ++ ['"', ')']) := by
  induction chars with
  | nil => rfl
  | cons c rest ih =>
    by_cases hc : c = '"'
    · subst hc
      have hquote : isIntermediate '"' = true := by decide
      simpa [doubleQuotes_quote, hquote] using ih
    · rw [doubleQuotes_cons hc, List.cons_append]
      by_cases hpc : isIntermediate c
      · simpa [hpc] using ih
      · simp [hpc]

/-- A control sequence takes nothing away from the quotes around it, and no more than one of each
pair from those in it. -/
theorem rest?_doubleQuotes (chars : List Char) :
    rest? (doubleQuotes chars ++ ['"', ')']) =
      (rest? chars).map (doubleQuotes · ++ ['"', ')']) := by
  have hparameter : isParameter '"' = false := by decide
  cases chars with
  | nil => rfl
  | cons c rest =>
    by_cases hc : c = '\x1b'
    · subst hc
      rw [doubleQuotes_cons (by decide)]
      cases rest with
      | nil => rfl
      | cons d rest =>
        by_cases hd : d = '['
        · subst hd
          simp only [doubleQuotes_cons (show '[' ≠ '"' by decide), List.cons_append, rest?,
            dropWhile_doubleQuotes hparameter, dropWhile_isIntermediate_doubleQuotes]
          cases (rest.dropWhile isParameter).dropWhile isIntermediate with
          | nil => rfl
          | cons e rest => by_cases he : isFinal e <;> simp [he]
        · obtain ⟨more, hmore⟩ := head_doubleQuotes d rest
          simp [hmore, rest?_cons_cons hd]
    · obtain ⟨more, hmore⟩ := head_doubleQuotes c rest
      simp [hmore, rest?_cons hc]

/-- What is left of a text between quotes is again between quotes. -/
theorem erase_doubleQuotes (chars : List Char) :
    erase (doubleQuotes chars ++ ['"', ')']) = doubleQuotes (erase chars) ++ ['"', ')'] := by
  fun_induction erase chars with
  | case1 =>
    rw [doubleQuotes_nil, List.nil_append, erase_cons (rest?_cons (by simp)),
      erase_cons (rest?_cons (by simp)), erase]
  | case2 c later rest h ih =>
    have hrest : rest? (doubleQuotes (c :: later) ++ ['"', ')']) =
        some (doubleQuotes rest ++ ['"', ')']) := by
      rw [rest?_doubleQuotes, h, Option.map_some]
    rw [erase_of_rest hrest, ih]
  | case3 c later h ih =>
    by_cases hc : c = '"'
    · subst hc
      simp only [doubleQuotes_quote, List.cons_append]
      rw [erase_cons (rest?_cons (by decide)), erase_cons (rest?_cons (by decide)), ih]
    · have hnone : rest? (c :: (doubleQuotes later ++ ['"', ')'])) = none := by
        rw [← List.cons_append, ← doubleQuotes_cons hc, rest?_doubleQuotes, h, Option.map_none]
      rw [doubleQuotes_cons hc, doubleQuotes_cons hc, List.cons_append, erase_cons hnone, ih,
        List.cons_append]

end Control

/-- The line for an error is an expression: the head of it, and the message in quotes, without the
control sequences. -/
theorem CommandLine.errorLine_eq (message : String) :
    errorLine message = "(error " ++ stringLiteral (withoutControls message) ++ ")" := by
  have hfront : ∀ c ∈ "(error \"".toList, c ≠ '\x1b' := by simp
  have htext : ("(error " ++ stringLiteral message ++ ")").toList =
      "(error \"".toList ++ (doubleQuotes message.toList ++ ['"', ')']) := by
    simp [stringLiteral]
  apply String.toList_inj.mp
  rw [errorLine, withoutControls, htext, Control.erase_append hfront, Control.erase_doubleQuotes]
  simp [stringLiteral, withoutControls]

/-- A report whose sorts all have names has a text. -/
theorem Report.exists_text {r : Report} (h : none ∉ r.types) : ∃ text, r.text? = some text := by
  have hnames (types : List (Option String)) (h : none ∉ types) :
      ∃ names, types.mapM id = some names := by
    induction types with
    | nil => exact ⟨[], rfl⟩
    | cons type rest ih =>
      obtain ⟨htype, hrest⟩ := not_or.mp (mt List.mem_cons.mpr h)
      obtain ⟨name, rfl⟩ := Option.ne_none_iff_exists'.mp (Ne.symm htype)
      obtain ⟨names, hnames⟩ := ih hrest
      exact ⟨name :: names, by simp [hnames]⟩
  obtain ⟨names, hnames⟩ := hnames r.types h
  exact ⟨_, by rw [text?, hnames, Option.map_some]⟩

namespace Session

variable {σ μ : Type} [Solver σ μ] {S S' : Session σ μ} {reading reading' : Reading}
  {commands done : List SExpr}

/-! ### Runs of commands -/

/-- What commands print. -/
def printed (commands : List SExpr) (S : Session σ μ) : List String :=
  (results commands S).flatMap fun
    | .ok output => output.toList
    | .error _ => []

/-- Whether commands succeed one after the other, and none is an exit. -/
def GoesOn : List SExpr → Session σ μ → Prop
  | [], _ => True
  | command :: rest, S => ¬ command.Requests .exit ∧
      ∃ output S', (execute command).run S = (.ok output, S') ∧ GoesOn rest S'

/-- How a run comes to its end. -/
inductive Ending where
  | finished
  | exited
  | failed (e : Error)

/-- The error of a run that fails. -/
def Ending.error? : Ending → Option Error
  | .finished | .exited => none
  | .failed e => some e

/-- What is run of a script: the commands that succeed, and how it comes to an end after them. -/
inductive Plays (reading : Reading) (S : Session σ μ) : List SExpr → Ending → Prop where
  | finished (hgoes : GoesOn reading.exprs S) (hread : reading.failure = none) :
      Plays reading S reading.exprs .finished
  | unread {failure : ReadFailure} (hgoes : GoesOn reading.exprs S)
      (hread : reading.failure = some failure) :
      Plays reading S reading.exprs (.failed (.ofReadFailure failure))
  | exited {before later : List SExpr} {exit : SExpr} {output : Option String} {S' : Session σ μ}
      (hexprs : reading.exprs = before ++ exit :: later) (hgoes : GoesOn before S)
      (hexit : exit.Requests .exit)
      (hrun : (execute exit).run (after before S) = (.ok output, S')) :
      Plays reading S (before ++ [exit]) .exited
  | failed {before later : List SExpr} {command : SExpr} {e : Error} {S' : Session σ μ}
      (hexprs : reading.exprs = before ++ command :: later) (hgoes : GoesOn before S)
      (hrun : (execute command).run (after before S) = (.error e, S')) :
      Plays reading S before (.failed e)

section

variable {command : SExpr} {output : Option String} {ending : Ending}

theorem after_cons_ok (hrun : (execute command).run S = (.ok output, S'))
    (commands : List SExpr) : after (command :: commands) S = after commands S' := by
  rw [after, List.foldl_cons, hrun]
  rfl

@[simp] theorem printed_nil (S : Session σ μ) : printed [] S = [] := rfl

theorem printed_cons_ok (hrun : (execute command).run S = (.ok output, S'))
    (commands : List SExpr) :
    printed (command :: commands) S = output.toList ++ printed commands S' := by
  rw [printed, results, hrun, List.flatMap_cons]
  rfl

theorem printed_append (before later : List SExpr) (S : Session σ μ) :
    printed (before ++ later) S = printed before S ++ printed later (after before S) := by
  induction before generalizing S with
  | nil => rfl
  | cons command before ih =>
    simp only [printed, results, List.cons_append, List.flatMap_cons, List.append_assoc] at ih ⊢
    rw [ih]
    rfl

theorem Plays.cons {rest : List SExpr} {failure : Option ReadFailure}
    (hrun : (execute command).run S = (.ok output, S')) (hexit : ¬ command.Requests .exit)
    (h : Plays ⟨rest, failure⟩ S' done ending) :
    Plays ⟨command :: rest, failure⟩ S (command :: done) ending := by
  have hgo {commands : List SExpr} (h : GoesOn commands S') : GoesOn (command :: commands) S :=
    ⟨hexit, output, S', hrun, h⟩
  cases h with
  | finished hgoes hread => exact .finished (hgo hgoes) hread
  | unread hgoes hread => exact .unread (hgo hgoes) hread
  | @exited before _ _ _ _ hexprs hgoes hend hlast =>
    have hsplit : command :: rest = (command :: before) ++ _ :: _ :=
      congrArg (command :: ·) hexprs
    exact .exited hsplit (hgo hgoes) hend
      ((congrArg (execute _).run (after_cons_ok hrun before)).trans hlast)
  | failed hexprs hgoes hlast =>
    exact .failed (congrArg (command :: ·) hexprs) (hgo hgoes)
      ((congrArg (execute _).run (after_cons_ok hrun _)).trans hlast)

end

/-- Every script is run in one of these ways. -/
theorem exists_plays (reading : Reading) (S : Session σ μ) :
    ∃ done ending, Plays reading S done ending := by
  obtain ⟨exprs, failure⟩ := reading
  induction exprs generalizing S with
  | nil =>
    cases failure with
    | none => exact ⟨_, _, .finished trivial rfl⟩
    | some failure => exact ⟨_, _, .unread trivial rfl⟩
  | cons command rest ih =>
    obtain ⟨⟨r, S'⟩, hrun⟩ : ∃ p, (execute command).run S = p := ⟨_, rfl⟩
    have hsplit : command :: rest = [] ++ command :: rest := rfl
    cases r with
    | error e => exact ⟨_, _, .failed hsplit trivial hrun⟩
    | ok output =>
      by_cases hexit : command.Requests .exit
      · exact ⟨_, _, .exited hsplit trivial hexit hrun⟩
      · obtain ⟨done, ending, h⟩ := ih S'
        exact ⟨_, _, h.cons hrun hexit⟩

/-- Commands that go on leave the session open, and what comes after them is run in it. -/
theorem GoesOn.runAll (hgoes : GoesOn commands S) (hopen : S.status ≠ .closed)
    (failure : Option ReadFailure) (more : List SExpr) :
    (after commands S).status ≠ .closed ∧
      runAll failure (commands ++ more) S =
        let later := runAll failure more (after commands S)
        ⟨printed commands S ++ later.outputs, later.error⟩ := by
  induction commands generalizing S with
  | nil => exact ⟨hopen, rfl⟩
  | cons command rest ih =>
    obtain ⟨hexit, output, S', hrun, hrest⟩ := hgoes
    have hopen' : S'.status ≠ .closed := fun hclosed =>
      hexit (closed_by_exit hopen (by rw [hrun]; exact hclosed)).1
    obtain ⟨hstatus, hlater⟩ := ih hrest hopen'
    rw [after_cons_ok hrun, printed_cons_ok hrun]
    refine ⟨hstatus, ?_⟩
    rw [List.cons_append, Session.runAll, hrun]
    simp [hopen', hlater, Transcript.after]

/-- The transcript of a script follows from the commands that succeed and from the end. -/
theorem Plays.transcript (h : Plays reading S done ending) (hopen : S.status ≠ .closed) :
    Session.runAll reading.failure reading.exprs S = ⟨printed done S, ending.error?⟩ := by
  have hruns {commands : List SExpr} (hgoes : GoesOn commands S) (more : List SExpr) :=
    (hgoes.runAll hopen reading.failure more).2
  cases h with
  | finished hgoes hread =>
    have hall := hruns hgoes []
    rw [List.append_nil] at hall
    rw [hall, runAll, hread]
    simp [Ending.error?]
  | unread hgoes hread =>
    have hall := hruns hgoes []
    rw [List.append_nil] at hall
    rw [hall, runAll, hread]
    simp [Ending.error?]
  | exited hexprs hgoes hexit hrun =>
    rw [hexprs, hruns hgoes, runAll, hrun, printed_append, printed_cons_ok hrun]
    simp [run_execute_exit hexit hrun, Transcript.after, Ending.error?]
  | failed hexprs hgoes hrun =>
    rw [hexprs, hruns hgoes, runAll, hrun]
    simp [Ending.error?]

theorem runScript_eq (text : String) (S : Session σ μ) :
    Session.runScript text S =
      Session.runAll (Reading.ofText text).failure (Reading.ofText text).exprs S := rfl

/-- Unless a run comes to the end of a script, it is not changed by what is added to the script. -/
theorem Plays.extend {more : List SExpr} {ending : Ending} (h : Plays reading S done ending)
    (hending : ending ≠ .finished) (hread : reading.failure = none)
    (hexprs : reading'.exprs = reading.exprs ++ more) : Plays reading' S done ending := by
  cases h with
  | finished => exact absurd rfl hending
  | unread _ hfailure => cases hread.symm.trans hfailure
  | exited hsplit hgoes hexit hrun =>
    exact .exited (by rw [hexprs, hsplit, List.append_assoc, List.cons_append]) hgoes hexit hrun
  | failed hsplit hgoes hrun =>
    exact .failed (by rw [hexprs, hsplit, List.append_assoc, List.cons_append]) hgoes hrun

end Session

namespace CommandLine

open Session

variable (σ : Type) {μ : Type} [Solver σ μ] {invocation : Invocation} {done : List SExpr}
  {ending : Ending}

/-! ### Scripts of the command line -/

/-- What is run of a script with the arguments that are given. Nothing is, if an option cannot be
set. -/
inductive Runs (invocation : Invocation) (text : String) : List SExpr → Ending → Prop where
  | refused {e : Error} {c : Configuration}
      (h : (configure invocation.options).run (.ofSolver invocation.solver) = (.error e, c)) :
      Runs invocation text [] (.failed e)
  | played {done : List SExpr} {ending : Ending} {c : Configuration}
      (h : (configure invocation.options).run (.ofSolver invocation.solver) = (.ok ⟨⟩, c))
      (hplays : Plays (.ofText text) (sessionOf σ invocation) done ending) :
      Runs invocation text done ending

theorem status_sessionOf (invocation : Invocation) :
    (sessionOf σ invocation : Session σ μ).status = .uninitialized := rfl

theorem sessionOf_open (invocation : Invocation) :
    (sessionOf σ invocation : Session σ μ).status ≠ .closed := nofun

theorem exists_runs (invocation : Invocation) (text : String) :
    ∃ done ending, Runs σ invocation text done ending := by
  obtain ⟨⟨r, c⟩, h⟩ : ∃ p, (configure invocation.options).run (.ofSolver invocation.solver) = p :=
    ⟨_, rfl⟩
  cases r with
  | error e => exact ⟨_, _, .refused h⟩
  | ok _ =>
    obtain ⟨done, ending, hplays⟩ := exists_plays (.ofText text) (sessionOf σ invocation)
    exact ⟨done, ending, .played h hplays⟩

variable {σ}

theorem Runs.outcome {text : String} (h : Runs σ invocation text done ending) :
    run σ invocation text =
      finish ⟨printed done (sessionOf σ invocation), ending.error?⟩ := by
  cases h with
  | refused h => rw [run, h]; rfl
  | played h hplays =>
    rw [← hplays.transcript (sessionOf_open σ invocation), ← runScript_eq, run, h, sessionOf, h]

theorem lines_append (before later : List String) :
    lines (before ++ later) = lines before ++ lines later := by
  simp [lines, String.join_append]

/-- One line is printed for an error, unless a sort has to be named that has no name. -/
theorem outcomeOf_told {e : Error} (h : ∀ r ∈ e.report, none ∉ r.types) :
    ∃ message, lines (outcomeOf e).1 = "(error " ++ stringLiteral message ++ ")\n" := by
  have hline (message : String) : lines [errorLine message] =
      "(error " ++ stringLiteral (withoutControls message) ++ ")\n" := by
    rw [lines, errorLine_eq]
    simp [String.append_assoc]
  unfold outcomeOf
  cases hreport : e.report with
  | none => exact ⟨_, hline _⟩
  | some r =>
    obtain ⟨text, htext⟩ := Report.exists_text (h r hreport)
    simp only [htext]
    exact ⟨_, hline _⟩

theorem exitCode_finish (outputs : List String) (error : Option Error) :
    (finish ⟨outputs, error⟩).exitCode = 0 ↔ error = none := by
  cases error with
  | none => exact iff_of_true rfl rfl
  | some e =>
    refine iff_of_false (fun hcode => ?_) nofun
    simp only [finish, outcomeOf] at hcode
    split at hcode
    · cases hcode
    · split at hcode <;> cases hcode

theorem finish_after (before : List String) (later : Transcript) :
    (finish ⟨before ++ later.outputs, later.error⟩).output =
      lines before ++ (finish later).output := by
  obtain ⟨outputs, error⟩ := later
  cases error <;> simp [finish, lines_append]

/-- A run that ends within a complete text is also that of every longer text. -/
theorem Runs.extend {text : String} (h : Runs σ invocation text done ending)
    (hcomplete : Reading.Complete text) (hending : ending ≠ .finished) (later : String) :
    Runs σ invocation (text ++ later) done ending := by
  cases h with
  | refused h => exact .refused h
  | played h hplays =>
    refine .played h ?_
    rcases Reading.ofText_append hcomplete later with ⟨_, _, hsame⟩ | ⟨hread, rest, hmore⟩
    · rwa [hsame]
    · exact hplays.extend hending hread (congrArg Reading.exprs hmore)

/-- What a text prints that is run to its end is printed first by every longer text. -/
theorem Runs.output_append {text : String} (h : Runs σ invocation text done .finished)
    (hcomplete : Reading.Complete text) (later : String) :
    ∃ more, (run σ invocation (text ++ later)).output = (run σ invocation text).output ++ more := by
  have hown := h.outcome
  cases h with
  | played h hplays =>
    cases hplays with
    | finished hgoes hread =>
      have hopen := sessionOf_open σ invocation
      rcases Reading.ofText_append hcomplete later with ⟨_, hfailure, _⟩ | ⟨_, rest, hmore⟩
      · cases hread.symm.trans hfailure
      · have hlonger : run σ invocation (text ++ later) =
            finish (runAll (Reading.ofText (text ++ later)).failure
              (Reading.ofText (text ++ later)).exprs (sessionOf σ invocation)) := by
          rw [run, h, sessionOf, h, ← runScript_eq]
        rw [hlonger, hmore, Reading.prepend, (hgoes.runAll hopen rest.failure rest.exprs).2,
          finish_after, hown]
        exact ⟨_, rfl⟩

/-- Scripts are run as they are read. A run of a complete text prints the same as the first part of
a longer one, and no more is run of the longer one unless the text is run to its end: if a command
fails, an exit is reached or the text cannot be read, then it does not matter what comes later. The
exit code is zero just if there is no error. What is printed are the outputs of the commands that
succeed and, after an error, one expression that reports it. It is missing only if the report names
a sort that has no name. -/
theorem scripts_stream (invocation : Invocation) :
    (∀ text later, Reading.Complete text → ∀ done ending, Runs σ invocation text done ending →
      (∃ more, (run σ invocation (text ++ later)).output =
          (run σ invocation text).output ++ more ∧ (more ≠ "" → ending = .finished)) ∧
        (ending ≠ .finished → run σ invocation (text ++ later) = run σ invocation text)) ∧
    ∀ text, (∃ done ending, Runs σ invocation text done ending) ∧
      ∀ done ending, Runs σ invocation text done ending →
        ((run σ invocation text).exitCode = 0 ↔ ending.error? = none) ∧
        ∃ report, (run σ invocation text).output =
            lines (printed done (sessionOf σ invocation)) ++ report ∧
          (ending.error? = none → report = "") ∧
          ∀ e, ending.error? = some e → (∀ r ∈ e.report, none ∉ r.types) →
            ∃ message, report = "(error " ++ stringLiteral message ++ ")\n" := by
  refine ⟨fun text later hcomplete done ending hruns => ?_, fun text =>
    ⟨exists_runs σ invocation text, fun done ending hruns => ?_⟩⟩
  · have hsame (hending : ending ≠ .finished) :
        run σ invocation (text ++ later) = run σ invocation text := by
      rw [hruns.outcome, (hruns.extend hcomplete hending later).outcome]
    refine ⟨?_, hsame⟩
    by_cases hending : ending = .finished
    · subst hending
      obtain ⟨more, hmore⟩ := hruns.output_append hcomplete later
      exact ⟨more, hmore, fun _ => rfl⟩
    · exact ⟨"", by rw [hsame hending, String.append_empty], fun h => absurd rfl h⟩
  · rw [hruns.outcome]
    refine ⟨exitCode_finish _ _, ?_⟩
    cases ending.error? with
    | none => exact ⟨"", by simp [finish], fun _ => rfl, nofun⟩
    | some e =>
      refine ⟨lines (outcomeOf e).1, lines_append _ _, nofun, fun e' he htold => ?_⟩
      obtain rfl := Option.some.inj he
      exact outcomeOf_told htold

/-- A level that is asked for before there is a logic is the last thing to be run. -/
theorem scripts_stream_stopped :
    let invocation : Invocation := ⟨"levels.smt2", "z3", [], none⟩
    let text := "(echo \"on\")\n(push)\n"
    let echo : SExpr := .list [.atom "echo", .atom "\"on\""]
    Reading.Complete text ∧ Runs Scripted invocation text [echo] (.failed .noLogic) ∧
      (∀ r ∈ Error.noLogic.report, none ∉ r.types) ∧
      run Scripted invocation (text ++ ") |") = run Scripted invocation text ∧
      ∃ message, (run Scripted invocation text).output =
        "on\n" ++ ("(error " ++ stringLiteral message ++ ")\n") := by
  intro invocation text echo
  let S : Session Scripted ScriptedModel := sessionOf Scripted invocation
  let push : SExpr := .list [.atom "push"]
  have hcomplete : Reading.Complete text := by
    have hread : Lexer.read .between (unifyLineEnds text.toList) =
        some (["(", "echo", "\"on\"", ")", "(", "push", ")"], .between) := by decide
    have hfailure : (Reading.ofText text).failure = none := by decide
    refine ⟨by decide, ?_, ?_⟩
    · intro ts mode h
      obtain ⟨-, rfl⟩ := Prod.mk.inj (Option.some.inj (hread.symm.trans h))
      rfl
    · intro position h
      cases hfailure.symm.trans h
  have hecho : echo.Requests (.echo "\"on\"") := .intro rfl rfl
  have hpush : push.Requests (.push 1) := .intro rfl rfl
  have hopen : S.status ≠ .closed := sessionOf_open Scripted invocation
  have hprints : (execute echo).run S = (.ok (some "on"), S) := by
    rw [run_execute hecho hopen]
    rfl
  have hfails : (execute push).run S = (.error .noLogic, S) := by
    have hidle : S.status ≠ .active := by
      rw [status_sessionOf]
      decide
    rw [run_execute hpush hopen]
    refine Step.run_bind_error (Step.run_bind_error ?_)
    rw [requireActive, Step.run_bind_ok (run_requireOpen hopen),
      Step.run_bind_ok (Step.run_get S), if_pos hidle, Step.run_throw]
  have hconfigure : (configure invocation.options).run (.ofSolver invocation.solver) =
      (.ok ⟨⟩, .ofSolver invocation.solver) := rfl
  have hexprs : (Reading.ofText text).exprs = [echo] ++ push :: [] := by cbv
  have hstays : ¬ echo.Requests .exit := by
    intro h
    cases h.unique hecho
  have hgoes : GoesOn [echo] S := ⟨hstays, _, _, hprints, trivial⟩
  have hplays : Plays (.ofText text) S [echo] (.failed .noLogic) :=
    .failed hexprs hgoes ((congrArg (execute push).run (after_cons_ok hprints [])).trans hfails)
  have hruns : Runs Scripted invocation text [echo] (.failed .noLogic) := .played hconfigure hplays
  have htold : ∀ r ∈ Error.noLogic.report, none ∉ r.types := by
    rintro _ ⟨⟩
    exact List.not_mem_nil
  have hstreams := scripts_stream (σ := Scripted) invocation
  have hfailed : Ending.failed .noLogic ≠ .finished := by
    intro h
    cases h
  refine ⟨hcomplete, hruns, htold, (hstreams.1 text ") |" hcomplete _ _ hruns).2 hfailed, ?_⟩
  obtain ⟨-, report, houtput, -, hline⟩ := (hstreams.2 text).2 _ _ hruns
  obtain ⟨message, rfl⟩ := hline _ rfl htold
  refine ⟨message, ?_⟩
  rw [houtput, printed_cons_ok hprints, printed_nil, List.append_nil]
  rfl

end CommandLine

end SmtScript
