import SmtScript.Configuration
import SmtScript.Proofs.Command
import SmtScript.Proofs.Error
import SmtScript.Proofs.SExpr.Atom
import SmtScript.SortTable

/-!
Numerals that have no value.

A numeral may contain digits that have no value. Wherever one is read, for a width, a number of
levels or a seed, it is refused without a word; nothing else in a sort, an option or the arguments
of a command is.
-/

namespace SmtScript

/-- Whether an S-expression is a part of another one, or the whole of it. -/
inductive SExpr.Inside (r : SExpr) : SExpr → Prop where
  | whole : Inside r r
  | item {items : List SExpr} {s : SExpr} (hs : s ∈ items) (h : Inside r s) :
      Inside r (.list items)

theorem SExpr.Inside.trans {r s t : SExpr} (h : r.Inside s) (h' : s.Inside t) : r.Inside t := by
  induction h' with
  | whole => exact h
  | item hs _ ih => exact .item hs ih

theorem SExpr.inside_of_mem {s : SExpr} {items : List SExpr} (h : s ∈ items) :
    s.Inside (.list items) :=
  .item h .whole

/-- Whether a numeral some digits of which have no value is a part of an S-expression. -/
def SExpr.HasOrnateNumeral (s : SExpr) : Prop :=
  ∃ text, (SExpr.atom text).Inside s ∧ Numeral.read text = .unreadable

theorem SExpr.HasOrnateNumeral.mono {r s : SExpr} (h : r.HasOrnateNumeral) (hinside : r.Inside s) :
    s.HasOrnateNumeral := by
  obtain ⟨text, htext, hread⟩ := h
  exact ⟨text, htext.trans hinside, hread⟩

theorem SortTable.parse_silent {table : SortTable} {s : SExpr} {e : Error}
    (h : table.parse s = .error e) (hsilent : e.isSilent = true) : s.HasOrnateNumeral := by
  induction s using SortTable.parse.induct generalizing e with
  | case1 name =>
    rw [parse, ofName] at h
    split at h
    · cases h
    · split at h
      · cases h
      · split at h
        · cases h
        · split at h
          · cases h
          · cases h
            cases hsilent
  | case2 index element ihindex ihelement =>
    rw [parse] at h
    cases hindex : table.parse index with
    | error e' =>
      rw [hindex] at h
      cases h
      exact (ihindex hindex hsilent).mono (SExpr.inside_of_mem (by simp))
    | ok sort =>
      rw [hindex] at h
      cases helement : table.parse element with
      | error e' =>
        rw [helement] at h
        cases h
        exact (ihelement helement hsilent).mono (SExpr.inside_of_mem (by simp))
      | ok sort' =>
        rw [helement] at h
        cases h
  | case3 width =>
    rw [parse, ofWidth] at h
    split at h
    · cases h
      cases hsilent
    · cases h
    · cases h
      cases hsilent
    · rename_i hread
      cases h
      exact ⟨width, SExpr.inside_of_mem (by simp), hread⟩
  | case4 items _ _ =>
    rw [parse] at h
    · cases h
      cases hsilent
    all_goals assumption

/-! ### Seeds -/

theorem Numeral.isDigit_of_unreadable {text : String} (h : Numeral.read text = .unreadable) :
    ∀ c ∈ text.toList, (decimalValue? c).isSome = true ∨ isOrnateDigit c = true := by
  unfold Numeral.read at h
  dsimp only at h
  split at h
  · cases h
  · split at h
    · cases h
    · split at h
      · rename_i hall
        simpa using hall
      · cases h

/-- A numeral is written as it is. -/
theorem SExpr.hasOrnateNumeral_of_text {s : SExpr} (h : Numeral.read s.text = .unreadable) :
    s.HasOrnateNumeral := by
  have hdigits := Numeral.isDigit_of_unreadable h
  have hparenthesis : ¬ ((decimalValue? '(').isSome = true ∨ isOrnateDigit '(' = true) := by decide
  have hbar : ¬ ((decimalValue? '|').isSome = true ∨ isOrnateDigit '|' = true) := by decide
  cases s with
  | list items => exact (hparenthesis (hdigits '(' (by simp [SExpr.text]))).elim
  | atom atom =>
    rcases SExpr.atomText_cases atom with ⟨htext, _⟩ | ⟨htext, _⟩
    · exact (hbar (hdigits '|' (by simp [SExpr.text, htext]))).elim
    · exact ⟨atom, .whole, by rwa [SExpr.text, htext] at h⟩

theorem Configuration.steer_unreported {options : SolverOptions} {keyword value : String}
    {e : Error} (h : steer options keyword value = .error e) (hreport : e.report = none) :
    keyword = ":random-seed" ∧ Numeral.read value = .unreadable := by
  have hbool (value : String) : Tells (·.report = none) (parseBool value) := by
    unfold parseBool
    split
    · exact .ok _
    · split
      · exact .ok _
      · exact .error (by simp [Error.report, Error.fromSolver])
  unfold steer at h
  split at h
  · exact (((hbool value).bind fun _ _ => .ok _) e h hreport).elim
  · split at h
    · exact (((hbool value).bind fun _ _ => .ok _) e h hreport).elim
    · split at h
      · rename_i hseed
        unfold parseSeed at h
        split at h
        · cases h
        · cases h
          cases hreport
        · exact ⟨hseed, ‹_›⟩
      · cases h

/-- Setting an option fails with an error that has no wording only if the option is a seed some
digits of which have no value. -/
theorem Configuration.setOption_unreported {c c' : Configuration} {keyword value : String}
    {e : Error} (h : (setOption keyword value).run c = (.error e, c')) (hreport : e.report = none) :
    keyword = ":random-seed" ∧ Numeral.read value = .unreadable := by
  unfold setOption at h
  rw [Step.run_bind_ok (Step.run_modify _ _), Step.run_bind_ok (Step.run_get _)] at h
  split at h
  · cases h
  · rename_i e' hsteer
    obtain rfl := Except.error.inj (Prod.mk.inj h).1
    exact steer_unreported hsteer hreport

/-! ### Commands -/

namespace Command

variable {head : String} {sexpr : SExpr} {name : CommandName} {args : List SExpr}

theorem numeralArgument_told (default : Nat)
    (hargs : ∀ text, .atom text ∈ args → Numeral.read text ≠ .unreadable) :
    Tells (·.isSilent = true) (numeralArgument head sexpr default args) := by
  unfold numeralArgument
  split
  · exact .ok _
  · split
    · exact .ok _
    · exact .error (by simp [Error.isSilent])
    · exact (hargs _ List.mem_cons_self ‹_›).elim
  · exact .error (by simp [Error.isSilent])
  · exact .error (by simp [Error.isSilent])

theorem symbolArgument_told (arg : SExpr) :
    Tells (·.isSilent = true) (symbolArgument head sexpr arg) := by
  cases arg with
  | atom text => exact .ok _
  | list items => exact .error (by simp [Error.isSilent])

theorem listArgument_told (arg : SExpr) :
    Tells (·.isSilent = true) (listArgument head sexpr arg) := by
  cases arg with
  | atom text => exact .error (by simp [Error.isSilent])
  | list items => exact .ok _

theorem keywordArgument_told (arg : SExpr) :
    Tells (·.isSilent = true) (keywordArgument head sexpr arg) := by
  cases arg with
  | atom text =>
    unfold keywordArgument
    dsimp only
    split
    · exact .ok _
    · exact .error (by simp [Error.isSilent])
  | list items => exact .error (by simp [Error.isSilent])

/-- Unless an argument is a numeral without a value, it is told why a command cannot be read. -/
theorem read_told (hargs : ∀ text, .atom text ∈ args → Numeral.read text ≠ .unreadable) :
    Tells (·.isSilent = true) (Command.read head sexpr name args) := by
  unfold Command.read
  split
  · exact .bind (symbolArgument_told _) fun _ _ => .ok _
  · exact .bind (keywordArgument_told _) fun _ _ => .ok _
  · exact .ok _
  · exact .ok _
  · exact .bind (keywordArgument_told _) fun _ _ => .ok _
  · exact .bind (keywordArgument_told _) fun _ _ => .ok _
  · exact .bind (symbolArgument_told _) fun _ _ => .ok _
  · exact .bind (numeralArgument_told _ hargs) fun _ _ => .ok _
  · exact .bind (numeralArgument_told _ hargs) fun _ _ => .ok _
  · exact .ok _
  · exact .ok _
  · exact .ok _
  · exact .error (by simp [Error.isSilent])
  · refine .bind (symbolArgument_told _) fun _ _ => ?_
    exact .bind (numeralArgument_told _ fun text htext => hargs text (by simp [htext]))
      fun _ _ => .ok _
  · exact .bind (symbolArgument_told _) fun _ _ => .bind (listArgument_told _) fun _ _ => .ok _
  · exact .bind (symbolArgument_told _) fun _ _ => .ok _
  · exact .bind (symbolArgument_told _) fun _ _ => .bind (listArgument_told _) fun _ _ => .ok _
  · exact .ok _
  · exact .ok _
  · exact .bind (listArgument_told _) fun _ _ => .ok _
  · exact .ok _
  · refine .bind (listArgument_told _) fun terms _ => ?_
    split
    · exact .error (by simp [Error.isSilent])
    · exact .ok _
  all_goals first | exact .ok _ | exact .error (by simp [Error.isSilent])

/-- The arguments from which the S-expressions of a command are taken. -/
def TakenFrom (args : List SExpr) : Command → Prop
  | .setOption _ value => ∃ keyword s, args = [keyword, s] ∧ value = s.text
  | .declareFun _ domains codomain =>
    (∃ name, args = [name, .list domains, codomain]) ∨
      domains = [] ∧ ∃ name, args = [name, codomain]
  | .defineFun _ parameters codomain body => ∃ name, args = [name, .list parameters, codomain, body]
  | .assertTerm sexpr => args = [sexpr]
  | .checkSat assumptions => args = [.list assumptions] ∨ assumptions = []
  | .getValue sexprs => args = [.list sexprs]
  | _ => True

theorem list_of_listArgument {arg : SExpr} {items : List SExpr}
    (h : listArgument head sexpr arg = .ok items) : arg = .list items := by
  cases arg with
  | atom text => cases h
  | list items' => exact congrArg _ (Except.ok.inj h)

theorem takenFrom_of_read {command : Command}
    (h : Command.read head sexpr name args = .ok command) :
    command.TakenFrom args := by
  unfold Command.read at h
  split at h
  all_goals
    try simp only [bind, Except.bind, pure, Except.pure, throw, throwThe,
      MonadExceptOf.throw] at h
  all_goals grind [TakenFrom, → list_of_listArgument]

end Command

end SmtScript
