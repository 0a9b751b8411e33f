import SmtScript.Command
import SmtScript.Proofs.Environment

/-!
What commands are read from.

A command that binds a name has it for its first argument, and commands that take assertions away
or end a session are read from their own words only.
-/

namespace SmtScript

/-- Whether an S-expression is read as a command. -/
inductive SExpr.Requests : SExpr → Command → Prop where
  | intro {head : String} {args : List SExpr} {name : CommandName} {command : Command}
      (hname : CommandName.ofText? head = some name)
      (hread : Command.read head (.list (.atom head :: args)) name args = .ok command) :
      Requests (.list (.atom head :: args)) command

/-- Whether an S-expression declares or defines a name. -/
inductive SExpr.Binds (name : String) : SExpr → Prop where
  | declareFun (args : List SExpr) : Binds name (.list (.atom "declare-fun" :: .atom name :: args))
  | declareConst (args : List SExpr) :
      Binds name (.list (.atom "declare-const" :: .atom name :: args))
  | defineFun (args : List SExpr) : Binds name (.list (.atom "define-fun" :: .atom name :: args))

/-- Whether an S-expression takes all assertions away or ends a session. -/
def SExpr.clears : SExpr → Bool
  | .list (.atom head :: _) => ["reset-assertions", "reset", "exit"].contains head
  | _ => false

theorem CommandName.mem_texts {text : String} {name : CommandName}
    (h : CommandName.ofText? text = some name) : (text, name) ∈ CommandName.texts :=
  Environment.mem_of_lookup h

namespace Command

/-- The name that a command binds. -/
def bound? : Command → Option String
  | .declareFun name _ _ | .defineFun name _ _ _ => some name
  | _ => none

/-- Whether a command binds a name, asserts something or starts again. -/
def adds : Command → Bool
  | .declareFun _ _ _ | .defineFun _ _ _ _ | .assertTerm _ | .reset => true
  | _ => false

/-- What is known of the name and the arguments that a command is read from. -/
def ReadFrom (name : CommandName) (args : List SExpr) : Command → Prop
  | .resetAssertions => name = .resetAssertions
  | .reset => name = .reset
  | .exit => name = .exit
  | .declareFun bound _ _ =>
    (name = .declareFun ∨ name = .declareConst) ∧ args.head? = some (.atom bound)
  | .defineFun bound _ _ _ => name = .defineFun ∧ args.head? = some (.atom bound)
  | _ => True

theorem atom_of_symbolArgument {head : String} {sexpr arg : SExpr} {text : String}
    (h : symbolArgument head sexpr arg = .ok text) : arg = .atom text := by
  cases arg with
  | atom text' => exact congrArg _ (Except.ok.inj h)
  | list items => cases h

theorem readFrom_of_read {head : String} {sexpr : SExpr} {name : CommandName} {args : List SExpr}
    {command : Command} (h : Command.read head sexpr name args = .ok command) :
    command.ReadFrom name args := by
  unfold Command.read at h
  split at h
  all_goals
    try simp only [bind, Except.bind, pure, Except.pure, throw, throwThe,
      MonadExceptOf.throw] at h
  all_goals grind [ReadFrom, → atom_of_symbolArgument]

end Command

namespace SExpr

variable {sexpr : SExpr} {command : Command}

theorem Requests.binds {name : String} (h : sexpr.Requests command)
    (hbound : command.bound? = some name) : sexpr.Binds name := by
  obtain ⟨hname, hread⟩ := h
  have hfrom := Command.readFrom_of_read hread
  have htext := CommandName.mem_texts hname
  cases command with
  | declareFun bound domains codomain =>
    obtain rfl := Option.some.inj hbound
    obtain ⟨hword, hargs⟩ := hfrom
    obtain ⟨rest, rfl⟩ := List.head?_eq_some_iff.mp hargs
    rcases hword with rfl | rfl
    · obtain rfl : _ = "declare-fun" := by simpa [CommandName.texts] using htext
      exact .declareFun rest
    · obtain rfl : _ = "declare-const" := by simpa [CommandName.texts] using htext
      exact .declareConst rest
  | defineFun bound parameters codomain body =>
    obtain rfl := Option.some.inj hbound
    obtain ⟨rfl, hargs⟩ := hfrom
    obtain ⟨rest, rfl⟩ := List.head?_eq_some_iff.mp hargs
    obtain rfl : _ = "define-fun" := by simpa [CommandName.texts] using htext
    exact .defineFun rest
  | _ => cases hbound

/-- Only what is read from its own word takes assertions away or ends a session. -/
theorem Requests.clears (h : sexpr.Requests command)
    (hclears : command = .resetAssertions ∨ command = .reset ∨ command = .exit) :
    sexpr.clears = true := by
  obtain ⟨hname, hread⟩ := h
  have hfrom := Command.readFrom_of_read hread
  have htext := CommandName.mem_texts hname
  rcases hclears with rfl | rfl | rfl
  · obtain rfl := hfrom
    obtain rfl : _ = "reset-assertions" := by simpa [CommandName.texts] using htext
    rfl
  · obtain rfl := hfrom
    obtain rfl : _ = "reset" := by simpa [CommandName.texts] using htext
    rfl
  · obtain rfl := hfrom
    obtain rfl : _ = "exit" := by simpa [CommandName.texts] using htext
    rfl

end SExpr

end SmtScript
