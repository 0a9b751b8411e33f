import SmtScript.Interpreter
import SmtScript.Proofs.Session.Running

/-!
Commands that leave the tables of a session alone.

The assertions and names of a session, its options and its infos are the tables that a script fills.
A few commands do so, `Command.fillsTables`. All others are `Session.Aloof` from the tables,
whether they fail or not: they work on the terms, on the solver context and on the model only.
-/

namespace SmtScript

open Step

/-- Whether a command may change assertions, names, options or infos. -/
def Command.fillsTables : Command → Bool
  | .setOption _ _ | .setInfo _ _ | .push _ | .pop _ | .resetAssertions | .reset
  | .declareFun _ _ _ | .defineFun _ _ _ _ | .assertTerm _ => true
  | _ => false

namespace Session

variable {σ μ α β : Type} {S S' : Session σ μ}

/-- Whether no assertion and no name has come or gone, and no option and no info has changed. -/
structure SameTables (S S' : Session σ μ) : Prop where
  assertions : S'.assertions = S.assertions
  names : S'.names = S.names
  configuration : S'.configuration = S.configuration
  info : S'.info = S.info

theorem closed_sameTables : Step.Closed (SameTables (σ := σ) (μ := μ)) where
  refl _ := ⟨rfl, rfl, rfl, rfl⟩
  trans h h' := ⟨h'.assertions.trans h.assertions, h'.names.trans h.names,
    h'.configuration.trans h.configuration, h'.info.trans h.info⟩

/-- Whether a step leaves the tables alone, whether it fails or not. -/
abbrev Aloof (x : SessionStep σ μ α) (S : Session σ μ) : Prop :=
  Leads SameTables x S fun _ _ => True

theorem Aloof.bind {x : SessionStep σ μ α} {f : α → SessionStep σ μ β} (h : Aloof x S)
    (hf : ∀ a S', Aloof (f a) S') : Aloof (x >>= f) S :=
  Leads.bind closed_sameTables h fun a S' _ _ => hf a S'

theorem aloof_pure (a : α) : Aloof (pure a : SessionStep σ μ α) S :=
  .pure closed_sameTables trivial

theorem aloof_throw (e : Error) : Aloof (throw e : SessionStep σ μ α) S :=
  .throw closed_sameTables e

theorem aloof_get {f : Session σ μ → SessionStep σ μ α} (h : Aloof (f S) S) :
    Aloof (MonadState.get >>= f) S :=
  .get h

theorem aloof_modify {f : Session σ μ → Session σ μ} (h : SameTables S (f S)) :
    Aloof (modify f : SessionStep σ μ PUnit) S :=
  .modify h trivial

theorem aloof_ofExcept (result : Except Error α) :
    Aloof (ofExcept result : SessionStep σ μ α) S :=
  .mk closed_sameTables fun _ _ => trivial

theorem aloof_onTerms (step : Translation α) : Aloof (onTerms step : SessionStep σ μ α) S :=
  .of_run (run_onTerms step S) ⟨rfl, rfl, rfl, rfl⟩ fun _ _ => trivial

theorem aloof_onContext (step : ContextStep σ α) :
    Aloof (onContext step : SessionStep σ μ α) S := by
  cases hcontext : S.context with
  | none =>
    exact .of_run (run_onContext_none step hcontext) ⟨rfl, rfl, rfl, rfl⟩ fun _ _ => trivial
  | some p => exact .of_run (run_onContext step hcontext) ⟨rfl, rfl, rfl, rfl⟩ fun _ _ => trivial

theorem aloof_onModel (step : PartStep μ α) : Aloof (onModel step : SessionStep σ μ α) S :=
  .of_run (run_onModel step S) ⟨rfl, rfl, rfl, rfl⟩ fun _ _ => trivial

theorem aloof_dropModel : Aloof (dropModel : SessionStep σ μ Unit) S :=
  .of_run (run_dropModel S) ⟨by simp, by simp, by simp, by simp⟩ fun _ _ => trivial

theorem aloof_requireOpen : Aloof (requireOpen : SessionStep σ μ Unit) S :=
  (requireOpen_leads closed_sameTables S).mono fun _ _ _ _ => trivial

theorem aloof_requireActive : Aloof (requireActive : SessionStep σ μ Unit) S :=
  (requireActive_leads closed_sameTables S).mono fun _ _ _ _ => trivial

theorem aloof_getOption (keyword : String) :
    Aloof (getOption keyword : SessionStep σ μ String) S := by
  refine aloof_requireOpen.bind fun _ _ => aloof_get ?_
  split
  · exact aloof_pure _
  · exact aloof_throw _

theorem aloof_getInfo (keyword : String) :
    Aloof (getInfo keyword : SessionStep σ μ String) S := by
  refine aloof_requireOpen.bind fun _ _ => aloof_get ?_
  split
  · exact aloof_pure _
  · exact aloof_throw _

theorem aloof_declareSort (name : String) (arity : Nat) :
    Aloof (declareSort name arity : SessionStep σ μ Unit) S := by
  refine aloof_requireOpen.bind fun _ _ => aloof_get ?_
  exact (aloof_ofExcept _).bind fun _ _ => aloof_modify ⟨rfl, rfl, rfl, rfl⟩

theorem aloof_newSymbol (name : String) (sort : SmtSort) :
    Aloof (newSymbol name sort : SessionStep σ μ Symbol) S := by
  refine aloof_get ?_
  dsimp only
  split
  · exact aloof_onTerms _
  · split
    · exact aloof_throw _
    · exact (aloof_modify ⟨rfl, rfl, rfl, rfl⟩).bind fun _ _ => aloof_pure _

/-- There is a symbol for each parameter. -/
theorem declareParameters_length (name : String) (parameters : List SExpr) (S : Session σ μ) :
    Leads SameTables (declareParameters name parameters) S fun _ declared =>
      declared.length = parameters.length := by
  induction parameters generalizing S with
  | nil => exact .pure closed_sameTables rfl
  | cons parameter rest ih =>
    unfold declareParameters
    split
    · contradiction
    · rename_i heq
      obtain ⟨rfl, rfl⟩ := List.cons.inj heq
      refine .get (.bind closed_sameTables (aloof_ofExcept _) fun _ _ _ _ => ?_)
      refine .bind closed_sameTables (aloof_onTerms _) fun _ S₂ _ _ => ?_
      refine .bind closed_sameTables (ih S₂) fun later _ _ hlater => .pure closed_sameTables ?_
      rw [List.length_cons, List.length_cons, hlater]
    · exact .throw closed_sameTables _

theorem aloof_parseTerm (sexpr : SExpr) :
    Aloof (parseTerm sexpr : SessionStep σ μ Term) S :=
  aloof_get (aloof_onTerms _)

theorem aloof_parseTerms (sexprs : List SExpr) :
    Aloof (parseTerms sexprs : SessionStep σ μ (List Term)) S := by
  induction sexprs generalizing S with
  | nil => exact aloof_pure _
  | cons sexpr rest ih =>
    exact (aloof_parseTerm sexpr).bind fun _ _ => ih.bind fun _ _ => aloof_pure _

theorem aloof_exit : Aloof (exit : SessionStep σ μ Unit) S := by
  refine aloof_requireOpen.bind fun _ S₁ => ?_
  have hreleased : Aloof (release : SessionStep σ μ Unit) S₁ :=
    .of_run (run_release S₁) ⟨by simp, by simp, by simp, by simp⟩ fun _ _ => trivial
  exact hreleased.bind fun _ _ => aloof_modify ⟨rfl, rfl, rfl, rfl⟩

variable [Solver σ μ]

theorem aloof_defineParts (parts : IntegerParts) :
    Aloof (defineParts parts : SessionStep σ μ Unit) S := by
  induction parts generalizing S with
  | nil => exact aloof_pure _
  | cons part rest ih =>
    exact (aloof_onContext _).bind fun _ _ => (aloof_modify ⟨rfl, rfl, rfl, rfl⟩).bind fun _ _ => ih

theorem aloof_checkSat (assumptions : List SExpr) :
    Aloof (checkSat assumptions : SessionStep σ μ CheckStatus) S := by
  refine aloof_requireActive.bind fun _ _ => aloof_dropModel.bind fun _ _ => ?_
  exact (aloof_parseTerms _).bind fun _ _ => aloof_get (aloof_onContext _)

theorem aloof_ensureModel : Aloof (ensureModel : SessionStep σ μ Unit) S := by
  refine aloof_requireActive.bind fun _ _ => aloof_get ?_
  split
  · exact aloof_pure _
  · exact (aloof_onContext _).bind fun _ _ => aloof_modify ⟨rfl, rfl, rfl, rfl⟩

theorem aloof_evaluateAll (ts : List Term) :
    Aloof (evaluateAll ts : SessionStep σ μ (List Term)) S := by
  induction ts generalizing S with
  | nil => exact aloof_pure _
  | cons t rest ih =>
    exact (aloof_onModel _).bind fun _ _ => ih.bind fun _ _ => aloof_pure _

theorem aloof_getValue (sexprs : List SExpr) :
    Aloof (getValue sexprs : SessionStep σ μ (List (SExpr × Term))) S := by
  refine aloof_requireActive.bind fun _ _ => (aloof_parseTerms _).bind fun _ _ => ?_
  exact aloof_ensureModel.bind fun _ _ => (aloof_evaluateAll _).bind fun _ _ => aloof_pure _

theorem aloof_modelEntry (name : String) (binding : Binding) :
    Aloof (modelEntry name binding : SessionStep σ μ (Option ModelEntry)) S := by
  unfold modelEntry
  split
  · split
    · exact (aloof_onModel _).bind fun _ _ => aloof_pure _
    · exact (aloof_onModel _).bind fun _ _ => aloof_pure _
  · exact aloof_pure _

theorem aloof_modelEntries (entries : List (String × Binding)) :
    Aloof (modelEntries entries : SessionStep σ μ (List ModelEntry)) S := by
  induction entries generalizing S with
  | nil => exact aloof_pure _
  | cons entry rest ih =>
    exact (aloof_modelEntry _ _).bind fun _ _ => ih.bind fun _ _ => aloof_pure _

theorem aloof_getModel : Aloof (getModel : SessionStep σ μ (List ModelEntry)) S :=
  aloof_ensureModel.bind fun _ _ => aloof_get (aloof_modelEntries _)

theorem aloof_getUnsatCore : Aloof (getUnsatCore : SessionStep σ μ (List Term)) S :=
  aloof_requireActive.bind fun _ _ => aloof_onContext _

theorem aloof_setLogic (logic : String) :
    Aloof (setLogic logic : SessionStep σ μ Unit) S := by
  refine aloof_requireOpen.bind fun _ _ => aloof_get ?_
  dsimp only
  split
  · exact aloof_throw _
  · split
    · exact aloof_throw _
    · exact .of_run (run_set _ _) ⟨rfl, rfl, rfl, rfl⟩ fun _ _ => trivial

theorem perform_aloof {command : Command} (h : command.fillsTables = false) :
    Aloof (perform command : SessionStep σ μ (Option String)) S := by
  have hresult {α : Type} {x : SessionStep σ μ α} {f : α → Option String} (hx : Aloof x S) :
      Aloof (do return f (← x)) S := hx.bind fun _ _ => aloof_pure _
  cases command with
  | setLogic logic => exact hresult (aloof_setLogic logic)
  | ignoreInfo => exact aloof_pure _
  | getInfo keyword => exact hresult (aloof_getInfo keyword)
  | getOption keyword => exact hresult (aloof_getOption keyword)
  | echo text => exact aloof_pure _
  | exit => exact hresult aloof_exit
  | declareSort name arity => exact hresult (aloof_declareSort name arity)
  | checkSat assumptions => exact hresult (aloof_checkSat assumptions)
  | getAssertions => exact aloof_requireActive.bind fun _ _ => aloof_get (aloof_pure _)
  | getValue sexprs => exact hresult (aloof_getValue sexprs)
  | getModel =>
    exact aloof_requireActive.bind fun _ _ => aloof_getModel.bind fun _ _ => aloof_pure _
  | getUnsatCore => exact hresult aloof_getUnsatCore
  | unsupported head sexpr isQuery =>
    cases isQuery with
    | false => exact aloof_throw _
    | true => exact aloof_requireActive.bind fun _ _ => aloof_throw _
  | _ => cases h

end Session

end SmtScript
