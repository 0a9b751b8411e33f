import SmtScript.Proofs.SExpr.RoundTrip
import SmtScript.Proofs.Session.Aloof
import SmtScript.Proofs.Session.Lifecycle
import SmtScript.Proofs.Session.Options
import SmtScript.Solver.Scripted

/-!
Options and infos of a session.

A session keeps the text of each option and the atom of each info until they are set again or the
session starts again: every other command is `Session.Discreet`, it leaves both alone whether it
fails or not. The text of an option is read back. An info is printed without bars, so that it is
read back only if its atom needs none, `Session.attributes_read_back`.
-/

namespace SmtScript

open Step

/-- Whether a text is a keyword that is read as one atom. -/
structure IsKeyword (keyword : String) : Prop where
  colon : keyword.toList.head? = some ':'
  chars : ∀ c ∈ keyword.toList, c ∉ [' ', '\t', '\n', '\r', '(', ')', '|', ';', '"']

namespace Session

variable {σ μ α β : Type} {S S' : Session σ μ}

/-- Whether two sessions have the same options and infos. -/
structure SameNotes (S S' : Session σ μ) : Prop where
  configuration : S'.configuration = S.configuration
  info : S'.info = S.info

theorem closed_sameNotes : Step.Closed (SameNotes (σ := σ) (μ := μ)) where
  refl _ := ⟨rfl, rfl⟩
  trans h h' := ⟨h'.configuration.trans h.configuration, h'.info.trans h.info⟩

theorem SameTables.sameNotes (h : SameTables S S') : SameNotes S S' := ⟨h.configuration, h.info⟩

/-- Whether a step leaves options and infos alone, whether it fails or not. -/
abbrev Discreet (x : SessionStep σ μ α) (S : Session σ μ) : Prop :=
  Leads SameNotes x S fun _ _ => True

theorem Discreet.bind {x : SessionStep σ μ α} {f : α → SessionStep σ μ β} (h : Discreet x S)
    (hf : ∀ a S', Discreet (f a) S') : Discreet (x >>= f) S :=
  Leads.bind closed_sameNotes h fun a S' _ _ => hf a S'

/-- A step that leaves all tables alone comes first. -/
theorem Aloof.discreet_bind {x : SessionStep σ μ α} {f : α → SessionStep σ μ β} (h : Aloof x S)
    (hf : ∀ a S', Discreet (f a) S') : Discreet (x >>= f) S :=
  Discreet.bind (h.weaken fun _ h => h.sameNotes) hf

theorem discreet_modify {f : Session σ μ → Session σ μ} (h : SameNotes S (f S)) :
    Discreet (modify f : SessionStep σ μ PUnit) S :=
  .modify h trivial

theorem bindName_discreet (name : String) (binding : Binding) :
    Discreet (bindName name binding : SessionStep σ μ Unit) S :=
  discreet_modify ⟨rfl, rfl⟩

theorem declareFun_discreet (name : String) (domains : List SExpr) (codomain : SExpr) :
    Discreet (declareFun name domains codomain : SessionStep σ μ Symbol) S := by
  refine aloof_requireOpen.discreet_bind fun _ _ => .get ?_
  refine (aloof_ofExcept _).discreet_bind fun _ _ => (aloof_ofExcept _).discreet_bind fun _ _ => ?_
  refine (aloof_newSymbol name _).discreet_bind fun symbol _ => ?_
  exact (bindName_discreet name _).bind fun _ _ => .pure closed_sameNotes trivial

theorem defineFun_discreet (name : String) (parameters : List SExpr) (codomain body : SExpr) :
    Discreet (defineFun name parameters codomain body : SessionStep σ μ Unit) S := by
  have hparameters (S : Session σ μ) : Aloof (declareParameters name parameters) S :=
    (declareParameters_length name parameters S).mono fun _ _ _ _ => trivial
  refine aloof_requireOpen.discreet_bind fun _ _ => .get ?_
  refine (aloof_ofExcept _).discreet_bind fun _ S₁ => ?_
  refine (hparameters S₁).discreet_bind fun _ _ => .get ?_
  refine (aloof_onTerms _).discreet_bind fun _ _ => ?_
  refine (aloof_ofExcept _).discreet_bind fun _ _ => ?_
  split
  · exact bindName_discreet name _
  · exact bindName_discreet name _

/-- A change of the stack, with the model dropped before. -/
theorem onStack_discreet (call : ContextStep σ Unit) {f : Session σ μ → Session σ μ}
    (hf : ∀ S, SameNotes S (f S)) :
    Discreet (do dropModel; onContext call; modify f : SessionStep σ μ PUnit) S :=
  aloof_dropModel.discreet_bind fun _ _ => (aloof_onContext _).discreet_bind fun _ S' =>
    discreet_modify (hf S')

variable [Solver σ μ]

theorem assertTerm_discreet (sexpr : SExpr) :
    Discreet (assertTerm sexpr : SessionStep σ μ Term) S := by
  refine aloof_requireActive.discreet_bind fun _ _ => ?_
  refine (aloof_parseTerm sexpr).discreet_bind fun _ _ => .get ?_
  refine (aloof_defineParts _).discreet_bind fun _ _ => ?_
  refine (aloof_onContext _).discreet_bind fun _ _ => ?_
  refine Discreet.bind (discreet_modify ⟨rfl, rfl⟩) fun _ _ => ?_
  exact aloof_dropModel.discreet_bind fun _ _ => .pure closed_sameNotes trivial

theorem push_discreet (levels : Nat) : Discreet (push levels : SessionStep σ μ Unit) S :=
  aloof_requireActive.discreet_bind fun _ _ => onStack_discreet _ fun _ => ⟨rfl, rfl⟩

theorem pop_discreet (levels : Nat) : Discreet (pop levels : SessionStep σ μ Unit) S := by
  refine aloof_requireActive.discreet_bind fun _ _ => .get ?_
  dsimp only
  split
  · exact .throw closed_sameNotes _
  · exact onStack_discreet _ fun _ => ⟨rfl, rfl⟩

theorem resetAssertions_discreet : Discreet (resetAssertions : SessionStep σ μ Unit) S :=
  aloof_requireActive.discreet_bind fun _ _ => onStack_discreet _ fun _ => ⟨rfl, rfl⟩

/-! ### Commands -/

/-- Commands that neither set an option or an info nor start again. -/
theorem perform_discreet {command : Command}
    (hoption : ∀ keyword value, command ≠ .setOption keyword value)
    (hinfo : ∀ keyword value, command ≠ .setInfo keyword value) (hreset : command ≠ .reset) :
    Discreet (perform command : SessionStep σ μ (Option String)) S := by
  have hresult {α : Type} {x : SessionStep σ μ α} {f : α → Option String} (h : Discreet x S) :
      Discreet (do return f (← x)) S := h.bind fun _ _ => .pure closed_sameNotes trivial
  cases command with
  | setOption keyword value => exact absurd rfl (hoption keyword value)
  | setInfo keyword value => exact absurd rfl (hinfo keyword value)
  | reset => exact absurd rfl hreset
  | push levels => exact hresult (push_discreet levels)
  | pop levels => exact hresult (pop_discreet levels)
  | resetAssertions => exact hresult resetAssertions_discreet
  | declareFun name domains codomain => exact hresult (declareFun_discreet name domains codomain)
  | defineFun name parameters codomain body =>
    exact hresult (defineFun_discreet name parameters codomain body)
  | assertTerm sexpr => exact hresult (assertTerm_discreet sexpr)
  | _ => exact (perform_aloof rfl).weaken fun _ h => h.sameNotes

/-- What a command can do to the options and infos. -/
inductive Notes (command : SExpr) (S S' : Session σ μ) : Prop where
  | same (h : SameNotes S S')
  | option (keyword value : String) (hrequest : command.Requests (.setOption keyword value))
      (hrecorded : S'.configuration.recorded = S.configuration.recorded.insert keyword value)
      (hinfo : S'.info = S.info)
  | info (keyword value : String) (hrequest : command.Requests (.setInfo keyword value))
      (hconfiguration : S'.configuration = S.configuration)
      (hinfo : S'.info = S.info.insert keyword value)
  | restart (hrequest : command.Requests .reset)

omit [Solver σ μ] in
theorem run_setOption_open (hopen : S.status ≠ .closed) (keyword value : String) :
    (setOption keyword value).run S =
      (((Configuration.setOption keyword value).run S.configuration).1, { S with
        configuration := ((Configuration.setOption keyword value).run S.configuration).2 }) := by
  rw [setOption, run_bind_ok (run_requireOpen hopen)]
  rfl

omit [Solver σ μ] in
theorem run_setInfo_open (hopen : S.status ≠ .closed) (keyword value : String) :
    (setInfo keyword value).run S =
      (.ok ⟨⟩, { S with info := S.info.insert keyword value }) := by
  rw [setInfo, run_bind_ok (run_requireOpen hopen), run_modify]

theorem perform_notes {command : SExpr} {request : Command} (hrequest : command.Requests request)
    (hopen : S.status ≠ .closed) : Notes command S ((perform request).run S).2 := by
  by_cases hoption : ∃ keyword value, request = .setOption keyword value
  · obtain ⟨keyword, value, rfl⟩ := hoption
    rw [perform, run_bind, run_setOption_open hopen, Configuration.run_setOption]
    cases Configuration.steer S.configuration.options keyword value with
    | ok options => exact .option keyword value hrequest rfl rfl
    | error e => exact .option keyword value hrequest rfl rfl
  by_cases hinfo : ∃ keyword value, request = .setInfo keyword value
  · obtain ⟨keyword, value, rfl⟩ := hinfo
    rw [perform, run_bind_ok (run_setInfo_open hopen keyword value), run_pure]
    exact .info keyword value hrequest rfl rfl
  by_cases hreset : request = .reset
  · exact .restart (hreset ▸ hrequest)
  · have hdiscreet : Discreet (perform request) S :=
      perform_discreet (fun k v h => hoption ⟨k, v, h⟩) (fun k v h => hinfo ⟨k, v, h⟩) hreset
    exact .same (hdiscreet _ _ rfl).1

/-- Every command does one of these things to the options and infos, whether it fails or not. -/
theorem execute_notes (command : SExpr) (S : Session σ μ) :
    Notes command S ((execute command).run S).2 := by
  by_cases hclosed : S.status = .closed
  · obtain ⟨e, he, _⟩ := execute_closed hclosed command
    exact .same (he ▸ closed_sameNotes.refl S)
  rcases run_execute_cases command S with ⟨e, he⟩ | ⟨request, hrequest, hrun⟩
  · exact .same (he ▸ closed_sameNotes.refl S)
  · rw [hrun]
    exact perform_notes hrequest hclosed

/-- What none of some commands changes is not changed by all of them. -/
theorem after_kept {β : Type} {f : Session σ μ → β} {commands : List SExpr}
    (h : ∀ command ∈ commands, ∀ S, f ((execute command).run S).2 = f S) (S : Session σ μ) :
    f (after commands S) = f S := by
  induction commands generalizing S with
  | nil => rfl
  | cons command rest ih =>
    obtain ⟨hcommand, hrest⟩ := List.forall_mem_cons.mp h
    exact (ih hrest _).trans (hcommand S)

variable {keyword : String} {command : SExpr} {later : List SExpr}

theorem execute_recorded (hreset : ¬ command.Requests .reset)
    (hset : ∀ value, ¬ command.Requests (.setOption keyword value)) (S : Session σ μ) :
    ((execute command).run S).2.configuration.recorded.get? keyword =
      S.configuration.recorded.get? keyword := by
  cases execute_notes command S with
  | same h => rw [h.configuration]
  | option key value hrequest hrecorded =>
    have hkey : key ≠ keyword := fun h => hset value (h ▸ hrequest)
    rw [hrecorded, Table.get?_insert, if_neg (Ne.symm hkey)]
  | info key value _ hconfiguration => rw [hconfiguration]
  | restart hrequest => exact absurd hrequest hreset

theorem execute_info (hreset : ¬ command.Requests .reset)
    (hset : ∀ value, ¬ command.Requests (.setInfo keyword value)) (S : Session σ μ) :
    ((execute command).run S).2.info.get? keyword = S.info.get? keyword := by
  cases execute_notes command S with
  | same h => rw [h.info]
  | option key value _ _ hinfo => rw [hinfo]
  | info key value hrequest _ hinfo =>
    have hkey : key ≠ keyword := fun h => hset value (h ▸ hrequest)
    rw [hinfo, Table.get?_insert, if_neg (Ne.symm hkey)]
  | restart hrequest => exact absurd hrequest hreset

/-- Whether commands neither start the session again nor set an option. -/
def KeepsOption (keyword : String) (commands : List SExpr) : Prop :=
  ∀ command ∈ commands,
    ¬ command.Requests .reset ∧ ∀ value, ¬ command.Requests (.setOption keyword value)

/-- Whether commands neither start the session again nor set an info. -/
def KeepsInfo (keyword : String) (commands : List SExpr) : Prop :=
  ∀ command ∈ commands,
    ¬ command.Requests .reset ∧ ∀ value, ¬ command.Requests (.setInfo keyword value)

theorem KeepsOption.after (h : KeepsOption keyword later) (S : Session σ μ) :
    (Session.after later S).configuration.recorded.get? keyword =
      S.configuration.recorded.get? keyword :=
  after_kept (f := fun S => S.configuration.recorded.get? keyword)
    (fun command hcommand => execute_recorded (h command hcommand).1 (h command hcommand).2) S

theorem KeepsInfo.after (h : KeepsInfo keyword later) (S : Session σ μ) :
    (Session.after later S).info.get? keyword = S.info.get? keyword :=
  after_kept (f := fun S => S.info.get? keyword)
    (fun command hcommand => execute_info (h command hcommand).1 (h command hcommand).2) S

/-! ### Attributes that are set -/

theorem requests_setOption (hcolon : keyword.toList.head? = some ':') (value : SExpr) :
    (SExpr.list [.atom "set-option", .atom keyword, value]).Requests
      (.setOption keyword value.text) := by
  refine .intro rfl ?_
  simp [Command.read, Command.keywordArgument, hcolon]

theorem recorded_of_setOption {output : Option String} {value : SExpr}
    (hcolon : keyword.toList.head? = some ':')
    (hrun : (execute (.list [.atom "set-option", .atom keyword, value])).run S =
      (.ok output, S')) : S'.configuration.recorded.get? keyword = some value.text := by
  have hperform := run_execute_ok (requests_setOption hcolon value) hrun
  rw [perform, run_bind, run_setOption_open (open_of_run hrun), Configuration.run_setOption]
    at hperform
  cases hsteer : Configuration.steer S.configuration.options keyword value.text with
  | ok options =>
    rw [hsteer] at hperform
    obtain ⟨-, rfl⟩ := Prod.mk.inj hperform
    exact (Table.get?_insert _ _ _ _).trans (if_pos rfl)
  | error e =>
    rw [hsteer] at hperform
    cases hperform

theorem info_of_setInfo {output : Option String} {value : String}
    (hrun : (execute (.list [.atom "set-info", .atom keyword, .atom value])).run S =
      (.ok output, S')) : S'.info.get? keyword = some value := by
  have hrequest : (SExpr.list [.atom "set-info", .atom keyword, .atom value]).Requests
      (.setInfo keyword value) := .intro rfl rfl
  have hperform := run_execute_ok hrequest hrun
  rw [perform, run_bind_ok (run_setInfo_open (open_of_run hrun) keyword value), run_pure]
    at hperform
  obtain ⟨-, rfl⟩ := Prod.mk.inj hperform
  exact (Table.get?_insert _ _ _ _).trans (if_pos rfl)

/-! ### Attributes that are printed -/

theorem execute_getOption (hcolon : keyword.toList.head? = some ':') (hopen : S.status ≠ .closed)
    {text : String} (htext : S.configuration.recorded.get? keyword = some text) :
    (execute (.list [.atom "get-option", .atom keyword])).run S = (.ok (some text), S) := by
  have hrequest : (SExpr.list [.atom "get-option", .atom keyword]).Requests
      (.getOption keyword) := by
    refine .intro rfl ?_
    simp [Command.read, Command.keywordArgument, hcolon]
  have hget : (getOption keyword).run S = (.ok text, S) := by
    rw [getOption_recorded hopen, htext]
  rw [run_execute hrequest hopen, perform, run_bind_ok hget, run_pure]

theorem execute_getInfo (hcolon : keyword.toList.head? = some ':') (hopen : S.status ≠ .closed)
    {value : String} (hvalue : S.info.get? keyword = some value) :
    (execute (.list [.atom "get-info", .atom keyword])).run S =
      (.ok (some (attributeText keyword value)), S) := by
  have hrequest : (SExpr.list [.atom "get-info", .atom keyword]).Requests (.getInfo keyword) := by
    refine .intro rfl ?_
    simp [Command.read, Command.keywordArgument, hcolon]
  have hget : (getInfo keyword).run S = (.ok value, S) := by
    rw [getInfo, run_bind_ok (run_requireOpen hopen), run_bind_ok (run_get S), hvalue]
    rfl
  rw [run_execute hrequest hopen, perform, run_bind_ok hget, run_pure]

end Session

/-! ### Attributes that are read back -/

theorem IsKeyword.isWord {keyword : String} (h : IsKeyword keyword) : IsWord keyword.toList := by
  refine ⟨fun hnil => ?_, fun c hc hmem => h.chars c hc ?_⟩
  · have hcolon := h.colon
    simp [hnil] at hcolon
  · have hends : [' ', '\t', '\n', '(', ')', '|', ';', '"'] ⊆
        [' ', '\t', '\n', '\r', '(', ')', '|', ';', '"'] := by decide
    exact hends hmem

theorem IsKeyword.legible {keyword : String} (h : IsKeyword keyword) :
    '\r' ∉ keyword.toList ∧ Legible keyword :=
  ⟨fun hmem => h.chars _ hmem (by decide), .inr (.inl h.isWord)⟩

/-- An atom is read back from the text of an attribute exactly if it is written without bars. -/
theorem readOne_attributeText_iff {keyword value : String} (hkeyword : IsKeyword keyword)
    (hreturn : '\r' ∉ value.toList) (hvalue : Legible value) :
    SExpr.readOne (attributeText keyword value) = .ok (.list [.atom keyword, .atom value]) ↔
      SExpr.atomText value = value := by
  constructor
  · intro hread
    rcases hvalue with hliteral | hword | hquotable
    · exact SExpr.atomText_of_isLiteral hliteral
    · exact SExpr.atomText_of_isWord hword
    · obtain ⟨-, mode, htokens⟩ := SExpr.readOne_eq_ok_iff_read.mp hread
      have hmem {c : Char} (hc : c ∉ ['(', ' ', ')'])
          (h : c ∈ (attributeText keyword value).toList) : c ∈ keyword.toList ∨ c ∈ value.toList := by
        simp_all [attributeText]
      have hreturns : '\r' ∉ (attributeText keyword value).toList := fun h =>
        (hmem (by decide) h).elim hkeyword.legible.1 hreturn
      have hbars : '|' ∉ (attributeText keyword value).toList := fun h =>
        (hmem (by decide) h).elim (fun h => hkeyword.chars _ h (by decide)) hquotable.bar
      rw [SExpr.unifyLineEnds_of_not_mem hreturns] at htokens
      have hstart : Lexer.Mode.between.Unbarred := trivial
      have hunbarred := Lexer.read_unbarred (by simpa using hbars) hstart htokens value
        (by simp [SExpr.tokens, SExpr.tokensAll])
      exact absurd hunbarred (Lexer.not_isUnbarred_of_isQuotable hquotable)
  · intro htext
    have hlist : (SExpr.list [.atom keyword, .atom value]).text = attributeText keyword value := by
      rw [SExpr.text, SExpr.texts, SExpr.texts, SExpr.texts, SExpr.text, SExpr.text, htext,
        SExpr.atomText_of_isWord hkeyword.isWord, ← String.toList_inj]
      simp [attributeText]
    rw [← hlist]
    apply SExpr.readOne_text
    intro a ha
    obtain rfl | rfl : a = keyword ∨ a = value := by
      simpa [SExpr.atoms, SExpr.atomsAll] using ha
    · exact hkeyword.legible
    · exact ⟨hreturn, hvalue⟩

/-- An atom that is read from its text. -/
theorem legible_of_readOne_atomText {a : String}
    (h : SExpr.readOne (SExpr.atomText a) = .ok (.atom a)) : '\r' ∉ a.toList ∧ Legible a :=
  SExpr.legible_of_readOne_text (s := .atom a) h a (List.mem_singleton_self a)

namespace Session

variable {σ μ : Type} [Solver σ μ] {keyword : String}

/-- Attributes of which all atoms are read back from their texts. In every open session after an
option is set, whatever commands come in between that do not set it or start the session again, the
option is printed as its text, which is read back. An info is printed with its atom as it is: it is
read back exactly if the text of the atom has no bars around it. -/
theorem attributes_read_back (hkeyword : IsKeyword keyword) :
    (∀ (S S' : Session σ μ) output (value : SExpr) later,
      (∀ a ∈ value.atoms, SExpr.readOne (SExpr.atomText a) = .ok (.atom a)) →
      (execute (.list [.atom "set-option", .atom keyword, value])).run S = (.ok output, S') →
      KeepsOption keyword later → (after later S').status ≠ .closed →
        (execute (.list [.atom "get-option", .atom keyword])).run (after later S') =
          (.ok (some value.text), after later S') ∧
        SExpr.readOne value.text = .ok value) ∧
    ∀ (S S' : Session σ μ) output (value : String) later,
      SExpr.readOne (SExpr.atomText value) = .ok (.atom value) →
      (execute (.list [.atom "set-info", .atom keyword, .atom value])).run S = (.ok output, S') →
      KeepsInfo keyword later → (after later S').status ≠ .closed →
        (execute (.list [.atom "get-info", .atom keyword])).run (after later S') =
          (.ok (some (attributeText keyword value)), after later S') ∧
        (SExpr.readOne (attributeText keyword value) =
            .ok (.list [.atom keyword, .atom value]) ↔
          SExpr.atomText value = value) := by
  constructor
  · intro S S' output value later hatoms hrun hlater hopen
    have hrecorded := (hlater.after S').trans (recorded_of_setOption hkeyword.colon hrun)
    refine ⟨execute_getOption hkeyword.colon hopen hrecorded, SExpr.readOne_text fun a ha => ?_⟩
    exact legible_of_readOne_atomText (hatoms a ha)
  · intro S S' output value later hvalue hrun hlater hopen
    have hinfo := (hlater.after S').trans (info_of_setInfo hrun)
    obtain ⟨hreturn, hlegible⟩ := legible_of_readOne_atomText hvalue
    exact ⟨execute_getInfo hkeyword.colon hopen hinfo,
      readOne_attributeText_iff hkeyword hreturn hlegible⟩

/-- An option and an info of several words, after another option is set. -/
theorem attributes_read_back_words :
    let words : SExpr := .list [.atom "a (b", .atom "\"c\""]
    let new : Session Scripted ScriptedModel := start (.ofSolver "z3")
    let later : List SExpr := [.list [.atom "set-option", .atom ":random-seed", .atom "x"]]
    IsKeyword ":source" ∧
      (∃ output S, (execute (.list [.atom "set-option", .atom ":source", words])).run new =
          (.ok output, S) ∧
        (execute (.list [.atom "get-option", .atom ":source"])).run (after later S) =
          (.ok (some "(|a (b| \"c\")"), after later S) ∧
        SExpr.readOne "(|a (b| \"c\")" = .ok words) ∧
      ∃ output S, (execute (.list [.atom "set-info", .atom ":source", .atom "a (b"])).run new =
          (.ok output, S) ∧
        (execute (.list [.atom "get-info", .atom ":source"])).run (after later S) =
          (.ok (some "(:source a (b)"), after later S) ∧
        SExpr.readOne "(:source a (b)" ≠ .ok (.list [.atom ":source", .atom "a (b"]) := by
  intro words new later
  have hkeyword : IsKeyword ":source" := ⟨by decide, by simp⟩
  have hrequest : (SExpr.list [.atom "set-option", .atom ":random-seed", .atom "x"]).Requests
      (.setOption ":random-seed" "x") := .intro rfl rfl
  have hoptions : KeepsOption ":source" later := by
    intro command hcommand
    obtain rfl := List.mem_singleton.mp hcommand
    exact ⟨(fun h => nomatch hrequest.unique h), fun value h => by simpa using hrequest.unique h⟩
  have hinfos : KeepsInfo ":source" later := by
    intro command hcommand
    obtain rfl := List.mem_singleton.mp hcommand
    exact ⟨(fun h => nomatch hrequest.unique h), fun value h => nomatch hrequest.unique h⟩
  have hquotable : IsQuotable "a (b".toList :=
    ⟨.inr ⟨' ', by decide, by decide⟩, by decide, by decide, by decide, by decide, by decide⟩
  have hliteral : IsLiteral "\"c\"".toList := ⟨['c'], .char (by decide) .nil, by decide⟩
  have hatoms : ∀ a ∈ words.atoms, SExpr.readOne (SExpr.atomText a) = .ok (.atom a) := by
    intro a ha
    apply SExpr.readOne_text (s := .atom a)
    intro b hb
    obtain rfl := List.mem_singleton.mp hb
    obtain rfl | rfl : b = "a (b" ∨ b = "\"c\"" := by
      simpa [words, SExpr.atoms, SExpr.atomsAll] using ha
    · exact ⟨by decide, .inr (.inr hquotable)⟩
    · exact ⟨by decide, .inl hliteral⟩
  have htext : words.text = "(|a (b| \"c\")" := by decide +kernel
  have hinfo : attributeText ":source" "a (b" = "(:source a (b)" := by decide +kernel
  have hbars : SExpr.atomText "a (b" ≠ "a (b" := by decide +kernel
  obtain ⟨hoption, hnotes⟩ := @attributes_read_back Scripted ScriptedModel _ _ hkeyword
  have hset : (execute (.list [.atom "set-option", .atom ":source", words])).run new =
      (.ok none, _) := rfl
  have hnote : (execute (.list [.atom "set-info", .atom ":source", .atom "a (b"])).run new =
      (.ok none, _) := rfl
  obtain ⟨hget, hread⟩ := hoption _ _ _ words later hatoms hset hoptions nofun
  obtain ⟨hget', hread'⟩ := hnotes _ _ _ "a (b" later (hatoms _ (by decide)) hnote hinfos nofun
  rw [htext] at hget hread
  rw [hinfo] at hget' hread'
  exact ⟨hkeyword, ⟨_, _, hset, hget, hread⟩, _, _, hnote, hget', fun h => hbars (hread'.mp h)⟩

end Session

end SmtScript
