import SmtScript.Proofs.Session.Brackets
import SmtScript.Proofs.Session.Tidy
import SmtScript.Proofs.Translate.Written

/-!
Sessions that hold written terms.

`Session.Written` says that what names stand for and what is asserted can be written with the
sorts of a session. Every command keeps it so as long as no substitution is left unfinished, and
terms that are read then can be written too, `Session.Tidy.written` and `Session.parseTerm_written`.
-/

namespace SmtScript

open Solver Step Translation TermState

namespace Session

variable {σ μ : Type} {S S' : Session σ μ} {D : List Symbol}

/-- Whether all that a session holds can be written with its sorts. -/
structure Written (S : Session σ μ) : Prop where
  names : Names.Written S.environment S.sorts.Writes
  assertions : ∀ t ∈ S.assertions.items, t.Written S.sorts.Writes

theorem written_start (configuration : Configuration) :
    (start configuration : Session σ μ).Written where
  names := by simp [Names.Written, find?_environment, start, Table.empty, Table.get?]
  assertions := by simp [start]

/-- All stays written when sorts, written bindings and written assertions are added. -/
theorem Written.grow (h : S.Written) (hsorts : S.sorts.declared ⊆ S'.sorts.declared)
    (hnames : ∀ name binding, S'.names.get? name = some binding →
      S.names.get? name = some binding ∨ binding.Written S'.sorts.Writes)
    (hassertions : ∀ t ∈ S'.assertions.items,
      t ∈ S.assertions.items ∨ t.Written S'.sorts.Writes) : S'.Written := by
  have hmono (sort : SmtSort) (hsort : S.sorts.Writes sort) : S'.sorts.Writes sort :=
    hsort.mono hsorts
  refine ⟨fun name binding hfind => ?_, fun t ht => ?_⟩
  · rcases hnames name binding hfind with hold | hnew
    · exact (h.names name binding hold).mono hmono
    · exact hnew
  · rcases hassertions t ht with hold | hnew
    · exact (h.assertions t hold).mono hmono
    · exact hnew

theorem Written.of_onTerms {R : TermState → TermState → Prop} (h : S.Written)
    (hterms : OnTerms R S S') : S'.Written := by
  rw [hterms.rest]
  exact ⟨h.names, h.assertions⟩

/-- A name is bound to what can be written. -/
theorem Written.bind (h : S.Written) (name : String) {binding : Binding}
    (hbinding : binding.Written S.sorts.Writes) :
    ({ S with names := S.names.insert name binding } : Session σ μ).Written := by
  refine h.grow (List.Subset.refl _) (fun other binding' hfind => ?_) fun _ => .inl
  rw [Table.get?_insert] at hfind
  split at hfind
  · exact .inr (Option.some.inj hfind ▸ hbinding)
  · exact .inl hfind

/-! ### Terms that are read -/

/-- What the translation of the terms of a session keeps. -/
theorem kept_written_sorts (S : Session σ μ) :
    Kept S.sorts.Writes Grows (fun T => T.leftover = none)
      (fun _ names _ => names.Written S.sorts.Writes) fun _ _ t => t.Written S.sorts.Writes :=
  kept_written .bitVec

theorem parseTerm_written (hS : S.Written) (hclean : S.terms.leftover = none) (sexpr : SExpr) :
    Leads (OnTerms Grows) (parseTerm sexpr) S fun S' t =>
      S'.terms.leftover = none ∧ t.Written S.sorts.Writes :=
  .get (onTerms_leads (((kept_written_sorts S).carries_all S.sorts
    fun _ _ _ => SortTable.writes_index).1 S.environment sexpr [] S.terms hS.names hclean))

theorem defineFun_written (hS : S.Written) (hclean : S.terms.leftover = none) (name : String)
    (parameters : List SExpr) (codomain body : SExpr) :
    Leads (fun _ S' => S'.Written) (defineFun name parameters codomain body) S
      fun _ _ => True := by
  have hkept := kept_written_sorts S
  refine .bind_same hS (requireOpen_leads closed_eq S) fun _ _ => ?_
  refine .get ?_
  refine .bind_same hS (ofExcept_leads _ S) fun sort _ => ?_
  refine (declareParameters_opens (c := []) hkept name parameters hS.names hclean).bind_into
    (fun _ h => hS.of_onTerms h) fun declared S₁ h₁ hdeclared => ?_
  obtain ⟨hclean₁, hopened, -⟩ := hdeclared
  have hS₁ := hS.of_onTerms h₁
  have henv : S₁.environment = S.environment := by rw [environment, environment, h₁.rest]
  have hsorts : S₁.sorts = S.sorts := by rw [h₁.rest]
  refine .get ?_
  have hscope := hkept.extend (c := []) (T := S₁.terms) hopened.inv hopened.bindings
  rw [← henv] at hscope
  rw [hsorts]
  refine (onTerms_leads ((hkept.carries_all S.sorts fun _ _ _ => SortTable.writes_index).1 _ body []
    S₁.terms hscope hclean₁)).bind_into (fun _ h => hS₁.of_onTerms h) fun t S₂ h₂ ht => ?_
  have hS₂ := hS₁.of_onTerms h₂
  have hsorts₂ : S₂.sorts = S.sorts := by rw [h₂.rest, hsorts]
  refine .bind_same hS₂ (ofExcept_leads _ S₂) fun u hfit => ?_
  have hu : u.Written S₂.sorts.Writes :=
    hsorts₂ ▸ keeps_fitBody (hkept.hereditary [] S₂.terms) hfit ht.2
  split
  · exact .modify (hS₂.bind name hu) trivial
  · exact .modify (hS₂.bind name hu) trivial

variable [Solver σ μ] [GrowingSolver σ μ]

/-- What is asserted newly is what has been read. -/
theorem assertTerm_asserted (hS : S.Sound) (sexpr : SExpr) :
    Leads (fun S S' => ∀ t ∈ S'.assertions.items,
        t ∈ S.assertions.items ∨ ∃ S₁, (parseTerm sexpr).run S = (.ok t, S₁))
      (assertTerm sexpr) S fun _ _ => True := by
  refine .bind_same (fun _ => .inl) (requireActive_leads closed_eq S) fun _ _ => ?_
  refine (parseTerm_reads hS sexpr).ran.bind_into (fun S₁ h t ht => .inl ?_) fun t S₁ h₁ hread => ?_
  · rw [h.rest] at ht
    exact ht
  have hassertions₁ : S₁.assertions = S.assertions := by rw [h₁.rest]
  refine .get ?_
  refine (defineUndefined_defining (h₁.sound hS) [t]).bind_into (fun S₂ h u hu => .inl ?_)
    fun _ S₂ h₂ _ => ?_
  · rwa [h.assertions, hassertions₁] at hu
  have hassertions₂ : S₂.assertions = S.assertions := h₂.assertions.trans hassertions₁
  refine leads_call_change (R := fun _ S' => ∀ u ∈ S'.assertions.items,
      u ∈ S.assertions.items ∨ ∃ S₁, (parseTerm sexpr).run S = (.ok u, S₁))
    (fun u hu => .inl (hassertions₂ ▸ hu)) (fun e S₃ hcalled u hu => .inl ?_) fun S₃ hcalled => ?_
  · rwa [hcalled.assertions, hassertions₂] at hu
  refine .bind_of_run (run_modify _ _) (.bind_of_run (run_dropModel _) ?_)
  refine .of_run (run_pure _ _) (fun u hu => ?_) fun _ _ => trivial
  rw [dropped_assertions, Levels.items_add, List.mem_append, List.mem_singleton] at hu
  rcases hu with hold | rfl
  · left
    rwa [mapContext_assertions, hcalled.assertions, hassertions₂] at hold
  · exact .inr ⟨S₁, hread.1⟩

/-- Every command keeps a session written that has left no substitution unfinished. -/
theorem perform_written (hS : S.Written) (hsound : S.Sound) (hclean : S.terms.leftover = none)
    (command : Command) : ((perform command).run S).2.Written := by
  cases hadds : command.adds with
  | false =>
    have h := perform_sheds hsound hadds
    exact hS.grow h.sorts (fun name _ hfind => .inl (h.names name ▸ hfind))
      fun t ht => .inl (h.assertions ht)
  | true =>
    cases command with
    | declareFun name domains codomain =>
      rcases run_perform_declareFun S name domains codomain with ⟨e, he⟩ | ⟨s, table, _, _, hok⟩
      · rw [he]
        exact hS
      · rw [hok]
        have hterms : ({ S with terms := { S.terms with table } } : Session σ μ).Written :=
          ⟨hS.names, hS.assertions⟩
        exact hterms.bind name (Term.written_symbol s)
    | defineFun name parameters codomain body =>
      exact (leads_result (P := fun _ => True)
        (defineFun_written hS hclean name parameters codomain body) _ _ rfl).1
    | assertTerm sexpr =>
      have hretains : Retains (fun _ => False) S ((perform (.assertTerm sexpr)).run S).2 :=
        Flat.retains (perform_turns hsound (.assertTerm sexpr) _ _ rfl).1
      have hasserted : ∀ t ∈ ((perform (.assertTerm sexpr)).run S).2.assertions.items,
          t ∈ S.assertions.items ∨ ∃ S₁, (parseTerm sexpr).run S = (.ok t, S₁) :=
        (leads_result (P := fun _ => True) (assertTerm_asserted hsound sexpr) _ _ rfl).1
      refine hS.grow hretains.sorts.subset (fun name binding hfind => .inl ?_) fun t ht => ?_
      · exact hretains.names name id ▸ hfind
      · refine (hasserted t ht).imp_right fun ⟨S₁, hread⟩ => ?_
        have ht := ((parseTerm_written hS hclean sexpr _ _ hread).2 t rfl).2
        exact ht.mono fun sort hsort => hsort.mono hretains.sorts.subset
    | reset =>
      rcases run_perform_reset S with ⟨e, he⟩ | ⟨contexts, models, hok⟩
      · rw [he]
        exact hS
      · rw [hok]
        have h := written_start (σ := σ) (μ := μ) S.initial
        exact ⟨h.names, h.assertions⟩
    | _ => cases hadds

/-- What a tidy session holds can be written with its sorts. -/
theorem Tidy.written (h : Tidy D S) : S.Written := by
  have hexecute {S S' : Session σ μ} {sexpr : SExpr} {result : Except Error (Option String)}
      (hS : S.Written) (hsound : S.Sound) (hclean : S.terms.leftover = none)
      (hrun : (Session.execute sexpr).run S = (result, S')) : S'.Written := by
    rcases run_execute_cases sexpr S with ⟨e, he⟩ | ⟨command, _, hperform⟩
    · obtain ⟨_, rfl⟩ := Prod.mk.inj (he.symm.trans hrun)
      exact hS
    · have hwritten := perform_written hS hsound hclean command
      rwa [← hperform, hrun] at hwritten
  induction h with
  | fresh h =>
    obtain ⟨initial, _, _, rfl⟩ := h.eq_start
    have h := written_start (σ := σ) (μ := μ) initial
    exact ⟨h.names, h.assertions⟩
  | declare h _ hrun _ ih => exact hexecute ih h.reachable.sound h.clean hrun
  | keep h hrun _ _ ih => exact hexecute ih h.reachable.sound h.clean hrun

end Session

end SmtScript
