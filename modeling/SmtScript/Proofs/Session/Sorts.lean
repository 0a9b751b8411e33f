import Mathlib
import SmtScript.Proofs.Engine
import SmtScript.Proofs.Session.Application
import SmtScript.Proofs.Session.Brackets
import SmtScript.Proofs.Term.HasSort

/-!
Sorts in a session.

Whatever a run of commands leads to is well-sorted, `Session.sorts_after`: each term that is read
has a sort, and so has every term that occurs in it; each name stands for a symbol or a body of the
sort that a command of the run has declared for it; integer parts are Int symbols for Real terms;
and what is asserted is Boolean, if the solver takes no other formulas.
-/

namespace SmtScript

open Solver Step TermState Translation

/-- The term that a name stands for, or the body of the definition that it stands for. -/
def Binding.body : Binding → Term
  | .term t => t
  | .definition d => d.body

theorem Binding.Sound.wellSorted {allowed : Symbol → Prop} {binding : Binding}
    (h : binding.Sound allowed) : binding.body.WellSorted := by
  cases binding with
  | term t => exact Term.Sound.wellSorted h
  | definition d => exact Term.Sound.wellSorted h

namespace Session

variable {σ μ : Type} {S S' S₁ : Session σ μ} {name : String} {command : Command}
  {binding : Binding}

/-! ### What commands bind names to -/

/-- What a command binds a name to: a symbol of the declared sort, or a body of the declared sort
with parameters of the declared sorts. -/
inductive Declares (S : Session σ μ) (name : String) : Command → Binding → Prop where
  | symbol {domains : List SExpr} {codomain : SExpr} {sorts : List SmtSort} {sort : SmtSort}
      {s : Symbol} (hdomains : domains.mapM S.sorts.parse = .ok sorts)
      (hcodomain : S.sorts.parse codomain = .ok sort) (hs : s.sort = .function sorts sort) :
      Declares S name (.declareFun name domains codomain) (.term (.symbol s))
  | constant {codomain body : SExpr} {sort : SmtSort} {t : Term}
      (hcodomain : S.sorts.parse codomain = .ok sort) (ht : t.HasSort sort) :
      Declares S name (.defineFun name [] codomain body) (.term t)
  | definition {parameters : List SExpr} {codomain body : SExpr} {sort : SmtSort}
      {declared : List (String × Symbol)} {t : Term} (hnonempty : parameters ≠ [])
      (hparameters : ReadsParameters S.sorts parameters declared)
      (hcodomain : S.sorts.parse codomain = .ok sort) (ht : t.HasSort sort) :
      Declares S name (.defineFun name parameters codomain body)
        (.definition ⟨declared.map Prod.snd, t⟩)

/-- Whether names stand for what they stood for before a command, or for what it binds them to. -/
def BoundBy (command : Command) (S S' : Session σ μ) : Prop :=
  ∀ name binding, S'.names.get? name = some binding →
    S.names.get? name = some binding ∨ Declares S name command binding

theorem boundBy_of_names (h : ∀ name, S'.names.get? name = S.names.get? name) :
    BoundBy command S S' :=
  fun name _ hfind => .inl (h name ▸ hfind)

theorem boundBy_same (h : S'.names = S.names) : BoundBy command S S' :=
  boundBy_of_names fun _ => by rw [h]

/-- A command binds a name as its last step. -/
theorem boundBy_bind (h : S₁.names = S.names) (hdeclares : Declares S name command binding) :
    BoundBy command S { S₁ with names := S₁.names.insert name binding } := by
  intro other binding' hfind
  rw [Table.get?_insert] at hfind
  split at hfind
  · rename_i hother
    obtain rfl := Option.some.inj hfind
    obtain rfl := hother
    exact .inr hdeclares
  · exact .inl (h ▸ hfind)

theorem newSymbol_sort (name : String) (sort : SmtSort) (S : Session σ μ) :
    Leads (fun S S' => S'.names = S.names) (newSymbol name sort) S fun _ s => s.sort = sort := by
  refine .get ?_
  dsimp only
  split
  · exact .of_run rfl rfl fun s hs => Except.ok.inj hs ▸ SymbolTable.sort_fresh _ _ _
  · split
    · exact .of_run (run_throw _ S) rfl nofun
    · exact .of_run rfl rfl fun s hs => Except.ok.inj hs ▸ rfl

theorem declareFun_binds (name : String) (domains : List SExpr) (codomain : SExpr)
    (S : Session σ μ) :
    Leads (BoundBy (.declareFun name domains codomain)) (declareFun name domains codomain) S
      fun _ _ => True := by
  have hrefl : BoundBy (.declareFun name domains codomain) S S := boundBy_same rfl
  refine .bind_same hrefl (requireOpen_leads closed_eq S) fun _ _ => ?_
  refine .get ?_
  refine .bind_same hrefl (ofExcept_leads _ S) fun sorts hdomains => ?_
  refine .bind_same hrefl (ofExcept_leads _ S) fun sort hcodomain => ?_
  refine (newSymbol_sort name _ S).bind_into (fun _ => boundBy_same) fun s S₁ h₁ hs => ?_
  refine .bind_of_run (run_modify _ _) ?_
  exact .of_run (run_pure _ _) (boundBy_bind h₁ (.symbol hdomains hcodomain hs))
    fun _ _ => trivial

theorem defineFun_binds (hS : S.Sound) (name : String) (parameters : List SExpr)
    (codomain body : SExpr) :
    Leads (BoundBy (.defineFun name parameters codomain body))
      (defineFun name parameters codomain body) S fun _ _ => True := by
  have hrefl : BoundBy (.defineFun name parameters codomain body) S S := boundBy_same rfl
  refine .bind_same hrefl (requireOpen_leads closed_eq S) fun _ _ => ?_
  refine .get ?_
  refine .bind_same hrefl (ofExcept_leads _ S) fun sort hsort => ?_
  refine (declareParameters_opens (c := []) kept_sound name parameters
    (show S.terms.Sound ∧ Names.Sound S.environment S.terms.Knows from ⟨hS.terms, hS.names⟩)
    trivial).bind_into
    (fun _ h => boundBy_same (by rw [h.rest])) fun declared S₁ h₁ hdeclared => ?_
  obtain ⟨-, hopened, hread⟩ := hdeclared
  have hnames₁ : S₁.names = S.names := by rw [h₁.rest]
  have henv : S₁.environment = S.environment := by rw [environment, environment, h₁.rest]
  have hscope := kept_sound.extend (c := []) hopened.inv hopened.bindings
  refine .get ?_
  rw [henv]
  refine (onTerms_leads (translate_evolves S₁.sorts body hscope.1 hscope.2)).bind_into
    (fun _ h => boundBy_same (by rw [h.rest, hnames₁])) fun t S₂ h₂ ht => ?_
  have hnames₂ : S₂.names = S.names := by rw [h₂.rest, hnames₁]
  refine .bind_same (boundBy_same hnames₂) (ofExcept_leads _ S₂) fun u hfit => ?_
  have husort : u.HasSort sort := by
    have husound := keeps_fitBody (Term.hereditary_sound S₂.terms.Knows) hfit ht
    exact sort_of_fitBody hfit ht.wellSorted ▸ husound.wellSorted.hasSort
  split
  · rename_i hempty
    obtain rfl := List.isEmpty_iff.mp hempty
    cases hread with
    | nil => exact .modify (boundBy_bind hnames₂ (.constant hsort husort)) trivial
  · rename_i hdeclared
    have hnonempty : parameters ≠ [] := by
      rintro rfl
      cases hread
      exact hdeclared rfl
    exact .modify (boundBy_bind hnames₂ (.definition hnonempty hread hsort husort)) trivial

variable [Solver σ μ]

section

variable [GrowingSolver σ μ]

/-- After a command names stand for what they stood for, or for what the command binds them to. -/
theorem perform_binds (hS : S.Sound) (command : Command) :
    BoundBy command S ((perform command).run S).2 := by
  have hleads {α : Type} {x : SessionStep σ μ α} {f : α → Option String}
      {R : Session σ μ → Session σ μ → Prop} (h : Leads R x S fun _ _ => True) :
      R S ((do return f (← x) : SessionStep σ μ (Option String)).run S).2 :=
    (leads_result (P := fun _ => True) h _ _ rfl).1
  cases command with
  | declareFun name domains codomain => exact hleads (declareFun_binds name domains codomain S)
  | defineFun name parameters codomain body =>
    exact hleads (defineFun_binds hS name parameters codomain body)
  | assertTerm sexpr =>
    have hretains : Retains (fun _ => False) S ((perform (.assertTerm sexpr)).run S).2 :=
      Flat.retains (perform_turns hS (.assertTerm sexpr) _ _ rfl).1
    exact boundBy_of_names fun name => hretains.names name id
  | reset =>
    rcases run_perform_reset S with ⟨e, he⟩ | ⟨_, _, hok⟩
    · rw [he]
      exact boundBy_same rfl
    · rw [hok]
      intro name binding hfind
      simp [start, Table.empty, Table.get?] at hfind
  | _ => exact boundBy_of_names (perform_sheds hS rfl).names

theorem execute_binds (hS : S.Sound) (sexpr : SExpr)
    (hfind : ((execute sexpr).run S).2.names.get? name = some binding) :
    S.names.get? name = some binding ∨
      ∃ command, sexpr.Requests command ∧ Declares S name command binding := by
  rcases run_execute_cases sexpr S with ⟨e, he⟩ | ⟨command, hrequests, h⟩
  · rw [he] at hfind
    exact .inl hfind
  · rw [h] at hfind
    exact (perform_binds hS command name binding hfind).imp_right fun hdeclares =>
      ⟨command, hrequests, hdeclares⟩

/-- Whether some command of a run has bound a name to what it has stood for since then. -/
def BoundIn (commands : List SExpr) (S : Session σ μ) (name : String) (binding : Binding) : Prop :=
  ∃ before sexpr later command, commands = before ++ sexpr :: later ∧ sexpr.Requests command ∧
    Declares (after before S) name command binding ∧
    ∀ k ≤ later.length,
      (after (before ++ sexpr :: later.take k) S).names.get? name = some binding

/-- A name that stands for something after a run was bound to it in the run. -/
theorem boundIn_after (hS : S.Sound) (hstart : S.names.get? name = none) {commands : List SExpr}
    (hfind : (after commands S).names.get? name = some binding) :
    BoundIn commands S name binding := by
  induction commands using List.reverseRecOn with
  | nil => cases hstart.symm.trans hfind
  | append_singleton commands sexpr ih =>
    have hlast := hfind
    rw [after_concat] at hfind
    rcases execute_binds (sound_after hS commands) sexpr hfind with hold | ⟨command, hrequests, h⟩
    · obtain ⟨before, sexpr', later, command, rfl, hrequests, h, hsince⟩ := ih hold
      refine ⟨before, sexpr', later ++ [sexpr], command, by simp, hrequests, h, fun k hk => ?_⟩
      rcases Nat.le_or_eq_of_le_succ (by simpa using hk) with hk | rfl
      · rw [List.take_append_of_le_length hk]
        exact hsince k hk
      · rw [List.take_of_length_le (by simp)]
        simpa using hlast
    · refine ⟨commands, sexpr, [], command, rfl, hrequests, h, fun k _ => ?_⟩
      simpa using hlast

end

/-! ### What is asserted -/

theorem Move.asserted (h : Move S S') {t : Term} (ht : t ∈ S'.assertions.items) :
    t ∈ S.assertions.items ∨ ∃ S₁, Called (Solver.add t) S (.ok ()) S₁ := by
  cases h with
  | note | translate | bind | activate => exact .inl ht
  | drop => exact .inl (by simpa using ht)
  | refuse _ hcall => exact .inl (hcall.assertions ▸ ht)
  | define _ _ hcall => exact .inl (hcall.assertions ▸ ht)
  | assert _ _ hcall =>
    simp only [dropped_assertions, Levels.items_add, List.mem_append, List.mem_singleton] at ht
    rcases ht with hold | rfl
    · exact .inl (hcall.assertions ▸ hold)
    · exact .inr ⟨_, hcall⟩
  | push _ hcall => exact .inl (by rwa [Levels.items_pushMany, hcall.assertions] at ht)
  | pop _ _ hcall =>
    rw [hcall.assertions] at ht
    exact .inl ((Levels.items_popMany_sublist _ _).subset ht)
  | clear => simp at ht
  | check _ _ hcall => exact .inl (hcall.assertions ▸ ht)
  | keep _ _ hcall => exact .inl (hcall.assertions ▸ ht)
  | core _ hcall => exact .inl (hcall.assertions ▸ ht)
  | ask => exact .inl ht
  | restart => simp [start] at ht
  | exit => exact .inl (by simpa using ht)

/-- What a solver that takes nothing but Booleans has taken. -/
theorem Reachable.asserted_bool [StrictSolver σ μ] (h : S.Reachable) :
    ∀ t ∈ S.assertions.items, t.sort = .bool := by
  refine Reachable.induction (P := fun S => ∀ t ∈ S.assertions.items, t.sort = .bool) h
    (fun configuration => by simp [start]) fun S S' _ hmove ih t ht => ?_
  rcases hmove.asserted ht with hold | ⟨_, hcalled⟩
  · exact ih t hold
  · obtain ⟨_, _, _, -, -, hrun⟩ := hcalled.run
    exact StrictSolver.add hrun

/-! ### Whatever a run leads to -/

variable [StrictSolver σ μ]

/-- After any commands, whether they have failed or not, every term that can be read has a sort, as
have all terms that occur in it. So it is for what names stand for, and what they stand for has the
sort that a command has declared. Integer parts are Int symbols that stand for Real terms, and
assertions are Boolean. -/
theorem sorts_after (configuration : Configuration) (commands : List SExpr) :
    let S : Session σ μ := after commands (start configuration)
    (∀ sexpr t S', (parseTerm sexpr).run S = (.ok t, S') → t.Sorted) ∧
    (∀ name binding, S.names.get? name = some binding → binding.body.Sorted ∧
      BoundIn commands (start configuration : Session σ μ) name binding) ∧
    (∀ p ∈ S.terms.integerParts, (Term.symbol p.1).HasSort .int ∧ p.2.HasSort .real) ∧
    ∀ t ∈ S.assertions.items, t.HasSort .bool := by
  intro S
  have hreachable : S.Reachable := ⟨configuration, commands, rfl⟩
  have hS : S.Sound := hreachable.sound
  refine ⟨fun sexpr t S' hrun => ?_, fun name binding hfind => ⟨?_, ?_⟩, fun p hp => ⟨?_, ?_⟩,
    fun t ht => ?_⟩
  · exact ((parseTerm_reads hS sexpr _ _ hrun).2 t rfl).wellSorted.sorted
  · exact (hS.names name binding hfind).wellSorted.sorted
  · exact boundIn_after (sound_start configuration) (by simp [start, Table.empty, Table.get?]) hfind
  · exact hS.terms.sort_symbol p hp ▸ .symbol p.1
  · exact hS.terms.sort_operand p hp ▸ (hS.terms.operand p hp).wellSorted.hasSort
  · exact hreachable.asserted_bool t ht ▸ (hS.assertions t ht).wellSorted.hasSort

/-- So it is after a definition and an assertion with an integer part, with the solver of this
library. -/
theorem sorts_after_to_int : ∃ (commands : List SExpr) (S : Session Engine Engine.Model),
    commands = [.list [.atom "set-logic", .atom "ALL"],
      .list [.atom "declare-const", .atom "x", .atom "Real"],
      .list [.atom "define-fun", .atom "f", .list [.list [.atom "a", .atom "Int"]], .atom "Real",
        .atom "a"],
      .list [.atom "assert",
        .list [.atom "<", .list [.atom "f", .list [.atom "to_int", .atom "x"]], .atom "x"]]] ∧
    after commands (start (.ofSolver "z3")) = S ∧
    (∃ t S', (parseTerm (.list [.atom "f", .atom "2"])).run S = (.ok t, S') ∧ t.Sorted) ∧
    (∃ binding, S.names.get? "f" = some binding ∧ binding.body.Sorted ∧
      BoundIn commands (start (.ofSolver "z3") : Session Engine Engine.Model) "f" binding) ∧
    (∃ p ∈ S.terms.integerParts, (Term.symbol p.1).HasSort .int ∧ p.2.HasSort .real) ∧
    ∃ t ∈ S.assertions.items, t.HasSort .bool := by
  refine ⟨_, _, rfl, rfl, ?_⟩
  obtain ⟨hterms, hnames, hparts, hassertions⟩ := sorts_after (σ := Engine) (.ofSolver "z3") _
  generalize hS : (after _ (start (.ofSolver "z3")) : Session Engine Engine.Model) = S at *
  have hfacts : (S.terms.integerParts.length, S.assertions.items.length,
      (S.names.get? "f").isSome,
      ((parseTerm (.list [.atom "f", .atom "2"])).run S : Except Error Term × _).1.toBool) =
      (1, 1, true, true) := by
    subst hS
    cbv
    rw [Term.symbols_eq]
    cbv
  simp only [Prod.mk.injEq] at hfacts
  obtain ⟨hpart, hassertion, hbound, hread⟩ := hfacts
  obtain ⟨p, hp⟩ := List.length_eq_one_iff.mp hpart
  obtain ⟨t, ht⟩ := List.length_eq_one_iff.mp hassertion
  obtain ⟨binding, hbinding⟩ := Option.isSome_iff_exists.mp hbound
  refine ⟨?_, ⟨binding, hbinding, hnames "f" binding hbinding⟩,
    ⟨p, by simp [hp], hparts p (by simp [hp])⟩, t, by simp [ht], hassertions t (by simp [ht])⟩
  obtain ⟨⟨result, S'⟩, hrun⟩ : ∃ q : Except Error Term × Session Engine Engine.Model,
    (parseTerm (.list [.atom "f", .atom "2"])).run S = q := ⟨_, rfl⟩
  cases result with
  | error e => simp [hrun, Except.toBool] at hread
  | ok u => exact ⟨u, S', hrun, hterms _ u S' hrun⟩

end Session

end SmtScript
