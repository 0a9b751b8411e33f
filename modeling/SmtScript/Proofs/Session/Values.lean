import SmtScript.Proofs.Session.Run

/-!
What a model says of the names of a session.

The model of a session is one that its solver has given, as the questions asked so far have left it,
`Session.Reachable.orderly`. Questions that are answered change nothing of what it says of symbols,
so that the entries of a listing are values that the model had before the first of them was asked
for, `Session.getModel_entries`.
-/

namespace SmtScript

namespace Table

variable {α : Type} {table : Table α}

theorem nodup_keys_insert (h : table.keys.Nodup) (key : String) (value : α) :
    (table.insert key value).keys.Nodup := by
  rw [keys_insert]
  split
  · exact h
  · rename_i hnew
    refine List.nodup_append.mpr ⟨h, List.nodup_singleton key, fun k hk k' hk' heq => hnew ?_⟩
    rw [← List.mem_singleton.mp hk', ← heq]
    exact hk

end Table

namespace Session

open Solver Step

variable {σ μ α : Type} [Solver σ μ] {S S' S'' : Session σ μ}

/-! ### Reachable sessions -/

/-- Whether each name is listed once, and the model comes from the solver. -/
structure Orderly (S : Session σ μ) : Prop where
  names : S.names.keys.Nodup
  model : ∀ lease m, S.model = some (lease, m) → Arises σ m

theorem Orderly.frame (h : S.Orderly) (hnames : S'.names = S.names)
    (hmodel : S'.model = none ∨ S'.model = S.model) : S'.Orderly := by
  refine ⟨hnames ▸ h.names, fun lease m hm => ?_⟩
  rcases hmodel with hnone | hsame
  · rw [hnone] at hm
    cases hm
  · exact h.model lease m (hsame ▸ hm)

theorem orderly_start (configuration : Configuration) :
    (start configuration : Session σ μ).Orderly :=
  ⟨List.nodup_nil, nofun⟩

theorem Move.orderly (h : Move S S') (hS : S.Orderly) : S'.Orderly := by
  cases h with
  | note configuration sorts info => exact ⟨hS.names, hS.model⟩
  | translate hterms => exact ⟨hS.names, hS.model⟩
  | bind name hbinding => exact ⟨Table.nodup_keys_insert hS.names name _, hS.model⟩
  | activate logic => exact ⟨hS.names, hS.model⟩
  | drop => exact hS.frame (by simp) (.inl (by simp))
  | refuse _ hcalled => exact hS.frame hcalled.names (.inr hcalled.model)
  | define _ _ hcalled => exact hS.frame hcalled.names (.inr hcalled.model)
  | assert _ _ hcalled => exact hS.frame (by simpa using hcalled.names) (.inl (by simp))
  | push _ hcalled => exact hS.frame hcalled.names (.inr hcalled.model)
  | pop _ _ hcalled => exact hS.frame hcalled.names (.inr hcalled.model)
  | clear _ hcalled => exact hS.frame hcalled.names (.inr hcalled.model)
  | check _ _ hcalled => exact hS.frame hcalled.names (.inr hcalled.model)
  | keep _ _ hcalled =>
    refine ⟨hcalled.names ▸ hS.names, fun lease m hm => ?_⟩
    obtain ⟨_, rfl⟩ := Prod.mk.inj (Option.some.inj hm)
    obtain ⟨_, _, _, _, _, hrun⟩ := hcalled.run
    exact .given hrun
  | core _ hcalled => exact hS.frame hcalled.names (.inr hcalled.model)
  | ask hanswers hmodel hrun =>
    refine ⟨hS.names, fun lease m hm => ?_⟩
    obtain ⟨_, rfl⟩ := Prod.mk.inj (Option.some.inj hm)
    exact .asked (hS.model _ _ hmodel) hanswers hrun
  | restart _ => exact ⟨List.nodup_nil, nofun⟩
  | exit _ => exact hS.frame (by simp) (.inl (by simp))

theorem Moves.orderly (h : Moves S S') (hS : S.Orderly) : S'.Orderly := by
  induction h with
  | refl => exact hS
  | tail _ hmove ih => exact hmove.orderly ih

theorem Reachable.orderly [GrowingSolver σ μ] (h : S.Reachable) : S.Orderly :=
  h.induction orderly_start fun _ _ _ hmove hS => hmove.orderly hS

/-! ### The model of a session -/

/-- Whether there is a model that comes from the solver. -/
def Arisen (S : Session σ μ) : Prop := ∃ lease m, S.model = some (lease, m) ∧ Arises σ m

/-- Whether the model, when it is asked for a term, answers with a value. -/
def Gives (S : Session σ μ) (t v : Term) : Prop :=
  ∃ lease m m' table', S.model = some (lease, m) ∧
    (Solver.evaluate σ t).run (m, S.terms.table) = (.ok v, m', table')

omit [Solver σ μ] in
/-- A question to a model that is there. -/
theorem run_askModel (t : Term) {query : ModelQuery μ α} {lease : Nat} {m m' : μ}
    {table' : SymbolTable} {r : Except Fault α} (hmodel : S.model = some (lease, m))
    (hrun : query.run (m, S.terms.table) = (r, m', table')) :
    (askModel (Model.ask t query)).run S = (r.mapError (Model.errorAbout t),
      { S with model := some (lease, m'), terms := { S.terms with table := table' } }) := by
  rw [askModel, run_onModel, hmodel]
  simp only [Option.map_some, PartStep.run_ofModel, Model.run_ask t hrun]
  rw [withAsked_some hmodel]

/-- The first step that makes a model, or leaves the one that is there. -/
theorem ensureModel_makes (S : Session σ μ) :
    Leads (fun _ _ => True) ensureModel S fun S' _ => ∃ p, S'.model = some p := by
  refine .bind closed_true (requireActive_leads closed_true S) fun _ S₁ _ _ => .get ?_
  split
  · rename_i p hmodel
    exact .pure closed_true ⟨p, hmodel⟩
  · refine .bind closed_true (.any _ _) fun model S₂ _ _ => ?_
    exact .modify trivial ⟨_, rfl⟩

variable [ConsistentSolver σ μ]

/-- What the model says of symbols. -/
def reading? (S : Session σ μ) : Option Interpretation :=
  S.model.map fun p => ConsistentSolver.reading (σ := σ) p.2

/-- What questions that have been answered leave of a model. -/
structure Follows (S S' : Session σ μ) : Prop where
  arisen : S'.Arisen
  gives : ∀ s v, S'.Gives (.symbol s) v → S.Gives (.symbol s) v
  reading : S'.reading? = S.reading?

theorem Arisen.follows (h : S.Arisen) : S.Follows S := ⟨h, fun _ _ => id, rfl⟩

theorem Follows.trans (h : S.Follows S') (h' : S'.Follows S'') : S.Follows S'' :=
  ⟨h'.arisen, fun s v hgives => h.gives s v (h'.gives s v hgives), h'.reading.trans h.reading⟩

theorem Gives.eq {t v : Term} {I : Interpretation} (h : S.Gives t v) (hI : S.reading? = some I) :
    v = (t.eval I).term := by
  obtain ⟨lease, m, m', table', hmodel, hrun⟩ := h
  obtain rfl : ConsistentSolver.reading (σ := σ) m = I := by simpa [reading?, hmodel] using hI
  exact ConsistentSolver.value hrun

/-- The model after a question that has been answered. -/
theorem ask_follows (h : S.Arisen) {query : ModelQuery μ α} (hanswers : Answers σ query)
    (t : Term) :
    Leads (fun _ _ => True) (askModel (Model.ask t query)) S fun S' a => S.Follows S' ∧
      ∃ lease m m' table', S.model = some (lease, m) ∧
        query.run (m, S.terms.table) = (.ok a, m', table') := by
  obtain ⟨lease, m, hmodel, harises⟩ := h
  obtain ⟨⟨r, m', table'⟩, hrun⟩ : ∃ p, query.run (m, S.terms.table) = p := ⟨_, rfl⟩
  refine .of_run (run_askModel t hmodel hrun) trivial fun a ha => ?_
  obtain rfl : r = .ok a := by
    cases r with
    | ok b => exact congrArg _ (Except.ok.inj ha)
    | error f => cases ha
  refine ⟨⟨⟨lease, m', rfl, harises.asked hanswers hrun⟩, fun s v hgives => ?_, ?_⟩,
    lease, m, m', table', hmodel, hrun⟩
  · obtain ⟨_, _, m'', table'', hmodel', hvalue⟩ := hgives
    obtain ⟨rfl, rfl⟩ := Prod.mk.inj (Option.some.inj hmodel')
    obtain ⟨m₁, table₁, h₁⟩ := ConsistentSolver.before harises hanswers hrun hvalue
    exact ⟨lease, m, m₁, table₁, hmodel, h₁⟩
  · rw [reading?, reading?, hmodel]
    exact congrArg some (ConsistentSolver.asked hanswers hrun)

/-! ### Entries -/

/-- An entry without parameters is what the model says of the symbol that the name stands for. -/
theorem modelEntry_gives (h : S.Arisen) (name : String) (binding : Binding) :
    Leads (fun _ _ => True) (modelEntry name binding) S fun S' entry => S.Follows S' ∧
      ∀ e ∈ entry, e.parameters = [] →
        ∃ s, (e.name, Binding.term (.symbol s)) = (name, binding) ∧
          S.Gives (.symbol s) e.value := by
  unfold modelEntry
  split
  · rename_i s
    split
    · rename_i hfunction
      refine .bind closed_true (ask_follows h (.interpret s) _) fun p S₁ _ h₁ => ?_
      obtain ⟨hfollows, lease, m, m', table', _, hrun⟩ := h₁
      refine .pure closed_true ⟨hfollows, fun e he hnone => ?_⟩
      obtain rfl := Option.some.inj he
      have hlength := ConsistentSolver.parameters hrun
      rw [show p.1 = [] from hnone] at hlength
      exact absurd (List.length_eq_zero_iff.mp hlength.symm)
        (SmtSort.domains_of_isFunction hfunction)
    · refine .bind closed_true (ask_follows h (.evaluate (.symbol s)) _) fun v S₁ _ h₁ => ?_
      refine .pure closed_true ⟨h₁.1, fun e he _ => ?_⟩
      obtain rfl := Option.some.inj he
      exact ⟨s, rfl, h₁.2⟩
  · exact .pure closed_true ⟨h.follows, nofun⟩

/-- Every value in a listing is one that the model had before it was asked for the listing. -/
theorem modelEntries_gives (h : S.Arisen) (entries : List (String × Binding)) :
    Leads (fun _ _ => True) (modelEntries entries) S fun S' listing => S.Follows S' ∧
      ∀ e ∈ listing, e.parameters = [] →
        ∃ s, (e.name, Binding.term (.symbol s)) ∈ entries ∧ S.Gives (.symbol s) e.value := by
  induction entries generalizing S with
  | nil => exact .pure closed_true ⟨h.follows, nofun⟩
  | cons entry rest ih =>
    refine .bind closed_true (modelEntry_gives h entry.1 entry.2) fun first S₁ _ h₁ => ?_
    refine .bind closed_true (ih h₁.1.arisen) fun later S₂ _ h₂ => ?_
    refine .pure closed_true ⟨h₁.1.trans h₂.1, fun e he hnone => ?_⟩
    rcases List.mem_append.mp he with he | he
    · obtain ⟨s, hentry, hgives⟩ := h₁.2 e (Option.mem_toList.mp he) hnone
      exact ⟨s, hentry ▸ List.mem_cons_self, hgives⟩
    · obtain ⟨s, hentry, hgives⟩ := h₂.2 e he hnone
      exact ⟨s, List.mem_cons_of_mem _ hentry, h₁.1.gives s _ hgives⟩

/-- A listing of the model of a session, and the model that it begins with. -/
theorem getModel_entries (h : S.Orderly) {listing : List ModelEntry}
    (hrun : getModel.run S = (.ok listing, S')) :
    ∃ S₁, ensureModel.run S = (.ok ⟨⟩, S₁) ∧ S₁.Arisen ∧ S'.reading? = S₁.reading? ∧
      ∀ e ∈ listing, e.parameters = [] →
        ∃ s, S.names.get? e.name = some (.term (.symbol s)) ∧ S₁.Gives (.symbol s) e.value := by
  unfold getModel at hrun
  rw [run_bind] at hrun
  split at hrun
  · rename_i _ S₁ hensure
    have hstill := (ensureModel_still S _ _ hensure).1
    have hnames : S₁.names = S.names := hstill.names
    obtain ⟨⟨lease, m⟩, hmodel⟩ := (ensureModel_makes S _ _ hensure).2 _ rfl
    have horderly := hstill.moves.orderly h
    have harisen : S₁.Arisen := ⟨lease, m, hmodel, horderly.model lease m hmodel⟩
    rw [run_bind_ok (run_get S₁)] at hrun
    obtain ⟨hfollows, hgives⟩ := (modelEntries_gives harisen _ _ _ hrun).2 _ rfl
    refine ⟨S₁, hensure, harisen, hfollows.reading, fun e he hnone => ?_⟩
    obtain ⟨s, hentry, hvalue⟩ := hgives e he hnone
    exact ⟨s, hnames ▸ Environment.lookup_of_mem horderly.names hentry, hvalue⟩
  · cases hrun

end Session

end SmtScript
