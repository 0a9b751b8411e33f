import Mathlib
import SmtScript.Engine
import SmtScript.Proofs.Session.Deeds

/-!
Which names a model is listed for.

A name is listed if what it stands for is a symbol. It does so if it has been declared, and also if
it has been defined, without parameters, as another name for a symbol. `Session.bindings` says how
the names of a run have been bound since it began anew, and `Session.listed_names` which of them are
listed, and in which order.
-/

namespace SmtScript

open Step

/-! ### Names in the order in which they come first -/

/-- Each name where it comes first. -/
def firsts (names : List String) : List String :=
  names.foldl (fun seen name => if name ∈ seen then seen else seen ++ [name]) []

theorem firsts_concat (names : List String) (name : String) : firsts (names ++ [name]) =
    if name ∈ firsts names then firsts names else firsts names ++ [name] := by
  rw [firsts, List.foldl_append]
  rfl

theorem nodup_firsts (names : List String) : (firsts names).Nodup := by
  induction names using List.reverseRecOn with
  | nil => exact List.nodup_nil
  | append_singleton names name ih =>
    rw [firsts_concat]
    split
    · exact ih
    · rename_i hnew
      exact List.nodup_append.mpr ⟨ih, List.nodup_singleton name, fun a ha b hb heq =>
        hnew (List.mem_singleton.mp hb ▸ heq ▸ ha)⟩

theorem mem_firsts {names : List String} {name : String} : name ∈ firsts names ↔ name ∈ names := by
  induction names using List.reverseRecOn with
  | nil => simp [firsts]
  | append_singleton names other ih =>
    rw [firsts_concat, List.mem_append, List.mem_singleton, ← ih]
    split
    · rename_i hold
      constructor
      · exact .inl
      · rintro (h | rfl)
        · exact h
        · exact hold
    · rw [List.mem_append, List.mem_singleton]

namespace Table

variable {α : Type}

/-- The entries whose values have a property, by their keys. -/
theorem keys_filter {table : Table α} (h : table.keys.Nodup) (p : α → Bool) :
    (table.entries.filter fun entry => p entry.2).map Prod.fst =
      table.keys.filter fun key => (table.get? key).any p := by
  obtain ⟨entries⟩ := table
  simp only [keys, get?] at h ⊢
  induction entries with
  | nil => rfl
  | cons entry rest ih =>
    obtain ⟨key, value⟩ := entry
    obtain ⟨hnew, hrest⟩ := List.nodup_cons.mp h
    have hlater : ∀ k ∈ rest.map Prod.fst,
        (List.lookup k ((key, value) :: rest)).any p = (List.lookup k rest).any p := by
      intro k hk
      have hne : k ≠ key := fun heq => hnew (heq ▸ hk)
      rw [lookup_cons_eq, if_neg hne]
    have hkeys := List.filter_congr hlater
    rw [List.map_cons, List.filter_cons, List.filter_cons, hkeys, lookup_cons_eq, if_pos rfl]
    cases hp : p value with
    | true => simp [hp, ih hrest]
    | false => simp [hp, ih hrest]

end Table

namespace Session

/-- How a name has been bound. -/
inductive Manner where
  | declared
  /-- Defined as another name for a symbol. -/
  | renamed
  | defined
  deriving DecidableEq, Repr

/-- Whether there is an entry for a name that has been bound in this manner. -/
def Manner.isListed : Manner → Bool
  | .defined => false
  | _ => true

variable {σ μ : Type} {S S' : Session σ μ}

/-- The names that have been bound so far, once a deed is done. -/
def Deed.bind (log : List (String × Manner)) (deed : Deed σ μ) : List (String × Manner) :=
  match deed.command with
  | .declareFun name _ _ => log ++ [(name, .declared)]
  | .defineFun name parameters codomain body =>
    log ++ [(name, if deed.before.renames parameters codomain body then .renamed else .defined)]
  | .reset => []
  | _ => log

/-- The names that deeds have bound since the last reset, in the order in which they were bound. -/
def bindings (done : List (Deed σ μ)) : List (String × Manner) := done.foldl Deed.bind []

theorem bindings_concat (done : List (Deed σ μ)) (deed : Deed σ μ) :
    bindings (done ++ [deed]) = deed.bind (bindings done) := by
  simp [bindings]

/-- How a name has been bound the last time. -/
def latest (log : List (String × Manner)) (name : String) : Option Manner := log.reverse.lookup name

theorem latest_concat (log : List (String × Manner)) (name : String) (manner : Manner)
    (other : String) :
    latest (log ++ [(name, manner)]) other =
      if other = name then some manner else latest log other := by
  rw [latest, List.reverse_append, List.reverse_singleton, List.singleton_append,
    Table.lookup_cons_eq, latest]

theorem mem_of_latest {log : List (String × Manner)} {name : String} {manner : Manner}
    (h : latest log name = some manner) : name ∈ log.map Prod.fst := by
  have hmem : (name, manner) ∈ log := by
    simpa using Environment.mem_of_lookup h
  exact List.mem_map_of_mem hmem

/-- Whether a table has the names that have been bound, where they came first, and each stands for a
symbol just if it should. -/
structure Lists (log : List (String × Manner)) (names : Table Binding) : Prop where
  keys : names.keys = firsts (log.map Prod.fst)
  symbols : ∀ name, (names.get? name).any Binding.isSymbol = (latest log name).any Manner.isListed

theorem lists_empty : Lists [] .empty :=
  ⟨rfl, fun _ => rfl⟩

theorem Lists.insert {log : List (String × Manner)} {names : Table Binding} (h : Lists log names)
    (name : String) {binding : Binding} {manner : Manner}
    (hmanner : binding.isSymbol = manner.isListed) :
    Lists (log ++ [(name, manner)]) (names.insert name binding) where
  keys := by
    rw [Table.keys_insert, h.keys, List.map_append, List.map_singleton, firsts_concat]
  symbols other := by
    rw [Table.get?_insert, latest_concat]
    split
    · exact hmanner
    · exact h.symbols other

theorem Does.lists {command : Command} {log : List (String × Manner)} (h : Does S S' command)
    (hS : Lists log S.names) : Lists ((Deed.mk command S S').bind log) S'.names := by
  have hsame (hnames : S'.names = S.names) : Lists log S'.names := by
    rw [hnames]
    exact hS
  cases command with
  | declareFun name domains codomain =>
    obtain ⟨_, s, hnames⟩ := h
    rw [hnames]
    exact hS.insert name rfl
  | defineFun name parameters codomain body =>
    obtain ⟨_, binding, hnames, hsymbol⟩ := h
    rw [hnames]
    refine hS.insert name ?_
    rw [hsymbol]
    cases S.renames parameters codomain body <;> rfl
  | reset =>
    rw [h.2]
    exact lists_empty
  | assertTerm sexpr => exact hsame h.1
  | push levels => exact hsame h.1
  | pop levels => exact hsame h.1
  | resetAssertions => exact hsame h.1
  | setLogic logic => exact hsame h.1.names
  | _ => exact hsame h.names

variable [Solver σ μ]

/-- The table of names shows how the names have been bound. -/
theorem lists_bindings (configuration : Configuration) (commands : List SExpr) :
    Lists (bindings (deeds commands (start configuration : Session σ μ)))
      (after commands (start configuration : Session σ μ)).names := by
  refine deeds_induction (P := fun done S => Lists (bindings done) S.names) lists_empty ?_ ?_
    commands
  · intro done S S' _ h hsame
    rw [hsame.names]
    exact h
  · intro done S S' command _ h hdoes
    rw [bindings_concat]
    exact hdoes.lists h

/-! ### Listings -/

theorem modelEntry_name (name : String) (binding : Binding) (S : Session σ μ) :
    Leads (fun _ _ => True) (modelEntry name binding) S fun _ entry =>
      entry.toList.map ModelEntry.name = if binding.isSymbol then [name] else [] := by
  unfold modelEntry
  split
  · split
    · exact .bind closed_true (.any _ _) fun _ _ _ _ => .pure closed_true rfl
    · exact .bind closed_true (.any _ _) fun _ _ _ _ => .pure closed_true rfl
  · rename_i hother
    refine .pure closed_true ?_
    have hplain : binding.isSymbol = false := by
      unfold Binding.isSymbol
      split
      · exact (hother _ rfl).elim
      · rfl
    rw [hplain]
    rfl

/-- There is an entry for every name that stands for a symbol. -/
theorem modelEntries_names (entries : List (String × Binding)) (S : Session σ μ) :
    Leads (fun _ _ => True) (modelEntries entries) S fun _ listing => listing.map ModelEntry.name =
      (entries.filter fun entry => entry.2.isSymbol).map Prod.fst := by
  induction entries generalizing S with
  | nil => exact .pure closed_true rfl
  | cons entry rest ih =>
    obtain ⟨name, binding⟩ := entry
    refine .bind closed_true (modelEntry_name name binding S) fun first S₁ _ hfirst => ?_
    refine .bind closed_true (ih S₁) fun later S₂ _ hlater => .pure closed_true ?_
    rw [List.map_append, hfirst, hlater, List.filter_cons]
    cases binding.isSymbol <;> rfl

theorem getModel_names (S : Session σ μ) :
    Leads (fun _ _ => True) getModel S fun _ listing => listing.map ModelEntry.name =
      (S.names.entries.filter fun entry => entry.2.isSymbol).map Prod.fst := by
  refine (aloof_ensureModel (S := S)).bind_into (fun _ _ => trivial) fun _ S₁ h₁ _ => .get ?_
  rw [← h₁.names]
  exact (modelEntries_names _ S₁).weaken fun _ _ => trivial

/-- Every name that is declared is listed, and so is every name that is defined as another name for
a symbol, each once and in the order in which the names were bound at first. So the names that are
listed are those that are declared as long as there are no other names for symbols. -/
theorem listed_names {configuration : Configuration} {commands : List SExpr}
    {log : List (String × Manner)} {listing : List ModelEntry}
    (hS : after commands (start configuration) = S)
    (hlog : bindings (deeds commands (start configuration : Session σ μ)) = log)
    (hrun : getModel.run S = (.ok listing, S')) :
    (listing.map ModelEntry.name = (firsts (log.map Prod.fst)).filter fun name =>
      latest log name = some .declared ∨ latest log name = some .renamed) ∧
    (listing.map ModelEntry.name).Nodup ∧
    ((listing.map ModelEntry.name = (firsts (log.map Prod.fst)).filter fun name =>
      latest log name = some .declared) ↔ ∀ name, latest log name ≠ some .renamed) := by
  have hlists : Lists log S.names := hlog ▸ hS ▸ lists_bindings configuration commands
  have hnodup : S.names.keys.Nodup := hlists.keys ▸ nodup_firsts _
  have hlisted (name : String) : (latest log name).any Manner.isListed =
      decide (latest log name = some .declared ∨ latest log name = some .renamed) := by
    rcases latest log name with _ | (_ | _ | _) <;> rfl
  have hnames : listing.map ModelEntry.name = (firsts (log.map Prod.fst)).filter fun name =>
      latest log name = some .declared ∨ latest log name = some .renamed := by
    have hentries := (getModel_names S _ _ hrun).2 listing rfl
    rw [hentries, Table.keys_filter hnodup, hlists.keys]
    exact List.filter_congr fun name _ => (hlists.symbols name).trans (hlisted name)
  refine ⟨hnames, hnames ▸ (nodup_firsts _).filter _, ?_⟩
  constructor
  · intro hsame name hrenamed
    have hmem : name ∈ firsts (log.map Prod.fst) := mem_firsts.mpr (mem_of_latest hrenamed)
    have hleft : name ∈ listing.map ModelEntry.name := by
      rw [hnames]
      exact List.mem_filter.mpr ⟨hmem, decide_eq_true (.inr hrenamed)⟩
    rw [hsame] at hleft
    have hdeclared := of_decide_eq_true (List.mem_filter.mp hleft).2
    cases hrenamed.symm.trans hdeclared
  · intro hnone
    refine hnames.trans (List.filter_congr fun name _ => ?_)
    simp [hnone name]

/-- A name that is defined as another is listed as if it were declared. -/
theorem listed_names_renamed : ∃ (S : Session Engine Engine.Model) (listing : List ModelEntry)
    (S' : Session Engine Engine.Model),
    after [.list [.atom "set-logic", .atom "ALL"],
      .list [.atom "declare-const", .atom "x", .atom "Int"],
      .list [.atom "define-fun", .atom "k", .list [], .atom "Int", .atom "x"],
      .list [.atom "define-fun", .atom "one", .list [], .atom "Int", .atom "1"],
      .list [.atom "check-sat"]] (start (.ofSolver "z3")) = S ∧
    getModel.run S = (.ok listing, S') ∧ listing.map ModelEntry.name = ["x", "k"] := by
  obtain ⟨S, hS⟩ : ∃ S : Session Engine Engine.Model,
    after [.list [.atom "set-logic", .atom "ALL"],
      .list [.atom "declare-const", .atom "x", .atom "Int"],
      .list [.atom "define-fun", .atom "k", .list [], .atom "Int", .atom "x"],
      .list [.atom "define-fun", .atom "one", .list [], .atom "Int", .atom "1"],
      .list [.atom "check-sat"]] (start (.ofSolver "z3")) = S := ⟨_, rfl⟩
  have hlog : bindings (deeds [.list [.atom "set-logic", .atom "ALL"],
      .list [.atom "declare-const", .atom "x", .atom "Int"],
      .list [.atom "define-fun", .atom "k", .list [], .atom "Int", .atom "x"],
      .list [.atom "define-fun", .atom "one", .list [], .atom "Int", .atom "1"],
      .list [.atom "check-sat"]] (start (.ofSolver "z3") : Session Engine Engine.Model)) =
      [("x", .declared), ("k", .renamed), ("one", .defined)] := by
    cbv
  have hok : (getModel.run S : Except Error (List ModelEntry) × _).1.isOk = true := by
    subst hS
    cbv
  obtain ⟨⟨result, S'⟩, hrun⟩ : ∃ p : Except Error (List ModelEntry) × Session Engine Engine.Model,
    getModel.run S = p := ⟨_, rfl⟩
  cases result with
  | error e => simp [hrun, Except.isOk, Except.toBool] at hok
  | ok listing =>
    obtain ⟨hnames, -⟩ := listed_names hS hlog hrun
    exact ⟨S, listing, S', hS, hrun, hnames.trans (by decide +kernel)⟩

end Session

end SmtScript
