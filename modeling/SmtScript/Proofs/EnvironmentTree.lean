import Mathlib.Data.List.Induction
import SmtScript.Proofs.Environment

/-!
What a name stands for in an environment of a tree, from the history of the tree.

Every environment has one path of extensions from the root. The last value that the path gives to a
name counts; without one, the latest permanent binding of the name counts, in whichever environment
it was made, and whether the environment that is asked was there yet or not.
-/

namespace SmtScript.EnvironmentTree

variable {α : Type}

/-- What can be done with one of the environments of a tree. -/
inductive Operation (α : Type)
  | bind (index : Nat) (name : String) (value : α)
  | extend (index : Nat) (bindings : List (String × α))

/-- The tree after an operation, if it has the environment with which it is done. -/
def perform (tree : EnvironmentTree α) : Operation α → Option (EnvironmentTree α)
  | .bind index name value =>
    if index < tree.size then some (tree.bind name value index) else none
  | .extend index bindings =>
    if index < tree.size then some (tree.extend index bindings).1 else none

/-- The tree that arises from a single empty environment by operations, the latest one listed
first. -/
def replay : List (Operation α) → Option (EnvironmentTree α)
  | [] => some single
  | latest :: history => replay history >>= (perform · latest)

/-! ### What a history says -/

/-- The permanent bindings of a history, the latest one first. -/
def binds : List (Operation α) → List (String × α)
  | [] => []
  | .bind _ name value :: history => (name, value) :: binds history
  | .extend _ _ :: history => binds history

/-- How many environments there are after a history, the root among them. -/
def made : List (Operation α) → Nat
  | [] => 1
  | .bind _ _ _ :: history => made history
  | .extend _ _ :: history => made history + 1

/-- The bindings of the extensions that lead from the root down to an environment, in the order in
which they were given. -/
inductive Path : List (Operation α) → Nat → List (String × α) → Prop
  | root : Path [] 0 []
  | older {history index bindings} (latest : Operation α) (path : Path history index bindings) :
    Path (latest :: history) index bindings
  | extended {history parent bindings} (more : List (String × α))
    (path : Path history parent bindings) :
    Path (.extend parent more :: history) (made history) (bindings ++ more)

/-- The last value that a list of bindings gives to a name. -/
def lastValue (name : String) (bindings : List (String × α)) : Option α :=
  (bindings.filter (·.1 == name)).getLast?.map Prod.snd

theorem lookup_reverse (name : String) (bindings : List (String × α)) :
    bindings.reverse.lookup name = lastValue name bindings := by
  induction bindings using List.reverseRecOn with
  | nil => rfl
  | append_singleton rest binding ih =>
    obtain ⟨key, value⟩ := binding
    rw [List.reverse_append, List.reverse_singleton, List.singleton_append, Table.lookup_cons_eq,
      ih, lastValue, lastValue, List.filter_append]
    by_cases h : name = key
    · simp [h]
    · simp [h, Ne.symm h]

theorem Path.lt_made {history : List (Operation α)} {index : Nat} {bindings : List (String × α)}
    (path : Path history index bindings) : index < made history := by
  induction path with
  | root => exact Nat.one_pos
  | older latest _ ih => cases latest <;> simp only [made] <;> omega
  | extended more _ _ => simp [made]

/-- No environment has two paths: an extension is new, and older environments keep theirs. -/
theorem Path.unique {history : List (Operation α)} {index : Nat}
    {bindings others : List (String × α)} (path : Path history index bindings)
    (other : Path history index others) : bindings = others := by
  induction path generalizing others with
  | root => cases other; rfl
  | older latest path ih =>
    cases other with
    | older _ other => exact ih other
    | extended more _ => exact absurd path.lt_made (Nat.lt_irrefl _)
  | extended more path ih =>
    cases other with
    | older _ other => exact absurd other.lt_made (Nat.lt_irrefl _)
    | extended _ other => rw [ih other]

/-! ### What a tree keeps of its history -/

/-- A tree stands as a history says: one table, to which all environments refer, has the latest
permanent bindings, and every environment has the bindings of its path as its scope. -/
structure Records (history : List (Operation α)) (tree : EnvironmentTree α) : Prop where
  size : tree.size = made history
  table : ∃ table, tree.tables = #[table] ∧ ∀ name, table.get? name = (binds history).lookup name
  environment : ∀ index < tree.size, ∃ bindings, Path history index bindings ∧
    tree.environments[index]? = some ⟨0, bindings.reverse⟩

theorem records_single : Records [] (single : EnvironmentTree α) where
  size := rfl
  table := ⟨.empty, rfl, fun _ => rfl⟩
  environment index hlt := by
    obtain rfl : index = 0 := Nat.lt_one_iff.mp hlt
    exact ⟨[], .root, rfl⟩

theorem Records.bind {history : List (Operation α)} {tree : EnvironmentTree α}
    (records : Records history tree) {index : Nat} (hlt : index < tree.size) (name : String)
    (value : α) : Records (.bind index name value :: history) (tree.bind name value index) := by
  obtain ⟨table, htables, htable⟩ := records.table
  obtain ⟨_, _, henvironment⟩ := records.environment index hlt
  have hbind : tree.bind name value index = ⟨#[table.insert name value], tree.environments⟩ := by
    simp [EnvironmentTree.bind, henvironment, htables]
  rw [hbind]
  refine ⟨records.size, ⟨_, rfl, fun other => ?_⟩, fun other hother => ?_⟩
  · rw [Table.get?_insert, binds, Table.lookup_cons_eq, htable]
  · obtain ⟨bindings, path, h⟩ := records.environment other hother
    exact ⟨bindings, path.older _, h⟩

theorem Records.extend {history : List (Operation α)} {tree : EnvironmentTree α}
    (records : Records history tree) {parent : Nat} (hlt : parent < tree.size)
    (more : List (String × α)) :
    Records (.extend parent more :: history) (tree.extend parent more).1 := by
  obtain ⟨bindings, path, henvironment⟩ := records.environment parent hlt
  have hextend : (tree.extend parent more).1 =
      ⟨tree.tables, tree.environments.push ⟨0, (bindings ++ more).reverse⟩⟩ := by
    simp [EnvironmentTree.extend, henvironment, Scope.extend]
  have hsize : (tree.extend parent more).1.size = tree.size + 1 := by
    rw [hextend]
    exact Array.size_push _
  refine ⟨by rw [hsize, records.size, made], ?_, fun index hindex => ?_⟩
  · rw [hextend]
    exact records.table
  · rw [hextend, Array.getElem?_push]
    by_cases hnew : index = tree.size
    · subst hnew
      exact ⟨bindings ++ more, records.size ▸ path.extended more, if_pos rfl⟩
    · obtain ⟨old, path, h⟩ := records.environment index (by omega)
      exact ⟨old, path.older _, (if_neg hnew).trans h⟩

/-- Every operation leaves a tree that stands as the longer history says. -/
theorem Records.perform {history : List (Operation α)} {tree next : EnvironmentTree α}
    (records : Records history tree) {operation : Operation α}
    (h : tree.perform operation = some next) : Records (operation :: history) next := by
  cases operation with
  | bind index name value =>
    obtain ⟨hlt, h⟩ := Option.ite_none_right_eq_some.mp h
    exact Option.some.inj h ▸ records.bind hlt name value
  | extend parent more =>
    obtain ⟨hlt, h⟩ := Option.ite_none_right_eq_some.mp h
    exact Option.some.inj h ▸ records.extend hlt more

theorem records_replay {history : List (Operation α)} {tree : EnvironmentTree α}
    (h : replay history = some tree) : Records history tree := by
  induction history generalizing tree with
  | nil => exact Option.some.inj h ▸ records_single
  | cons latest history ih =>
    obtain ⟨before, hbefore, hlatest⟩ := Option.bind_eq_some_iff.mp h
    exact (ih hbefore).perform hlatest

/-- In every environment of a tree, whatever was done with which of its environments: a name stands
for the last value that the extensions on the way from the root to the environment give to it;
without one, for the value of the latest permanent binding of the name anywhere in the tree; and
without that, it is unbound. -/
theorem resolve_of_replay {history : List (Operation α)} {tree : EnvironmentTree α}
    (h : replay history = some tree) (index : Nat) (hlt : index < tree.size) :
    ∃ environment bindings, tree.environment? index = some environment ∧
      Path history index bindings ∧ (∀ others, Path history index others → others = bindings) ∧
      ∀ name,
        environment.resolve name =
          (match (lastValue name bindings).or ((binds history).lookup name) with
          | some value => .ok value
          | none => .error (.unbound name)) ∧
        (environment.contains name = true ↔ ∃ value, environment.resolve name = .ok value) := by
  have records := records_replay h
  obtain ⟨table, htables, htable⟩ := records.table
  obtain ⟨bindings, path, henvironment⟩ := records.environment index hlt
  refine ⟨⟨table, bindings.reverse⟩, bindings, ?_, path, fun others other => other.unique path,
    fun name => ?_⟩
  · simp [environment?, henvironment, htables]
  · have hfind : Environment.find? ⟨table, bindings.reverse⟩ name =
        (lastValue name bindings).or ((binds history).lookup name) := by
      rw [Environment.find?, lookup_reverse, htable]
      cases lastValue name bindings <;> rfl
    rw [Environment.contains, Environment.resolve, hfind]
    cases (lastValue name bindings).or ((binds history).lookup name) <;> simp

/-- Two branches: `y` is bound in one of them for both, and `x` in the root after it was extended
twice. -/
def branching : List (Operation Nat) :=
  [.bind 0 "x" 3, .extend 0 [("y", 4), ("y", 5)], .bind 1 "y" 2, .extend 0 [("x", 1)]]

/-- The first branch hides the late binding of `x` and has the `y` that was bound in it; in the
second one it is the other way round. -/
theorem resolve_of_replay_branching :
    ∃ tree first second, replay branching = some tree ∧
      tree.environment? 1 = some first ∧ tree.environment? 2 = some second ∧
      first.resolve "x" = .ok 1 ∧ first.resolve "y" = .ok 2 ∧
      second.resolve "x" = .ok 3 ∧ second.resolve "y" = .ok 5 ∧
      second.resolve "z" = .error (.unbound "z") := by
  have hreplay : replay branching = some _ := rfl
  obtain ⟨first, _, hfirst, _, hpath, hfirst_value⟩ := resolve_of_replay hreplay 1 (by decide)
  obtain rfl := hpath _ (.older _ (.older _ (.older _ (.extended _ .root))))
  obtain ⟨second, _, hsecond, _, hpath, hsecond_value⟩ := resolve_of_replay hreplay 2 (by decide)
  obtain rfl := hpath _ (.older _ (.extended _ (.older _ (.older _ .root))))
  exact ⟨_, first, second, hreplay, hfirst, hsecond, (hfirst_value "x").1,
    (hfirst_value "y").1, (hsecond_value "x").1, (hsecond_value "y").1, (hsecond_value "z").1⟩

end SmtScript.EnvironmentTree
