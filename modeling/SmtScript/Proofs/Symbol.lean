import Mathlib.Data.List.Nodup
import Mathlib.Data.List.Perm.Subperm
import SmtScript.Symbol
import Std.Data.String.ToNat

/-!
New symbols.

A symbol made by `SymbolTable.fresh` is not in the table, whatever names are taken there: a table
of `n` symbols cannot hold all of `n + 1` different names.
-/

namespace SmtScript

namespace SymbolTable

variable {table : SymbolTable} {stem : String}

theorem hasName_iff {name : String} :
    table.hasName name = true ↔ name ∈ table.symbols.map Symbol.name := by
  simp [hasName]

/-- All names that the search for an unused one has passed over are taken, and if it stopped early
the one it has found is not. -/
theorem unusedCount_spec (table : SymbolTable) (template : Template) (tries count : Nat) :
    count ≤ table.unusedCount template tries count ∧
      table.unusedCount template tries count ≤ count + tries ∧
      (∀ n, count ≤ n → n < table.unusedCount template tries count →
        table.hasName (template.fill n) = true) ∧
      (table.unusedCount template tries count < count + tries →
        table.hasName (template.fill (table.unusedCount template tries count)) = false) := by
  induction tries generalizing count with
  | zero =>
    rw [unusedCount]
    exact ⟨Nat.le_refl _, Nat.le_refl _, fun n hle hlt => by omega, fun h => by omega⟩
  | succ tries ih =>
    by_cases htaken : table.hasName (template.fill count) = true
    · obtain ⟨hle, hbound, hall, hstop⟩ := ih (count + 1)
      rw [unusedCount, if_pos htaken]
      refine ⟨by omega, by omega, ?_, fun h => hstop (by omega)⟩
      intro n hn hlt
      by_cases heq : n = count
      · rw [heq]
        exact htaken
      · exact hall n (by omega) hlt
    · rw [unusedCount, if_neg htaken]
      refine ⟨Nat.le_refl _, by omega, fun n hle hlt => by omega, fun _ => ?_⟩
      simpa using htaken

theorem fill_injective (stem : String) : Function.Injective (Template.numbering stem).fill := by
  intro m n h
  rw [Template.fill_numbering, Template.fill_numbering] at h
  have h := (String.append_right_inj stem).mp h
  rw [Nat.toString_eq_repr, Nat.toString_eq_repr] at h
  exact Nat.repr_injective h

/-- The search finds a name that is not taken: if it used up all its tries, one name less than
there are symbols would be left for the one it ends with. -/
theorem unused_unusedCount (table : SymbolTable) (stem : String) (count : Nat) :
    table.hasName ((Template.numbering stem).fill
      (table.unusedCount (.numbering stem) table.symbols.length count)) = false := by
  obtain ⟨hle, hbound, hall, hstop⟩ :=
    unusedCount_spec table (.numbering stem) table.symbols.length count
  by_cases hearly : table.unusedCount (.numbering stem) table.symbols.length count <
      count + table.symbols.length
  · exact hstop hearly
  · by_contra htaken
    have htaken : table.hasName ((Template.numbering stem).fill
        (table.unusedCount (.numbering stem) table.symbols.length count)) = true := by
      simpa using htaken
    have hsub : ((List.range' count (table.symbols.length + 1)).map
        (Template.numbering stem).fill) ⊆ table.symbols.map Symbol.name := by
      intro name hname
      obtain ⟨n, hn, rfl⟩ := List.mem_map.mp hname
      have hn := List.mem_range'_1.mp hn
      refine hasName_iff.mp ?_
      by_cases hlt : n < table.unusedCount (.numbering stem) table.symbols.length count
      · exact hall n hn.1 hlt
      · obtain rfl : n = table.unusedCount (.numbering stem) table.symbols.length count := by omega
        exact htaken
    have hnodup : ((List.range' count (table.symbols.length + 1)).map
        (Template.numbering stem).fill).Nodup :=
      List.Nodup.map (fill_injective stem) (List.nodup_range' 1)
    have hlen := (hnodup.subperm hsub).length_le
    simp only [List.length_map, List.length_range'] at hlen
    omega

/-- What is not the name of a symbol. -/
theorem not_mem_of_hasName {s : Symbol} (h : table.hasName s.name = false) :
    s ∉ table.symbols := by
  intro hmem
  rw [hasName_iff.mpr (List.mem_map_of_mem hmem)] at h
  cases h

theorem hasName_fresh (table : SymbolTable) (stem : String) (sort : SmtSort) :
    table.hasName (table.fresh stem sort).1.name = false :=
  unused_unusedCount table stem table.counter

/-- A fresh symbol is new. -/
theorem fresh_not_mem (table : SymbolTable) (stem : String) (sort : SmtSort) :
    (table.fresh stem sort).1 ∉ table.symbols :=
  not_mem_of_hasName (table.hasName_fresh stem sort)

/-- Whether a name is a stem and the least number, from the counter on, that makes it new. No more
numbers are passed over than there are symbols. -/
structure Numbers (table : SymbolTable) (stem name : String) (n : Nat) : Prop where
  name_eq : name = stem ++ toString n
  new : table.hasName name = false
  le : table.counter ≤ n
  bound : n ≤ table.counter + table.symbols.length
  least : ∀ k, table.counter ≤ k → k < n → table.hasName (stem ++ toString k) = true

/-- The search for a fresh name ends, and the name is the stem with its number, percent signs
included. -/
theorem numbers_fresh (table : SymbolTable) (stem : String) (sort : SmtSort) :
    ∃ n, table.Numbers stem (table.fresh stem sort).1.name n ∧
      (table.fresh stem sort).2.counter = n + 1 := by
  obtain ⟨hle, hbound, hall, _⟩ :=
    unusedCount_spec table (.numbering stem) table.symbols.length table.counter
  exact ⟨_, ⟨Template.fill_numbering stem _, table.hasName_fresh stem sort, hle, hbound,
    fun k hk hlt => Template.fill_numbering stem k ▸ hall k hk hlt⟩, rfl⟩

@[simp] theorem symbols_fresh (table : SymbolTable) (stem : String) (sort : SmtSort) :
    (table.fresh stem sort).2.symbols = (table.fresh stem sort).1 :: table.symbols := rfl

@[simp] theorem sort_fresh (table : SymbolTable) (stem : String) (sort : SmtSort) :
    (table.fresh stem sort).1.sort = sort := rfl

theorem length_freshAll (table : SymbolTable) (stem : String) (sorts : List SmtSort) :
    (table.freshAll stem sorts).1.length = sorts.length := by
  induction sorts generalizing table with
  | nil => rfl
  | cons sort rest ih => exact congrArg (· + 1) (ih (table.fresh stem sort).2)

theorem sorts_freshAll (table : SymbolTable) (stem : String) (sorts : List SmtSort) :
    (table.freshAll stem sorts).1.map Symbol.sort = sorts := by
  induction sorts generalizing table with
  | nil => rfl
  | cons sort rest ih => exact congrArg (sort :: ·) (ih (table.fresh stem sort).2)

/-! ### Tables with more names -/

/-- Whether all names of a table have the same symbols in another one. -/
def Extends (table table' : SymbolTable) : Prop :=
  ∀ name s, table.find? name = some s → table'.find? name = some s

variable {table' : SymbolTable} {s : Symbol}

theorem find?_cons (symbols : List Symbol) (counter : Nat) (name : String) :
    find? ⟨s :: symbols, counter⟩ name =
      if s.name = name then some s else find? ⟨symbols, counter⟩ name := by
  by_cases h : s.name = name <;> simp [find?, h]

theorem find?_add (table : SymbolTable) (s : Symbol) (name : String) :
    (table.add s).find? name = if s.name = name then some s else table.find? name :=
  find?_cons table.symbols table.counter name

theorem name_of_find? {name : String} (h : table.find? name = some s) : s.name = name := by
  simpa using List.find?_some h

theorem extends_refl (table : SymbolTable) : table.Extends table := fun _ _ => id

theorem Extends.trans {table'' : SymbolTable} (h : table.Extends table')
    (h' : table'.Extends table'') : table.Extends table'' :=
  fun name s hs => h' name s (h name s hs)

/-- A symbol with a new name. -/
theorem extends_cons {counter : Nat} (h : table.find? s.name = none) :
    table.Extends ⟨s :: table.symbols, counter⟩ := by
  intro name other hother
  have hne : s.name ≠ name := by
    rintro rfl
    rw [h] at hother
    cases hother
  rw [find?_cons, if_neg hne]
  exact hother

theorem Extends.add (h : table.Extends table') (s : Symbol) :
    (table.add s).Extends (table'.add s) := by
  intro name other hother
  rw [find?_add] at hother ⊢
  split
  · rwa [if_pos ‹_›] at hother
  · exact h name other (by rwa [if_neg ‹_›] at hother)

/-- A symbol that the other table has already. -/
theorem Extends.add_of_find? (h : table.Extends table') (hs : table'.find? s.name = some s) :
    (table.add s).Extends table' := by
  intro name other hother
  rw [find?_add] at hother
  split at hother
  · rename_i hname
    rw [← hname, hs, ← hother]
  · exact h name other hother

theorem find?_eq_none {name : String} : table.find? name = none ↔ table.hasName name = false := by
  simp [find?, hasName]

theorem find?_fresh (table : SymbolTable) (stem : String) (sort : SmtSort) :
    table.find? (table.fresh stem sort).1.name = none :=
  find?_eq_none.mpr (table.hasName_fresh stem sort)

theorem extends_freshAll (table : SymbolTable) (stem : String) (sorts : List SmtSort) :
    table.Extends (table.freshAll stem sorts).2 := by
  induction sorts generalizing table with
  | nil => exact extends_refl table
  | cons sort rest ih =>
    exact (extends_cons (find?_fresh table stem sort)).trans (ih (table.fresh stem sort).2)

/-! ### Tables without two symbols of one name -/

/-- Whether no two symbols of a table share a name. -/
def Distinct (table : SymbolTable) : Prop := (table.symbols.map Symbol.name).Nodup

theorem distinct_empty : empty.Distinct := List.nodup_nil

theorem Distinct.eq_of_name {s' : Symbol} (h : table.Distinct) (hs : s ∈ table.symbols)
    (hs' : s' ∈ table.symbols) (hname : s.name = s'.name) : s = s' :=
  List.inj_on_of_nodup_map h hs hs' hname

/-- A symbol with a new name keeps names distinct. -/
theorem Distinct.cons (h : table.Distinct) (hnew : table.hasName s.name = false) (counter : Nat) :
    Distinct ⟨s :: table.symbols, counter⟩ := by
  refine List.nodup_cons.mpr ⟨fun hmem => ?_, h⟩
  rw [hasName_iff.mpr hmem] at hnew
  cases hnew

/-- Whether no symbol is gone, and new ones have new names. -/
structure Adds (table table' : SymbolTable) : Prop where
  symbols : table.symbols <:+ table'.symbols
  distinct : table.Distinct → table'.Distinct

theorem Adds.refl (table : SymbolTable) : table.Adds table := ⟨List.suffix_refl _, id⟩

theorem Adds.trans {table'' : SymbolTable} (h : table.Adds table') (h' : table'.Adds table'') :
    table.Adds table'' :=
  ⟨h.symbols.trans h'.symbols, h'.distinct ∘ h.distinct⟩

theorem adds_cons (hnew : table.hasName s.name = false) (counter : Nat) :
    table.Adds ⟨s :: table.symbols, counter⟩ :=
  ⟨List.suffix_cons _ _, fun h => h.cons hnew counter⟩

theorem adds_fresh (table : SymbolTable) (stem : String) (sort : SmtSort) :
    table.Adds (table.fresh stem sort).2 :=
  adds_cons (table.hasName_fresh stem sort) _

theorem adds_freshAll (table : SymbolTable) (stem : String) (sorts : List SmtSort) :
    table.Adds (table.freshAll stem sorts).2 := by
  induction sorts generalizing table with
  | nil => exact .refl table
  | cons sort rest ih => exact (table.adds_fresh stem sort).trans (ih _)

/-- What becomes of a table when a name is declared: a new symbol is made, which has this name, or,
if the name is taken, a name with a number added. -/
structure Declares (table : SymbolTable) (name : String) (s : Symbol) (table' : SymbolTable) :
    Prop where
  new : table.hasName s.name = false
  symbols : table'.symbols = s :: table.symbols
  untaken : table.hasName name = false → s.name = name
  taken : table.hasName name = true → ∃ n, table.Numbers (name ++ "_") s.name n

/-! ### Symbols made one after the other -/

/-- Whether symbols are made for stems, one after the other. -/
inductive Makes : SymbolTable → List (String × Symbol) → SymbolTable → Prop where
  | nil (table : SymbolTable) : Makes table [] table
  | cons {table table' : SymbolTable} {stem : String} {s : Symbol} {n : Nat}
      {later : List (String × Symbol)} (hfirst : table.Numbers stem s.name n)
      (hlater : Makes ⟨s :: table.symbols, n + 1⟩ later table') :
      Makes table ((stem, s) :: later) table'

variable {made : List (String × Symbol)}

theorem Makes.symbols (h : table.Makes made table') :
    table'.symbols = (made.map Prod.snd).reverse ++ table.symbols := by
  induction h with
  | nil table => rfl
  | cons _ _ ih => simp [ih]

/-- All of them are new. -/
theorem Makes.new (h : table.Makes made table') :
    ∀ p ∈ made, table.hasName p.2.name = false := by
  induction h with
  | nil table => nofun
  | @cons table _ _ s _ _ hfirst _ ih =>
    refine List.forall_mem_cons.mpr ⟨hfirst.new, fun p hp => ?_⟩
    have hboth : s.name ≠ p.2.name ∧ table.hasName p.2.name = false := by
      simpa [hasName] using ih p hp
    exact hboth.2

/-- No two of them share a name. -/
theorem Makes.distinct (h : table.Makes made table') :
    (made.map fun p => p.2.name).Nodup := by
  induction h with
  | nil table => exact List.nodup_nil
  | @cons table _ _ s _ _ _ hlater ih =>
    refine List.nodup_cons.mpr ⟨fun hmem => ?_, ih⟩
    obtain ⟨p, hp, hname⟩ := List.mem_map.mp hmem
    have hboth : s.name ≠ p.2.name ∧ table.hasName p.2.name = false := by
      simpa [hasName] using hlater.new p hp
    exact hboth.1 hname.symm

/-- Each of them is named by its stem and a number. -/
theorem Makes.numbered (h : table.Makes made table') :
    ∀ p ∈ made, ∃ n : Nat, p.2.name = p.1 ++ toString n := by
  induction h with
  | nil table => nofun
  | cons hfirst _ ih => exact List.forall_mem_cons.mpr ⟨⟨_, hfirst.name_eq⟩, ih⟩

theorem makes_fresh (table : SymbolTable) (stem : String) (sort : SmtSort) :
    table.Makes [(stem, (table.fresh stem sort).1)] (table.fresh stem sort).2 := by
  obtain ⟨n, hnumbers, hcounter⟩ := table.numbers_fresh stem sort
  have htable : (table.fresh stem sort).2 =
      ⟨(table.fresh stem sort).1 :: table.symbols, n + 1⟩ := by
    rw [← hcounter]
    rfl
  exact .cons hnumbers (htable ▸ .nil _)

theorem Makes.append {table'' : SymbolTable} {more : List (String × Symbol)}
    (h : table.Makes made table') (h' : table'.Makes more table'') :
    table.Makes (made ++ more) table'' := by
  induction h with
  | nil table => exact h'
  | cons hfirst _ ih => exact .cons hfirst (ih h')

theorem makes_freshAll (table : SymbolTable) (stem : String) (sorts : List SmtSort) :
    table.Makes ((table.freshAll stem sorts).1.map fun s => (stem, s))
      (table.freshAll stem sorts).2 := by
  induction sorts generalizing table with
  | nil => exact .nil table
  | cons sort rest ih => exact (table.makes_fresh stem sort).append (ih _)

end SymbolTable

end SmtScript
