import SmtScript.Proofs.Term.Tame
import SmtScript.Proofs.Translate.Sound

/-!
Where the local symbols of translation are free.

The symbols that mean the same everywhere are those that the script declares and those that stand
for integer parts, `TermState.Global`. As long as no substitution fails, a term is made of these
and of the open symbols, and its bound variables are neither: `translate_confined`,
`translate_hidden`.
-/

namespace SmtScript

open Term Translation

/-- Whether only allowed symbols are free in a term. -/
def Term.Confined (allowed : Symbol → Prop) (t : Term) : Prop := ∀ s ∈ t.freeSymbols, allowed s

namespace TermState

/-- Whether a symbol means the same everywhere: the script declares it, or it stands for an integer
part. -/
def Global (D : List Symbol) (T : TermState) (s : Symbol) : Prop :=
  s ∈ D ∨ s ∈ T.integerParts.map Prod.fst

/-- Whether a symbol may be free where some symbols are open. -/
def Visible (D : List Symbol) (c : List Symbol) (T : TermState) (s : Symbol) : Prop :=
  T.Global D s ∨ s ∈ c

/-- Whether a symbol has been made and may not be free. -/
def Hidden (D : List Symbol) (c : List Symbol) (T : TermState) (s : Symbol) : Prop :=
  T.Knows s ∧ ¬ T.Visible D c s

/-- Whether local symbols are told from the others and none is free in an integer part. -/
structure Confined (D : List Symbol) (T : TermState) : Prop where
  declared : ∀ s ∈ D, T.Knows s
  parts : ∀ p ∈ T.integerParts, T.Knows p.1
  locals : ∀ s ∈ T.locals, T.Knows s ∧ ¬ T.Global D s
  operands : ∀ p ∈ T.integerParts, p.2.Confined (T.Global D)

/-- What every step of translation does: symbols, variables and integer parts stay, and what is new
is known of and was not before. -/
structure Grows (T T' : TermState) : Prop where
  table : T.table.symbols <:+ T'.table.symbols
  locals : T.locals <:+ T'.locals
  parts : T.integerParts <:+ T'.integerParts
  new : ∀ p ∈ T'.integerParts, p ∈ T.integerParts ∨ ¬ T.Knows p.1 ∧ T'.Knows p.1

variable {D c c' : List Symbol} {T T' : TermState} {s : Symbol}

theorem Grows.knows (h : Grows T T') (hs : T.Knows s) : T'.Knows s := h.table.subset hs

theorem closed_grows : Step.Closed Grows where
  refl _ := ⟨List.suffix_refl _, List.suffix_refl _, List.suffix_refl _, fun _ => .inl⟩
  trans h h' := by
    refine ⟨h.table.trans h'.table, h.locals.trans h'.locals, h.parts.trans h'.parts, ?_⟩
    intro p hp
    rcases h'.new p hp with hp | ⟨hnew, hknown⟩
    · rcases h.new p hp with hp | ⟨hnew, hknown⟩
      · exact .inl hp
      · exact .inr ⟨hnew, h'.knows hknown⟩
    · exact .inr ⟨fun hknown => hnew (h.knows hknown), hknown⟩

theorem grows_of_parts (htable : T.table.symbols <:+ T'.table.symbols)
    (hlocals : T.locals <:+ T'.locals) (hparts : T'.integerParts = T.integerParts) :
    Grows T T' :=
  ⟨htable, hlocals, hparts ▸ List.suffix_refl _, fun _ hp => .inl (hparts ▸ hp)⟩

theorem grows_made (T : TermState) (stem : String) (sort : SmtSort) :
    Grows T (made T stem sort) :=
  grows_of_parts (List.suffix_cons _ _) (List.suffix_refl _) rfl

theorem grows_opened (T : TermState) (stem : String) (sort : SmtSort) :
    Grows T (opened T stem sort) :=
  grows_of_parts (List.suffix_cons _ _) (List.suffix_cons _ _) rfl

theorem grows_divided (T : TermState) (t : Term) : Grows T (divided T t) := by
  refine ⟨List.suffix_cons _ _, List.suffix_refl _, List.suffix_cons _ _, fun p hp => ?_⟩
  rcases List.mem_cons.mp hp with rfl | hp
  · exact .inr ⟨not_knows_fresh T _ _, knows_fresh_made T _ _⟩
  · exact .inl hp

theorem grows_leftover (T : TermState) (leftover : Leftover) : Grows T { T with leftover } :=
  grows_of_parts (List.suffix_refl _) (List.suffix_refl _) rfl

/-! ### Global and hidden symbols -/

theorem Global.grow (hs : T.Global D s) (h : Grows T T') : T'.Global D s :=
  hs.imp_right fun hpart => (h.parts.map Prod.fst).subset hpart

/-- A known symbol does not come to stand for an integer part. -/
theorem Global.of_grow (hs : T'.Global D s) (h : Grows T T') (hknown : T.Knows s) :
    T.Global D s := by
  rcases hs with hdeclared | hpart
  · exact .inl hdeclared
  · obtain ⟨p, hp, rfl⟩ := List.mem_map.mp hpart
    rcases h.new p hp with hp | ⟨hnew, _⟩
    · exact .inr (List.mem_map_of_mem hp)
    · exact absurd hknown hnew

theorem Visible.grow (hs : T.Visible D c s) (h : Grows T T') : T'.Visible D c s :=
  hs.imp_left fun hglobal => hglobal.grow h

theorem Visible.cons (hs : T.Visible D c s) (s' : Symbol) :
    T.Visible D (s' :: c) s :=
  hs.imp_right (List.mem_cons_of_mem s')

theorem Hidden.grow (hs : T.Hidden D c s) (h : Grows T T') : T'.Hidden D c s :=
  ⟨h.knows hs.1, fun hvisible => hs.2 (hvisible.imp_left fun hglobal => hglobal.of_grow h hs.1)⟩

/-- A symbol that is new does not become visible by the new one that is opened. -/
theorem Hidden.cons (hs : T.Hidden D c s) {s' : Symbol} (hnew : ¬ T.Knows s') :
    T.Hidden D (s' :: c) s := by
  refine ⟨hs.1, fun hvisible => ?_⟩
  rcases hvisible with hglobal | hmem
  · exact hs.2 (.inl hglobal)
  · rcases List.mem_cons.mp hmem with rfl | hmem
    · exact hnew hs.1
    · exact hs.2 (.inr hmem)

theorem not_global_of_new (hdeclared : ∀ s ∈ D, T.Knows s)
    (hparts : ∀ p ∈ T.integerParts, T.Knows p.1) (hnew : ¬ T.Knows s) : ¬ T.Global D s := by
  rintro (hs | hs)
  · exact hnew (hdeclared s hs)
  · obtain ⟨p, hp, rfl⟩ := List.mem_map.mp hs
    exact hnew (hparts p hp)

/-! ### Confined states -/

/-- New symbols and variables do no harm. -/
theorem Confined.grow (hT : T.Confined D) (h : Grows T T')
    (hparts : T'.integerParts = T.integerParts)
    (hlocals : ∀ s ∈ T'.locals, s ∈ T.locals ∨ ¬ T.Knows s ∧ T'.Knows s) :
    T'.Confined D := by
  have hglobal : T'.Global D = T.Global D := by
    funext s
    rw [Global, Global, hparts]
  refine ⟨fun s hs => h.knows (hT.declared s hs), ?_, fun s hs => ?_, ?_⟩
  · rw [hparts]
    exact fun p hp => h.knows (hT.parts p hp)
  · rw [hglobal]
    rcases hlocals s hs with hold | ⟨hnew, hknown⟩
    · exact ⟨h.knows (hT.locals s hold).1, (hT.locals s hold).2⟩
    · exact ⟨hknown, not_global_of_new hT.declared hT.parts hnew⟩
  · rw [hparts, hglobal]
    exact hT.operands

theorem Confined.opened (hT : T.Confined D) (stem : String) (sort : SmtSort) :
    (opened T stem sort).Confined D := by
  refine hT.grow (grows_opened T stem sort) rfl fun s hs => ?_
  rcases List.mem_cons.mp hs with rfl | hs
  · exact .inr ⟨not_knows_fresh T stem sort, knows_fresh_made T stem sort⟩
  · exact .inl hs

/-- The operand of a new integer part has no free local symbol. -/
theorem Confined.divided (hT : T.Confined D) {t : Term}
    (ht : t.Confined (T.Global D)) : (divided T t).Confined D := by
  have hgrows := grows_divided T t
  refine ⟨fun s hs => hgrows.knows (hT.declared s hs), ?_, fun s hs => ?_, ?_⟩
  · exact List.forall_mem_cons.mpr
      ⟨knows_fresh_made T _ _, fun p hp => hgrows.knows (hT.parts p hp)⟩
  · obtain ⟨hknown, hlocal⟩ := hT.locals s hs
    exact ⟨hgrows.knows hknown, fun hglobal => hlocal (hglobal.of_grow hgrows hknown)⟩
  · exact List.forall_mem_cons.mpr
      ⟨fun s hs => (ht s hs).grow hgrows, fun p hp s hs => (hT.operands p hp s hs).grow hgrows⟩

end TermState

open TermState

/-! ### Names -/

/-- Whether only allowed symbols are free in what a name stands for, the parameters of a definition
apart. -/
def Binding.Confined (allowed : Symbol → Prop) : Binding → Prop
  | .term t => t.Confined allowed
  | .definition d => d.body.Confined fun s => allowed s ∨ s ∈ d.parameters

/-- Whether the bound variables of what a name stands for are of a kind. A definition does not bind
its parameters once more. -/
def Binding.Tame (hidden : Symbol → Prop) : Binding → Prop
  | .term t => t.Tame hidden
  | .definition d => d.body.Tame fun s => hidden s ∧ s ∉ d.parameters

/-- Whether a definition takes values for its parameters. -/
structure Definition.Regular (d : Definition) : Prop where
  wellSorted : d.body.WellSorted
  tame : d.body.Tame fun _ => True
  parameters : ∀ s ∈ d.parameters, s.sort.isFunction = false

namespace Names

def Confined (names : Names) (allowed : Symbol → Prop) : Prop :=
  ∀ name binding, names.find? name = some binding → binding.Confined allowed

def Tame (names : Names) (hidden : Symbol → Prop) : Prop :=
  ∀ name binding, names.find? name = some binding → binding.Tame hidden

/-- Whether all definitions are regular. -/
def Regular (names : Names) : Prop :=
  ∀ name d, names.find? name = some (.definition d) → d.Regular

end Names

section

variable {names : Names} {allowed allowed' hidden hidden' : Symbol → Prop} {binding : Binding}
  {bound : List (String × Binding)}

theorem Term.Confined.mono {t : Term} (h : t.Confined allowed)
    (hsub : ∀ s, allowed s → allowed' s) : t.Confined allowed' :=
  fun s hs => hsub s (h s hs)

theorem Binding.Confined.mono (h : binding.Confined allowed)
    (hsub : ∀ s, allowed s → allowed' s) : binding.Confined allowed' := by
  cases binding with
  | term t => exact Term.Confined.mono h hsub
  | definition d => exact Term.Confined.mono h fun s => Or.imp_left (hsub s)

theorem Binding.Tame.mono (h : binding.Tame hidden) (hsub : ∀ s, hidden s → hidden' s) :
    binding.Tame hidden' := by
  cases binding with
  | term t => exact Term.Tame.mono h hsub
  | definition d => exact Term.Tame.mono h fun s => And.imp_left (hsub s)

/-- What a name of an extended environment stands for is one of the new terms, or what it stood for
before. -/
theorem Names.find?_extend_terms {good : Term → Prop} {name : String}
    (hbound : ∀ p ∈ bound, ∃ t, p.2 = .term t ∧ good t)
    (hfind : Environment.find? (names.extend bound) name = some binding) :
    (∃ t, binding = .term t ∧ good t) ∨ names.find? name = some binding := by
  rw [Environment.find?_extend] at hfind
  rcases Option.or_eq_some_iff.mp hfind with hlookup | ⟨_, hfind⟩
  · exact .inl (hbound _ (List.mem_reverse.mp (Environment.mem_of_lookup hlookup)))
  · exact .inr hfind

theorem Names.Confined.extend (h : names.Confined allowed)
    (hbound : ∀ p ∈ bound, ∃ t, p.2 = .term t ∧ t.Confined allowed) :
    Names.Confined (names.extend bound) allowed := by
  intro name binding hfind
  rcases Names.find?_extend_terms hbound hfind with ⟨t, rfl, ht⟩ | hfind
  · exact ht
  · exact h name binding hfind

theorem Names.Tame.extend (h : names.Tame hidden)
    (hbound : ∀ p ∈ bound, ∃ t, p.2 = .term t ∧ t.Tame hidden) :
    Names.Tame (names.extend bound) hidden := by
  intro name binding hfind
  rcases Names.find?_extend_terms hbound hfind with ⟨t, rfl, ht⟩ | hfind
  · exact ht
  · exact h name binding hfind

theorem Names.Regular.extend (h : names.Regular) (hbound : ∀ p ∈ bound, ∃ t, p.2 = .term t) :
    Names.Regular (names.extend bound) := by
  intro name d hfind
  have hterms : ∀ p ∈ bound, ∃ t, p.2 = Binding.term t ∧ True := fun p hp => by
    obtain ⟨t, ht⟩ := hbound p hp
    exact ⟨t, ht, trivial⟩
  rcases Names.find?_extend_terms hterms hfind with ⟨t, ht, _⟩ | hfind
  · cases ht
  · exact h name d hfind

end

namespace Term

variable {t u : Term} {σ : Substitution} {leftover : Leftover}

/-- Substitution that succeeds where nothing was left behind leaves nothing behind. -/
theorem instantiate_none {result : Except Fault Term}
    (h : t.instantiate σ none = (result, leftover)) (hu : result = .ok u) :
    t.substitute σ = .ok u ∧ leftover = none := by
  subst hu
  unfold instantiate at h
  split at h
  · cases h
  · unfold substituteOver at h
    simp only [substituted_eq] at h
    split at h
    · rename_i v hv
      obtain ⟨hvu, rfl⟩ := Prod.mk.inj h
      exact ⟨hv.trans hvu, rfl⟩
    · cases h

theorem confined_mkApply {allowed : Symbol → Prop} {f : Symbol} {ts : List Term}
    (h : mkApply f ts = .ok u) (hf : allowed f) (hts : ∀ t ∈ ts, t.Confined allowed) :
    u.Confined allowed := by
  intro s hs
  unfold mkApply at h
  split at h
  · obtain rfl := Except.ok.inj h
    obtain rfl : s = f := by simpa [freeSymbols] using hs
    exact hf
  · obtain ⟨_, rfl⟩ := checked_ok h
    have hs : s = f ∨ ∃ t ∈ ts, s ∈ t.freeSymbols := by
      simpa [freeSymbols, mem_freeSymbolsAll] using hs
    rcases hs with rfl | ⟨t, ht, hst⟩
    · exact hf
    · exact hts t ht s hst

end Term

/-- A parameter gets one of the values. -/
theorem lookup_zip_ne_none {parameters : List Symbol} {values : List Term} {s : Symbol}
    (hlen : values.length = parameters.length) (hs : s ∈ parameters) :
    (parameters.zip values).lookup s ≠ none := by
  obtain ⟨i, hi, rfl⟩ := List.mem_iff_getElem.mp hs
  have hi' : i < (parameters.zip values).length := by simp [hlen, hi]
  rw [Ne, List.lookup_eq_none_iff]
  intro hnone
  have hmem := hnone _ (List.getElem_mem hi')
  simp at hmem

/-- A definition that is applied leads to what its values and its body lead to. -/
theorem confined_substitute {allowed : Symbol → Prop} {d : Definition} {values : List Term}
    {u : Term} (h : d.body.substitute (d.parameters.zip values) = .ok u) (hregular : d.Regular)
    (hd : (Binding.definition d).Confined allowed) (hlen : values.length = d.parameters.length)
    (hvalues : ∀ t ∈ values, t.Confined allowed) : u.Confined allowed := by
  have hσ : ∀ p ∈ d.parameters.zip values, p.1.sort.isFunction = false := fun p hp =>
    hregular.parameters p.1 (List.of_mem_zip hp).1
  intro s hs
  rcases mem_freeSymbols_substitute h hregular.wellSorted hregular.tame hσ s hs with
    ⟨hfree, hlookup⟩ | ⟨p, hp, hsp⟩
  · refine (hd s hfree).resolve_right fun hparameter => ?_
    exact lookup_zip_ne_none hlen hparameter hlookup
  · exact hvalues p.2 (List.of_mem_zip hp).2 s hsp

/-! ### Translation -/

section

variable {D c : List Symbol} {names : Names} {T T' : TermState}

/-- What is known of the state and the environment where some symbols are open. -/
structure ConfinedIn (D c : List Symbol) (names : Names) (T : TermState) : Prop where
  terms : T.Confined D
  scope : ∀ s ∈ c, s ∈ T.locals ∨ T.Global D s
  regular : names.Regular
  names : names.Confined (T.Visible D c)

/-- What a step does to a confined state. -/
def StaysConfined (D : List Symbol) (T T' : TermState) : Prop :=
  Grows T T' ∧ (T' = T ∨ T'.Confined D)

theorem closed_staysConfined : Step.Closed (StaysConfined D) where
  refl T := ⟨closed_grows.refl T, .inl rfl⟩
  trans h h' := by
    refine ⟨closed_grows.trans h.1 h'.1, ?_⟩
    rcases h'.2 with rfl | hconfined
    · exact h.2
    · exact .inr hconfined

theorem StaysConfined.confined (h : StaysConfined D T T') (hT : T.Confined D) :
    T'.Confined D := by
  rcases h.2 with rfl | hconfined
  · exact hT
  · exact hconfined

theorem Names.Regular.of_bound {bound : List (String × Binding)} {good : Term → Prop}
    (h : names.Regular) (hbound : ∀ p ∈ bound, ∃ t, p.2 = .term t ∧ good t) :
    Names.Regular (names.extend bound) :=
  h.extend fun p hp => (hbound p hp).imp fun _ ht => ht.1

theorem ConfinedIn.grow (h : ConfinedIn D c names T) (hgrows : StaysConfined D T T') :
    ConfinedIn D c names T' := by
  refine ⟨hgrows.confined h.terms, fun s hs => ?_, h.regular, fun name binding hfind => ?_⟩
  · rcases h.scope s hs with hlocal | hglobal
    · exact .inl (hgrows.1.locals.subset hlocal)
    · exact .inr (hglobal.grow hgrows.1)
  · exact (h.names name binding hfind).mono fun _ hs => hs.grow hgrows.1

theorem ConfinedIn.opens (h : ConfinedIn D c names T) (stem : String) (sort : SmtSort) :
    ConfinedIn D (fresh T stem sort :: c) names (opened T stem sort) := by
  have hgrows := grows_opened T stem sort
  refine ⟨h.terms.opened stem sort, fun s hs => ?_, h.regular, fun name binding hfind => ?_⟩
  · rcases List.mem_cons.mp hs with rfl | hs
    · exact .inl List.mem_cons_self
    · rcases h.scope s hs with hlocal | hglobal
      · exact .inl (hgrows.locals.subset hlocal)
      · exact .inr (hglobal.grow hgrows)
  · exact (h.names name binding hfind).mono fun _ hs => (hs.grow hgrows).cons _

/-- A Real term without free local symbols has none but global ones. -/
theorem ConfinedIn.global {t : Term} (h : ConfinedIn D c names T)
    (ht : t.Confined (T.Visible D c)) (hlocals : t.symbols.any T.locals.contains = false) :
    t.Confined (T.Global D) := by
  intro s hs
  have hlocal : s ∉ T.locals := by
    intro hmem
    rw [← Bool.not_eq_true, List.any_eq_true] at hlocals
    exact hlocals ⟨s, (symbols_eq t).symm ▸ hs, List.contains_iff_mem.mpr hmem⟩
  rcases ht s hs with hglobal | hopened
  · exact hglobal
  · exact (h.scope s hopened).resolve_left hlocal

/-- As long as no substitution fails, only global and open symbols are free. -/
theorem kept_confined (D : List Symbol) : Kept anySort (StaysConfined D)
    (fun T => T.leftover = none) (ConfinedIn D)
    (fun c T t => t.Confined (T.Visible D c)) where
  closed := closed_staysConfined
  table h := h.1.table
  hereditary c T := hereditary_free (T.Visible D c)
  good_mono ht h := ht.mono fun _ hs => hs.grow h.1
  inv_mono hinv h _ := hinv.grow h
  find hinv hfind := hinv.names _ _ hfind
  extend hinv hbound :=
    ⟨hinv.terms, hinv.scope, hinv.regular.of_bound hbound, hinv.names.extend hbound⟩
  make {_ _ T} hinv hclean stem sort := by
    have hgrows := grows_made T stem sort
    have hconfined := hinv.terms.grow hgrows rfl fun _ => .inl
    refine ⟨⟨hgrows, .inr hconfined⟩, hclean, ?_, fun t ht s hs => ((ht s hs).grow hgrows).cons _⟩
    simp [Term.Confined, freeSymbols, Visible]
  opens {_ _ T} hinv hclean stem sort := by
    have hgrows := grows_opened T stem sort
    have hopens := hinv.opens stem sort
    refine ⟨⟨hgrows, .inr hopens.terms⟩, hclean, hopens, ?_,
      fun t ht s hs => ((ht s hs).grow hgrows).cons _⟩
    simp [Term.Confined, freeSymbols, Visible]
  closes _ _ _ _ _ hc ht hu := by
    intro s hs
    obtain ⟨hfree, hbound⟩ := mem_freeSymbols_mkQuantified hu hs
    exact (ht s hfree).imp_right fun hopen => ((hc s).mp hopen).resolve_left hbound
  part {_ _ T t} hinv hclean ht _ hlocals := by
    have hconfined := hinv.terms.divided (hinv.global ht hlocals)
    refine ⟨⟨grows_divided T t, .inr hconfined⟩, hclean, ?_⟩
    simp [Term.Confined, freeSymbols, Visible, Global, divided]
  application hf hargs hu := confined_mkApply hu (hf _ (by simp [freeSymbols])) hargs
  definition {c names T head d values result leftover} hinv hclean hfind hlen hvalues hrun := by
    rw [hclean] at hrun
    refine ⟨⟨grows_leftover T leftover, .inr ?_⟩, fun u hu => ?_⟩
    · exact ⟨hinv.terms.declared, hinv.terms.parts, hinv.terms.locals, hinv.terms.operands⟩
    · obtain ⟨hsubstitute, hleftover⟩ := instantiate_none hrun hu
      exact ⟨hleftover, confined_substitute hsubstitute (hinv.regular head d hfind)
        (hinv.names head _ hfind) hlen hvalues⟩

/-- What is known of bound variables where some symbols are open. -/
structure HiddenIn (D c : List Symbol) (names : Names) (T : TermState) : Prop where
  declared : ∀ s ∈ D, T.Knows s
  parts : ∀ p ∈ T.integerParts, T.Knows p.1
  scope : ∀ s ∈ c, T.Knows s
  names : names.Tame (T.Hidden D c)

theorem HiddenIn.grow (h : HiddenIn D c names T) (hgrows : Grows T T') :
    HiddenIn D c names T' := by
  refine ⟨fun s hs => hgrows.knows (h.declared s hs), fun p hp => ?_,
    fun s hs => hgrows.knows (h.scope s hs), fun name binding hfind => ?_⟩
  · rcases hgrows.new p hp with hp | ⟨_, hknown⟩
    · exact hgrows.knows (h.parts p hp)
    · exact hknown
  · exact (h.names name binding hfind).mono fun _ hs => hs.grow hgrows

theorem HiddenIn.opens (h : HiddenIn D c names T) (stem : String) (sort : SmtSort) :
    HiddenIn D (fresh T stem sort :: c) names (opened T stem sort) := by
  have hgrows := grows_opened T stem sort
  have hgrown := h.grow hgrows
  refine ⟨hgrown.declared, hgrown.parts, ?_, fun name binding hfind => ?_⟩
  · exact List.forall_mem_cons.mpr ⟨knows_fresh_made T stem sort, hgrown.scope⟩
  · exact (h.names name binding hfind).mono fun _ hs =>
      (hs.cons (not_knows_fresh T stem sort)).grow hgrows

/-- A variable that has been new is hidden once it is no longer open. -/
theorem HiddenIn.closes {T₁ T₂ : TermState} {s : Symbol} (h : HiddenIn D c names T)
    (hparts : T₁.integerParts = T.integerParts) (hnew : ¬ T.Knows s) (hknown : T₁.Knows s)
    (hgrows : Grows T₁ T₂) : T₂.Hidden D c s := by
  refine Hidden.grow (T := T₁) ⟨hknown, ?_⟩ hgrows
  rintro (hglobal | hopened)
  · rw [Global, hparts] at hglobal
    exact not_global_of_new h.declared h.parts hnew hglobal
  · exact hnew (h.scope s hopened)

/-- Whether the variables that are bound in integer parts are local. -/
def TameOperands (D : List Symbol) (T : TermState) : Prop :=
  ∀ p ∈ T.integerParts, p.2.Tame (T.Hidden D [])

/-- What a step does to a state in which bound variables are local. -/
def StaysTame (D : List Symbol) (T T' : TermState) : Prop :=
  Grows T T' ∧ (TameOperands D T → TameOperands D T')

theorem closed_staysTame : Step.Closed (StaysTame D) where
  refl T := ⟨closed_grows.refl T, id⟩
  trans h h' := ⟨closed_grows.trans h.1 h'.1, h'.2 ∘ h.2⟩

theorem staysTame_of_parts (h : Grows T T') (hparts : T'.integerParts = T.integerParts) :
    StaysTame D T T' := by
  refine ⟨h, fun htame p hp => ?_⟩
  rw [hparts] at hp
  exact (htame p hp).mono fun _ hs => hs.grow h

theorem staysTame_divided {t : Term} (ht : t.Tame (T.Hidden D c)) :
    StaysTame D T (divided T t) := by
  have hgrows := grows_divided T t
  refine ⟨hgrows, fun htame => List.forall_mem_cons.mpr ⟨?_, fun p hp => ?_⟩⟩
  · refine ht.mono fun s hs => Hidden.grow ⟨hs.1, fun hvisible => hs.2 ?_⟩ hgrows
    exact .inl (hvisible.resolve_right List.not_mem_nil)
  · exact (htame p hp).mono fun _ hs => hs.grow hgrows

/-- As long as no substitution fails, bound variables are neither global nor open. -/
theorem kept_hidden (D : List Symbol) : Kept anySort (StaysTame D) (fun T => T.leftover = none)
    (HiddenIn D) (fun c T t => t.Tame (T.Hidden D c)) where
  closed := closed_staysTame
  table h := h.1.table
  hereditary c T := hereditary_tame (T.Hidden D c)
  good_mono ht h := ht.mono fun _ hs => hs.grow h.1
  inv_mono hinv h _ := hinv.grow h.1
  find hinv hfind := hinv.names _ _ hfind
  extend hinv hbound := ⟨hinv.declared, hinv.parts, hinv.scope, hinv.names.extend hbound⟩
  make {_ _ T} _ hclean stem sort :=
    ⟨staysTame_of_parts (grows_made T stem sort) rfl, hclean, tame_symbol _,
      fun t ht => ht.mono fun _ hs =>
      (hs.cons (not_knows_fresh T stem sort)).grow (grows_made T stem sort)⟩
  opens {_ _ T} hinv hclean stem sort :=
    ⟨staysTame_of_parts (grows_opened T stem sort) rfl, hclean, hinv.opens stem sort, tame_symbol _,
      fun t ht => ht.mono fun _ hs =>
        (hs.cons (not_knows_fresh T stem sort)).grow (grows_opened T stem sort)⟩
  closes hinv hparts hnew _ hgrows hc ht hu := by
    refine tame_mkQuantified hu (ht.mono fun s hs => ⟨hs.1, fun hvisible => ?_⟩) fun s hs =>
      hinv.closes hparts (hnew s hs).1 (hnew s hs).2 hgrows.1
    exact hs.2 (hvisible.imp_right fun hmem => (hc s).mpr (.inr hmem))
  part _ hclean ht _ _ := ⟨staysTame_divided ht, hclean, tame_symbol _⟩
  application _ hargs hu := tame_mkApply hu hargs
  definition {c names T head d values result leftover} hinv hclean hfind _ hvalues hrun := by
    rw [hclean] at hrun
    refine ⟨staysTame_of_parts (grows_leftover T leftover) rfl, fun u hu => ?_⟩
    obtain ⟨hsubstitute, hleftover⟩ := instantiate_none hrun hu
    have hbody : d.body.Tame (T.Hidden D c) :=
      Term.Tame.mono (hinv.names head _ hfind) fun _ hs => hs.1
    exact ⟨hleftover, keeps_substitute (substitutive_tame _) hsubstitute hbody fun p hp =>
      hvalues p.2 (List.of_mem_zip hp).2⟩

/-! ### Scopes -/

/-- What a step does to the state where no substitution has failed before. -/
structure Continues (D : List Symbol) (T T' : TermState) : Prop where
  confined : StaysConfined D T T'
  tame : TameOperands D T → TameOperands D T'
  evolves : T.Evolves T'

/-- What is known of the state and the environment where some symbols are open and no substitution
has failed. -/
structure InScope (D c : List Symbol) (names : Names) (T : TermState) : Prop where
  confined : ConfinedIn D c names T
  hidden : HiddenIn D c names T
  terms : T.Sound
  names : Names.Sound names T.Knows

/-- What is known of terms there. -/
structure Term.Fair (D c : List Symbol) (T : TermState) (t : Term) : Prop where
  confined : t.Confined (T.Visible D c)
  tame : t.Tame (T.Hidden D c)
  sound : t.Sound T.Knows

theorem kept_scope (D : List Symbol) :
    Kept anySort (Continues D) (fun T => T.leftover = none) (InScope D) (Term.Fair D) := by
  refine (((kept_confined D).and (kept_hidden D)).and kept_sound).congr
    (fun T T' => ⟨fun h => ⟨h.1.1, h.1.2.2, h.2⟩,
      fun h => ⟨⟨h.confined, h.confined.1, h.tame⟩, h.evolves⟩⟩)
    (fun T => ⟨fun h => h.1.1, fun h => ⟨⟨h, h⟩, trivial⟩⟩) (fun c names T => ?_) fun c T t => ?_
  · exact ⟨fun h => ⟨h.1.1, h.1.2, h.2.1, h.2.2⟩,
      fun h => ⟨⟨h.confined, h.hidden⟩, h.terms, h.names⟩⟩
  · exact ⟨fun h => ⟨h.1.1, h.1.2, h.2⟩, fun h => ⟨⟨h.confined, h.tame⟩, h.sound⟩⟩

end

end SmtScript
