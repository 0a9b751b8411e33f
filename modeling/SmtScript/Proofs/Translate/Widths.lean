import SmtScript.Proofs.Term.Widths
import SmtScript.Proofs.Translate.Confined
import SmtScript.Proofs.Translate.Symbols

/-!
Translation makes no bit-vectors without bits.

A symbol is admitted in a translation if it has bits or is new. Whatever translation puts together
is bounded by such symbols, and so are the operands of integer parts and what substitutions leave
behind, `kept_bounded`; and new symbols have bits, too. So it is enough that what the names stand
for is bounded, `translate_bounded`.
-/

namespace SmtScript

open Step Term Translation TermState

/-- Whether all bit-vectors in the sort of a symbol have bits. -/
def Symbol.HasBits (s : Symbol) : Prop := s.sort.HasBits

/-- Whether what a name stands for is bounded. -/
def Binding.Bounded (allowed : Symbol → Prop) : Binding → Prop
  | .term t => t.Bounded allowed
  | .definition d => d.body.Bounded allowed

def Names.Bounded (names : Names) (allowed : Symbol → Prop) : Prop :=
  ∀ name binding, names.find? name = some binding → binding.Bounded allowed

variable {T₀ T T' : TermState} {names : Names} {allowed allowed' : Symbol → Prop}

theorem Binding.Bounded.mono {binding : Binding} (h : binding.Bounded allowed)
    (hsub : ∀ s, allowed s → allowed' s) : binding.Bounded allowed' := by
  cases binding <;> exact Term.Bounded.mono h hsub

theorem Names.Bounded.mono (h : names.Bounded allowed) (hsub : ∀ s, allowed s → allowed' s) :
    names.Bounded allowed' :=
  fun name binding hfind => (h name binding hfind).mono hsub

theorem Names.Bounded.extend {bound : List (String × Binding)} (h : names.Bounded allowed)
    (hbound : ∀ p ∈ bound, ∃ t, p.2 = .term t ∧ t.Bounded allowed) :
    Names.Bounded (names.extend bound) allowed := by
  intro name binding hfind
  rcases Names.find?_extend_terms hbound hfind with ⟨t, rfl, ht⟩ | hfind
  · exact ht
  · exact h name binding hfind

namespace TermState

/-- Whether the terms of a state are bounded. -/
structure Bounded (T : TermState) (allowed : Symbol → Prop) : Prop where
  operands : ∀ p ∈ T.integerParts, p.2.Bounded allowed
  leftover : LeftoverAll (Term.Bounded allowed) T.leftover

theorem bounded_empty : TermState.empty.Bounded allowed := ⟨nofun, nofun⟩

theorem Bounded.mono (h : T.Bounded allowed) (hsub : ∀ s, allowed s → allowed' s) :
    T.Bounded allowed' :=
  ⟨fun p hp => (h.operands p hp).mono hsub, h.leftover.mono fun _ ht => ht.mono hsub⟩

theorem Bounded.of_eq (h : T.Bounded allowed) (hparts : T'.integerParts = T.integerParts)
    (hleftover : T'.leftover = T.leftover) : T'.Bounded allowed :=
  ⟨hparts ▸ h.operands, hleftover ▸ h.leftover⟩

/-- The symbols that are admitted since a state: those with bits, and new ones. -/
def Admits (T₀ T : TermState) (s : Symbol) : Prop := s.HasBits ∨ T.Knows s ∧ ¬ T₀.Knows s

theorem Admits.grow {s : Symbol} (h : T₀.Admits T s)
    (htable : T.table.symbols <:+ T'.table.symbols) : T₀.Admits T' s :=
  h.imp_right fun hnew => ⟨htable.subset hnew.1, hnew.2⟩

/-- What steps of translation do to a state since another one. -/
structure Extends (T₀ T T' : TermState) : Prop where
  table : T.table.symbols <:+ T'.table.symbols
  bounded : T.Bounded (T₀.Admits T) → T'.Bounded (T₀.Admits T')

theorem closed_extends (T₀ : TermState) : Closed (Extends T₀) where
  refl _ := ⟨List.suffix_refl _, id⟩
  trans h h' := ⟨h.table.trans h'.table, h'.bounded ∘ h.bounded⟩

theorem Extends.bounded_term {t : Term} (h : Extends T₀ T T') (ht : t.Bounded (T₀.Admits T)) :
    t.Bounded (T₀.Admits T') :=
  ht.mono fun _ hs => hs.grow h.table

/-- Symbols are added and the terms of the state stay as they are. -/
theorem extends_of_table (htable : T.table.symbols <:+ T'.table.symbols)
    (hparts : T'.integerParts = T.integerParts) (hleftover : T'.leftover = T.leftover) :
    Extends T₀ T T' :=
  ⟨htable, fun hT => (hT.mono fun _ hs => hs.grow htable).of_eq hparts hleftover⟩

theorem extends_made (T : TermState) (stem : String) (sort : SmtSort) :
    Extends T₀ T (made T stem sort) :=
  extends_of_table (List.suffix_cons _ _) rfl rfl

theorem extends_opened (T : TermState) (stem : String) (sort : SmtSort) :
    Extends T₀ T (opened T stem sort) :=
  extends_of_table (List.suffix_cons _ _) rfl rfl

theorem extends_divided {t : Term} (ht : t.Bounded (T₀.Admits T)) :
    Extends T₀ T (divided T t) := by
  have htable : T.table.symbols <:+ (divided T t).table.symbols := List.suffix_cons _ _
  refine ⟨htable, fun hT => ?_⟩
  have hT' := hT.mono fun _ hs => hs.grow htable
  exact ⟨List.forall_mem_cons.mpr ⟨ht.mono fun _ hs => hs.grow htable, hT'.operands⟩, hT'.leftover⟩

theorem extends_leftover {leftover : Leftover}
    (h : LeftoverAll (Term.Bounded (T₀.Admits T)) leftover) :
    Extends T₀ T { T with leftover } :=
  ⟨List.suffix_refl _, fun hT => ⟨hT.operands, h⟩⟩

/-- A new symbol is admitted. -/
theorem admits_fresh (h : T₀.table.symbols ⊆ T.table.symbols) (stem : String) (sort : SmtSort) :
    T₀.Admits (made T stem sort) (fresh T stem sort) :=
  .inr ⟨knows_fresh_made T stem sort, fun hknown => not_knows_fresh T stem sort (h hknown)⟩

end TermState

/-! ### Translation -/

/-- Whatever is put together since a state is bounded by the symbols that are admitted. -/
theorem kept_bounded (T₀ : TermState) : Kept SmtSort.HasBits (Extends T₀) (fun _ => True)
    (fun _ names T => T₀.table.symbols ⊆ T.table.symbols ∧ T.Bounded (T₀.Admits T) ∧
      names.Bounded (T₀.Admits T)) (fun _ T t => t.Bounded (T₀.Admits T)) where
  closed := closed_extends T₀
  table h := h.table
  hereditary _ T := hereditary_bounded _
  good_mono ht h := h.bounded_term ht
  inv_mono hinv h _ := ⟨List.Subset.trans hinv.1 h.table.subset, h.bounded hinv.2.1,
    hinv.2.2.mono fun _ hs => hs.grow h.table⟩
  find hinv hfind := hinv.2.2 _ _ hfind
  extend hinv hbound := ⟨hinv.1, hinv.2.1, hinv.2.2.extend hbound⟩
  make {_ _ T} hinv _ stem sort := by
    have h : Extends T₀ T (made T stem sort) := extends_made T stem sort
    exact ⟨h, trivial, bounded_symbol (admits_fresh hinv.1 stem sort), fun _ => h.bounded_term⟩
  opens {_ _ T} hinv _ stem sort := by
    have h : Extends T₀ T (opened T stem sort) := extends_opened T stem sort
    have hinv' := hinv.2.2.mono fun _ hs => hs.grow h.table
    exact ⟨h, trivial, ⟨List.Subset.trans hinv.1 h.table.subset, h.bounded hinv.2.1, hinv'⟩,
      bounded_symbol (admits_fresh hinv.1 stem sort), fun _ => h.bounded_term⟩
  closes hinv _ hnew _ h _ ht hu := bounded_mkQuantified hu ht fun s hs =>
    .inr ⟨h.table.subset (hnew s hs).2, fun hknown => (hnew s hs).1 (hinv.1 hknown)⟩
  part hinv _ ht _ _ :=
    ⟨extends_divided ht, trivial, bounded_symbol (admits_fresh hinv.1 "to_int_" .int)⟩
  application hf hargs hu := bounded_mkApply hu (head_allowed hf.1.1 _ rfl) hargs
  definition {c names T head d values result leftover} hinv _ hfind _ hvalues hrun := by
    have hσ : ∀ p ∈ d.parameters.zip values, p.2.Bounded (T₀.Admits T) := fun p hp =>
      hvalues p.2 (List.of_mem_zip hp).2
    have hinst := (substituted_bounded hσ).instantiate (hinv.2.2 head _ hfind) hinv.2.1.leftover
    rw [hrun] at hinst
    exact ⟨extends_leftover hinst.1, fun u hu => ⟨trivial, hinst.2 u hu⟩⟩

/-- What is bounded by symbols that are admitted since a state is bounded by symbols with bits, if
only such symbols have been made. -/
theorem Step.Leads.bounded {α : Type} {x : Translation α} {Q : (Symbol → Prop) → α → Prop}
    (h : Leads (Extends T) x T fun T' a => Q (T.Admits T') a)
    (hmakes : MakesOnly SmtSort.HasBits x T) (hT : T.Bounded Symbol.HasBits)
    (hmono : ∀ {allowed : Symbol → Prop} {a : α}, (∀ s, allowed s → s.HasBits) → Q allowed a →
      Q Symbol.HasBits a) :
    Leads (fun _ T' => T'.Bounded Symbol.HasBits) x T fun _ a => Q Symbol.HasBits a := by
  intro r T' hrun
  have hadmits (s : Symbol) (hs : T.Admits T' s) : s.HasBits :=
    hs.elim id fun hnew => ((hmakes _ _ hrun).1 s hnew.1).resolve_left hnew.2
  obtain ⟨hextends, hres⟩ := h r T' hrun
  exact ⟨(hextends.bounded (hT.mono fun _ => .inl)).mono hadmits,
    fun a ha => hmono hadmits (hres a ha)⟩

section

variable {sorts : SortTable} (hT : T.Bounded Symbol.HasBits) (hnames : names.Bounded Symbol.HasBits)

include hT hnames

theorem inv_bounded : T.table.symbols ⊆ T.table.symbols ∧ T.Bounded (T.Admits T) ∧
    names.Bounded (T.Admits T) :=
  ⟨List.Subset.refl _, hT.mono fun _ => .inl, hnames.mono fun _ => .inl⟩

/-- Whatever is translated where all bit-vectors have bits is a term in which they have. -/
theorem translate_bounded (s : SExpr) :
    Leads (fun _ T' => T'.Bounded Symbol.HasBits) (translate sorts names s) T
      fun _ t => t.Bounded Symbol.HasBits :=
  ((((kept_bounded T).carries_all sorts fun _ _ _ h => (SortTable.hasBits_of_parse h).1).1 names s
      [] T (inv_bounded hT hnames) trivial).mono fun _ _ _ h => h.2).bounded
    (Q := fun allowed t => t.Bounded allowed)
    ((translate_addsOnly trivial fun _ _ => SortTable.hasBits_of_parse).1 names s T) hT
    fun hsub h => h.mono hsub

theorem translateBindings_bounded (items : List SExpr) :
    Leads (fun _ T' => T'.Bounded Symbol.HasBits) (translateBindings sorts names items) T
      fun _ bound => ∀ p ∈ bound, ∃ t, p.2 = .term t ∧ t.Bounded Symbol.HasBits :=
  ((((kept_bounded T).carries_all sorts fun _ _ _ h => (SortTable.hasBits_of_parse h).1).2.2 names
      items [] T (inv_bounded hT hnames) trivial).mono fun _ _ _ h => h.2).bounded
    (Q := fun allowed bound => ∀ p ∈ bound, ∃ t, p.2 = .term t ∧ t.Bounded allowed)
    ((translate_addsOnly trivial fun _ _ => SortTable.hasBits_of_parse).2.2 names items T) hT
    fun hsub h p hp => (h p hp).imp fun _ ht => ⟨ht.1, ht.2.mono hsub⟩

/-- The variables of a quantifier have bits. -/
theorem declareVariables_bounded (declarations : List SExpr) :
    Leads (fun _ T' => T'.Bounded Symbol.HasBits) (declareVariables sorts declarations) T
      fun _ declared => ∀ p ∈ bindSymbols declared, ∃ t, p.2 = .term t ∧
        t.Bounded Symbol.HasBits :=
  (((kept_bounded T).opens_variables sorts declarations (c := []) (inv_bounded hT hnames)
      trivial).mono fun _ _ _ h => h.2.bindings).bounded
    (Q := fun allowed declared => ∀ p ∈ bindSymbols declared, ∃ t, p.2 = .term t ∧
      t.Bounded allowed)
    (declareVariables_makesOnly (fun _ _ => SortTable.hasBits_of_parse) declarations) hT
    fun hsub h p hp => (h p hp).imp fun _ ht => ⟨ht.1, ht.2.mono hsub⟩

end

end SmtScript
