import SmtScript.IntegerPart
import SmtScript.Proofs.Environment
import SmtScript.Proofs.Steps
import SmtScript.Proofs.Symbol
import SmtScript.Proofs.Term.Substitution

/-!
Sound states of translation.

In a sound state the operands of integer parts are well-sorted Real terms over symbols that were
made before. `TermState.Evolves` is what every step does to the state of translation: symbols and
integer parts stay and new ones are put before them, and a sound state stays sound.
-/

namespace SmtScript

/-- Whether no symbol for an integer part occurs in its own operand or in that of an older one, nor
stands for two of them. -/
def IntegerParts.Acyclic : IntegerParts → Prop
  | [] => True
  | (symbol, operand) :: older =>
    symbol ∉ operand.freeSymbols ∧
      (∀ p ∈ older, p.1 ≠ symbol ∧ symbol ∉ p.2.freeSymbols) ∧ Acyclic older

namespace TermState

/-- Whether a symbol has been made. -/
def Knows (T : TermState) (s : Symbol) : Prop := s ∈ T.table.symbols

structure Sound (T : TermState) : Prop where
  known : ∀ p ∈ T.integerParts, T.Knows p.1
  sort_symbol : ∀ p ∈ T.integerParts, p.1.sort = .int
  operand : ∀ p ∈ T.integerParts, p.2.Sound T.Knows
  sort_operand : ∀ p ∈ T.integerParts, p.2.sort = .real
  acyclic : IntegerParts.Acyclic T.integerParts
  leftover : Term.SoundLeftover T.Knows T.leftover

/-- Whether symbols and integer parts are kept, new integer parts have new symbols, and a sound
state stays sound. -/
structure Evolves (T T' : TermState) : Prop where
  table : T.table.symbols <:+ T'.table.symbols
  parts : T.integerParts <:+ T'.integerParts
  fresh : ∀ p ∈ T'.integerParts, p ∈ T.integerParts ∨ ¬ T.Knows p.1
  sound : T.Sound → T'.Sound

theorem closed_evolves : Step.Closed Evolves where
  refl _ := ⟨List.suffix_refl _, List.suffix_refl _, fun _ hp => .inl hp, id⟩
  trans h h' := by
    refine ⟨h.table.trans h'.table, h.parts.trans h'.parts, fun p hp => ?_,
      fun hs => h'.sound (h.sound hs)⟩
    rcases h'.fresh p hp with hp | hnew
    · exact h.fresh p hp
    · exact .inr fun hknown => hnew (h.table.subset hknown)

theorem Evolves.refl (T : TermState) : Evolves T T := closed_evolves.refl T

variable {T T' : TermState}

theorem Evolves.knows (h : Evolves T T') {s : Symbol} (hs : T.Knows s) : T'.Knows s :=
  h.table.subset hs

theorem sound_empty : TermState.empty.Sound where
  known := by simp [TermState.empty]
  sort_symbol := by simp [TermState.empty]
  operand := by simp [TermState.empty]
  sort_operand := by simp [TermState.empty]
  acyclic := trivial
  leftover := nofun

/-- More symbols do no harm. -/
theorem evolves_table {table : SymbolTable} (h : T.table.symbols <:+ table.symbols) :
    Evolves T { T with table } where
  table := h
  parts := List.suffix_refl _
  fresh _ hp := .inl hp
  sound hs :=
    { known := fun p hp => h.subset (hs.known p hp)
      sort_symbol := hs.sort_symbol
      operand := fun p hp => (hs.operand p hp).mono fun _ hs => h.subset hs
      sort_operand := hs.sort_operand
      acyclic := hs.acyclic
      leftover := hs.leftover.mono fun _ hs => h.subset hs }

theorem evolves_leftover {leftover : Term.Leftover}
    (h : T.Sound → Term.SoundLeftover T.Knows leftover) : Evolves T { T with leftover } where
  table := List.suffix_refl _
  parts := List.suffix_refl _
  fresh _ hp := .inl hp
  sound hs := { hs with leftover := h hs }

theorem evolves_locals (locals : List Symbol) : Evolves T { T with locals } where
  table := List.suffix_refl _
  parts := List.suffix_refl _
  fresh _ hp := .inl hp
  sound hs := { hs with }

/-- A new symbol stands for the integer part of a sound Real term. -/
theorem evolves_integerPart {symbol : Symbol} {operand : Term} {table : SymbolTable}
    (hnew : symbol ∉ T.table.symbols) (htable : table.symbols = symbol :: T.table.symbols)
    (hsort : symbol.sort = .int)
    (hoperand : T.Sound → operand.Sound T.Knows ∧ operand.sort = .real) :
    Evolves T { T with table, integerParts := (symbol, operand) :: T.integerParts } := by
  have hsuffix : T.table.symbols <:+ table.symbols := htable ▸ List.suffix_cons _ _
  have htable' := evolves_table hsuffix
  refine ⟨hsuffix, List.suffix_cons _ _, fun p hp => ?_, fun hs => ?_⟩
  · rcases List.mem_cons.mp hp with rfl | hp
    · exact .inr hnew
    · exact .inl hp
  obtain ⟨hsound, hreal⟩ := hoperand hs
  have hs' := htable'.sound hs
  have hsound' : operand.Sound fun s => s ∈ table.symbols :=
    hsound.mono fun s hs => hsuffix.subset hs
  have hfree {t : Term} (ht : t.Sound T.Knows) : symbol ∉ t.freeSymbols :=
    fun hmem => hnew (ht.free symbol hmem)
  refine ⟨?_, ?_, ?_, ?_, ⟨hfree hsound, fun p hp => ⟨?_, hfree (hs.operand p hp)⟩, hs.acyclic⟩,
    hs'.leftover⟩
  · exact List.forall_mem_cons.mpr ⟨by simp [Knows, htable], hs'.known⟩
  · exact List.forall_mem_cons.mpr ⟨hsort, hs.sort_symbol⟩
  · exact List.forall_mem_cons.mpr ⟨hsound', hs'.operand⟩
  · exact List.forall_mem_cons.mpr ⟨hreal, hs.sort_operand⟩
  · rintro rfl
    exact hnew (hs.known p hp)

end TermState

/-- Whether a name stands for a sound term or a function with a sound body. -/
def Binding.Sound (allowed : Symbol → Prop) : Binding → Prop
  | .term t => t.Sound allowed
  | .definition d => d.body.Sound allowed

theorem Binding.Sound.mono {allowed allowed' : Symbol → Prop} {binding : Binding}
    (h : binding.Sound allowed) (hsub : ∀ s, allowed s → allowed' s) :
    binding.Sound allowed' := by
  cases binding with
  | term t => exact Term.Sound.mono h hsub
  | definition d => exact Term.Sound.mono h hsub

namespace Names

/-- Whether all names stand for something sound. -/
def Sound (names : Names) (allowed : Symbol → Prop) : Prop :=
  ∀ name binding, names.find? name = some binding → binding.Sound allowed

theorem Sound.mono {names : Names} {allowed allowed' : Symbol → Prop} (h : names.Sound allowed)
    (hsub : ∀ s, allowed s → allowed' s) : Names.Sound names allowed' :=
  fun name binding hfind => (h name binding hfind).mono hsub

theorem Sound.extend {names : Names} {allowed : Symbol → Prop} (h : names.Sound allowed)
    {bindings : List (String × Binding)} (hb : ∀ p ∈ bindings, p.2.Sound allowed) :
    Names.Sound (names.extend bindings) allowed := by
  intro name binding hfind
  rw [Environment.find?_extend] at hfind
  rcases Option.or_eq_some_iff.mp hfind with hlookup | ⟨_, hfind⟩
  · exact hb _ (List.mem_reverse.mp (Environment.mem_of_lookup hlookup))
  · exact h name binding hfind

end Names

end SmtScript
