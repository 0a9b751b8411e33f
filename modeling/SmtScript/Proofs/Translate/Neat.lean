import SmtScript.Proofs.Solver
import SmtScript.Proofs.Translate.Confined

/-!
Variables that are bound somewhere.

Whatever becomes of substitutions, a variable that is bound in a term has been made, and it never
stands for an integer part: `TermState.Bindable`. `kept_neat` says this of all that translation
puts together, of the operands of integer parts, and of what broken substitutions leave behind.
-/

namespace SmtScript

open Term Translation

namespace TermState

/-- Whether a symbol has been made and stands for no integer part. -/
def Bindable (T : TermState) (s : Symbol) : Prop :=
  T.Knows s ∧ s ∉ T.integerParts.map Prod.fst

/-- Whether only such symbols are bound in the terms of a state. -/
structure Neat (T : TermState) : Prop where
  parts : ∀ p ∈ T.integerParts, T.Knows p.1
  operands : ∀ p ∈ T.integerParts, p.2.Tame T.Bindable
  leftover : LeftoverAll (Tame T.Bindable) T.leftover

theorem neat_empty : TermState.empty.Neat := ⟨nofun, nofun, nofun⟩

variable {T T' : TermState} {s : Symbol}

/-- A known symbol does not come to stand for an integer part. -/
theorem Bindable.grow (hs : T.Bindable s) (h : Grows T T') : T'.Bindable s := by
  refine ⟨h.knows hs.1, fun hpart => ?_⟩
  obtain ⟨p, hp, rfl⟩ := List.mem_map.mp hpart
  rcases h.new p hp with hold | ⟨hnew, _⟩
  · exact hs.2 (List.mem_map_of_mem hold)
  · exact hnew hs.1

theorem Neat.grow (hT : T.Neat) (h : Grows T T')
    (hoperands : ∀ p ∈ T'.integerParts, p ∈ T.integerParts ∨ p.2.Tame T.Bindable)
    (hleftover : LeftoverAll (Tame T.Bindable) T'.leftover) : T'.Neat where
  parts p hp := by
    rcases h.new p hp with hold | ⟨_, hknown⟩
    · exact h.knows (hT.parts p hold)
    · exact hknown
  operands p hp := by
    have htame : p.2.Tame T.Bindable := (hoperands p hp).elim (hT.operands p) id
    exact htame.mono fun _ hs => hs.grow h
  leftover := hleftover.mono fun _ ht => ht.mono fun _ hs => hs.grow h

/-- A variable that has been new, and then made, can be bound later. -/
theorem Neat.bindable {T₁ T₂ : TermState} (hT : T.Neat) (hparts : T₁.integerParts = T.integerParts)
    (hnew : ¬ T.Knows s) (hknown : T₁.Knows s) (h : Grows T₁ T₂) : T₂.Bindable s := by
  refine Bindable.grow ⟨hknown, fun hpart => hnew ?_⟩ h
  rw [hparts] at hpart
  obtain ⟨p, hp, rfl⟩ := List.mem_map.mp hpart
  exact hT.parts p hp

variable {σ μ : Type} [Solver σ μ]

/-- What any step, with the calls of a solver in it, does to the state of translation. -/
structure Widens (σ : Type) {μ : Type} [Solver σ μ] (T T' : TermState) : Prop where
  table : Relation.ReflTransGen (Solver.Enlarges σ) T.table T'.table
  grows : Grows T T'
  neat : T.Neat → T'.Neat

theorem closed_widens : Step.Closed (Widens σ) where
  refl T := ⟨.refl, closed_grows.refl T, id⟩
  trans h h' :=
    ⟨h.table.trans h'.table, closed_grows.trans h.grows h'.grows, h'.neat ∘ h.neat⟩

/-- Terms and substitutions stay as they are. -/
theorem widens_table {table : SymbolTable} (h : Solver.Enlarges σ T.table table)
    (hsuffix : T.table.symbols <:+ table.symbols) : Widens σ T { T with table } := by
  have hgrows : Grows T { T with table } := grows_of_parts hsuffix (List.suffix_refl _) rfl
  exact ⟨.single h, hgrows, fun hT => hT.grow hgrows (fun _ => .inl) hT.leftover⟩

theorem widens_made (T : TermState) (stem : String) (sort : SmtSort) :
    Widens σ T (made T stem sort) :=
  widens_table (.make (T.table.hasName_fresh stem sort) _) (List.suffix_cons _ _)

theorem widens_opened (T : TermState) (stem : String) (sort : SmtSort) :
    Widens σ T (opened T stem sort) := by
  have hgrows := grows_opened T stem sort
  exact ⟨(widens_made T stem sort).table, hgrows,
    fun hT => hT.grow hgrows (fun _ => .inl) hT.leftover⟩

theorem widens_divided {t : Term} (ht : t.Tame T.Bindable) : Widens σ T (divided T t) := by
  have hgrows := grows_divided T t
  refine ⟨(widens_made T _ _).table, hgrows, fun hT => hT.grow hgrows (fun p hp => ?_) hT.leftover⟩
  rcases List.mem_cons.mp hp with rfl | hp
  · exact .inr ht
  · exact .inl hp

theorem widens_leftover {leftover : Leftover}
    (h : T.Neat → LeftoverAll (Tame T.Bindable) leftover) : Widens σ T { T with leftover } :=
  ⟨.refl, grows_leftover T leftover,
    fun hT => hT.grow (grows_leftover T leftover) (fun _ => .inl) (h hT)⟩

end TermState

open TermState

/-! ### Names -/

/-- Whether only variables that can be bound are bound in what a name stands for. -/
def Binding.Neat (T : TermState) : Binding → Prop
  | .term t => t.Tame T.Bindable
  | .definition d => d.body.Tame T.Bindable ∧ ∀ s ∈ d.parameters, T.Knows s

def Names.Neat (names : Names) (T : TermState) : Prop :=
  ∀ name binding, names.find? name = some binding → binding.Neat T

variable {T T' : TermState} {names : Names} {binding : Binding}

theorem Binding.Neat.grow (h : binding.Neat T) (hgrows : Grows T T') : binding.Neat T' := by
  cases binding with
  | term t => exact Term.Tame.mono h fun _ hs => hs.grow hgrows
  | definition d => exact ⟨h.1.mono fun _ hs => hs.grow hgrows, fun s hs => hgrows.knows (h.2 s hs)⟩

theorem Names.Neat.grow (h : names.Neat T) (hgrows : Grows T T') : names.Neat T' :=
  fun name binding hfind => (h name binding hfind).grow hgrows

theorem Names.Neat.extend {bound : List (String × Binding)} (h : names.Neat T)
    (hbound : ∀ p ∈ bound, ∃ t, p.2 = .term t ∧ t.Tame T.Bindable) :
    Names.Neat (names.extend bound) T := by
  intro name binding hfind
  rcases Names.find?_extend_terms hbound hfind with ⟨t, rfl, ht⟩ | hfind
  · exact ht
  · exact h name binding hfind

/-! ### Translation -/

/-- Only variables that can be bound are bound in what is translated, whatever has been left behind
by substitutions. -/
theorem kept_neat (σ : Type) {μ : Type} [Solver σ μ] : Kept anySort (Widens σ) (fun _ => True)
    (fun _ names T => T.Neat ∧ names.Neat T) (fun _ T t => t.Tame T.Bindable) where
  closed := closed_widens
  table h := h.grows.table
  hereditary _ T := hereditary_tame T.Bindable
  good_mono ht h := ht.mono fun _ hs => hs.grow h.grows
  inv_mono hinv h _ := ⟨h.neat hinv.1, hinv.2.grow h.grows⟩
  find hinv hfind := hinv.2 _ _ hfind
  extend hinv hbound := ⟨hinv.1, hinv.2.extend hbound⟩
  make {_ _ T} _ _ stem sort :=
    ⟨widens_made T stem sort, trivial, tame_symbol _,
      fun t ht => ht.mono fun _ hs => hs.grow (grows_made T stem sort)⟩
  opens {_ _ T} hinv _ stem sort := by
    have hgrows := grows_opened T stem sort
    have hwidens : Widens σ T (opened T stem sort) := widens_opened T stem sort
    exact ⟨hwidens, trivial, ⟨hwidens.neat hinv.1, hinv.2.grow hgrows⟩, tame_symbol _,
      fun t ht => ht.mono fun _ hs => hs.grow hgrows⟩
  closes hinv hparts hnew _ h _ ht hu :=
    tame_mkQuantified hu ht fun s hs =>
      hinv.1.bindable hparts (hnew s hs).1 (hnew s hs).2 h.grows
  part _ _ ht _ _ := ⟨widens_divided ht, trivial, tame_symbol _⟩
  application _ hargs hu := tame_mkApply hu hargs
  definition {c names T head d values result leftover} hinv _ hfind _ hvalues hrun := by
    have hσ : ∀ p ∈ d.parameters.zip values, p.2.Tame T.Bindable := fun p hp =>
      hvalues p.2 (List.of_mem_zip hp).2
    have hinst := ((substitutive_tame T.Bindable).substituted hσ).instantiate
      (hinv.2 head _ hfind).1 hinv.1.leftover
    rw [hrun] at hinst
    exact ⟨widens_leftover fun _ => hinst.1, fun u hu => ⟨trivial, hinst.2 u hu⟩⟩

theorem translate_neat (σ : Type) {μ : Type} [Solver σ μ] (sorts : SortTable) (s : SExpr)
    (hT : T.Neat) (hnames : names.Neat T) :
    Step.Leads (Widens σ) (translate sorts names s) T fun T' t => t.Tame T'.Bindable :=
  (((kept_neat σ).carries_all sorts fun _ _ _ _ => trivial).1 names s [] T ⟨hT, hnames⟩
    trivial).mono fun _ _ _ h => h.2

end SmtScript
