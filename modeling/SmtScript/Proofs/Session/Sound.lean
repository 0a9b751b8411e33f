import SmtScript.Proofs.Levels
import SmtScript.Proofs.Session.Move

/-!
Sound sessions.

In a sound session names stand for sound terms, and asserted terms are sound. Every move keeps a
session sound, `Moves.sound`.
-/

namespace SmtScript

namespace Session

open Solver

variable {σ μ α : Type} {S S' : Session σ μ}

structure Sound (S : Session σ μ) : Prop where
  terms : S.terms.Sound
  names : Names.Sound S.environment S.terms.Knows
  assertions : ∀ t ∈ S.assertions.items, t.Sound S.terms.Knows

theorem find?_environment (S : Session σ μ) (name : String) :
    Environment.find? S.environment name = S.names.get? name := rfl

theorem sound_start (configuration : Configuration) :
    (start configuration : Session σ μ).Sound where
  terms := TermState.sound_empty
  names := by simp [Names.Sound, find?_environment, start, Table.empty, Table.get?]
  assertions := by simp [start]

/-- A session stays sound as long as its terms evolve and its names and assertions stay, or new
assertions are sound. -/
theorem Sound.evolve (h : S.Sound) (hterms : S.terms.Evolves S'.terms)
    (hnames : S'.names = S.names)
    (hassertions : ∀ t ∈ S'.assertions.items,
      t ∈ S.assertions.items ∨ t.Sound S'.terms.Knows) : S'.Sound := by
  have hknows : ∀ s, S.terms.Knows s → S'.terms.Knows s := fun _ => hterms.knows
  refine ⟨hterms.sound h.terms, fun name binding hfind => ?_, fun t ht => ?_⟩
  · rw [find?_environment, hnames] at hfind
    exact (h.names name binding hfind).mono hknows
  · rcases hassertions t ht with hold | hsound
    · exact (h.assertions t hold).mono hknows
    · exact hsound

variable [Solver σ μ] [GrowingSolver σ μ]

theorem Called.evolves {call : SolverCall σ α} {r : Except Fault α} (hoffers : Offers call)
    (h : Called call S r S') : S.terms.Evolves S'.terms := by
  cases h with
  | intro hcontext hsolver hrun =>
    exact TermState.evolves_table (GrowingSolver.call hoffers hrun)

/-- A call and what is noted of it, other than new assertions. -/
theorem Sound.called {call : SolverCall σ α} {r : Except Fault α} (hS : S.Sound)
    (hoffers : Offers call) (h : Called call S r S') {S'' : Session σ μ}
    (hterms : S''.terms = S'.terms) (hnames : S''.names = S'.names)
    (hassertions : ∀ t ∈ S''.assertions.items, t ∈ S.assertions.items) : S''.Sound :=
  hS.evolve (hterms ▸ h.evolves hoffers) (hnames.trans h.names) fun t ht =>
    .inl (hassertions t ht)

theorem Move.sound (h : Move S S') (hS : S.Sound) : S'.Sound := by
  cases h with
  | note configuration sorts info => exact ⟨hS.terms, hS.names, hS.assertions⟩
  | translate hterms => exact hS.evolve hterms rfl fun t ht => .inl ht
  | bind name hbinding =>
    refine ⟨hS.terms, fun other binding' hfind => ?_, hS.assertions⟩
    rw [find?_environment, Table.get?_insert] at hfind
    split at hfind
    · exact Option.some.inj hfind ▸ hbinding
    · exact hS.names other binding' hfind
  | activate logic => exact ⟨hS.terms, hS.names, hS.assertions⟩
  | drop =>
    exact hS.evolve (by simpa using .refl _) (by simp) fun t ht => .inl (by simpa using ht)
  | refuse hoffers hcall =>
    exact hS.called hoffers hcall rfl rfl fun t ht => hcall.assertions ▸ ht
  | define _ _ hcall =>
    exact hS.called (.add _) hcall rfl rfl fun t ht => hcall.assertions ▸ ht
  | @assert S₁ u hu hparts hcall =>
    have hterms := hcall.evolves (.add _)
    refine hS.evolve (by simpa using hterms) (by simpa using hcall.names) fun t ht => ?_
    simp only [dropped_assertions, Levels.items_add, List.mem_append,
      List.mem_singleton] at ht
    rcases ht with ht | rfl
    · exact .inl (hcall.assertions ▸ ht)
    · exact .inr (by simpa using hu.mono fun _ => hterms.knows)
  | push _ hcall =>
    refine hS.called (.push _) hcall rfl rfl fun t ht => ?_
    rw [Levels.items_pushMany, hcall.assertions] at ht
    exact ht
  | pop _ hdepth hcall =>
    refine hS.called (.pop _) hcall rfl rfl fun t ht => ?_
    rw [hcall.assertions] at ht
    exact (Levels.items_popMany_sublist _ _).subset ht
  | clear _ hcall => exact hS.called .reset hcall rfl rfl fun t ht => by simp at ht
  | check _ _ hcall =>
    exact hS.called (.satisfiable _) hcall rfl rfl fun t ht => hcall.assertions ▸ ht
  | keep _ _ hcall =>
    exact hS.called .model hcall rfl rfl fun t ht => hcall.assertions ▸ ht
  | core _ hcall =>
    exact hS.called .core hcall rfl rfl fun t ht => hcall.assertions ▸ ht
  | ask hanswers hmodel hrun =>
    have htable := GrowingSolver.question hanswers hrun
    exact hS.evolve (TermState.evolves_table htable) rfl fun t ht => .inl ht
  | restart _ =>
    have h := sound_start (σ := σ) (μ := μ) S.initial
    exact ⟨h.terms, h.names, h.assertions⟩
  | exit _ =>
    exact hS.evolve (by simpa using .refl _) (by simp) fun t ht => .inl (by simpa using ht)

theorem Moves.sound (h : Moves S S') (hS : S.Sound) : S'.Sound := by
  induction h with
  | refl => exact hS
  | tail _ hmove ih => exact hmove.sound ih

end Session

end SmtScript
