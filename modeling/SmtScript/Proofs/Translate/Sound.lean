import SmtScript.Proofs.Translate

/-!
Translation yields sound terms.

`translate_evolves`: in an environment of sound terms, whatever is translated is a sound term over
the symbols made so far, and a translation leaves a sound state whether it fails or not.
-/

namespace SmtScript

open Term TermState

variable {T : TermState} {names : Names}

namespace Translation

theorem evolves_made (T : TermState) (stem : String) (sort : SmtSort) :
    Evolves T (made T stem sort) :=
  evolves_table (List.suffix_cons _ _)

theorem evolves_opened (T : TermState) (stem : String) (sort : SmtSort) :
    Evolves T (opened T stem sort) :=
  closed_evolves.trans (evolves_made T stem sort) (evolves_locals _)

theorem freshSymbol_evolves (stem : String) (sort : SmtSort) :
    Step.Leads Evolves (freshSymbol stem sort) T fun T' s => T'.Knows s := by
  refine .of_run (run_freshSymbol stem sort T) (evolves_made T stem sort) ?_
  rintro _ ⟨⟩
  exact knows_fresh_made T stem sort

theorem freshLocal_evolves (stem : String) (sort : SmtSort) :
    Step.Leads Evolves (freshLocal stem sort) T fun T' s => T'.Knows s := by
  refine .of_run (run_freshLocal stem sort T) (evolves_opened T stem sort) ?_
  rintro _ ⟨⟩
  exact knows_fresh_made T stem sort

end Translation

open Translation

theorem sound_bindSymbols {declared : List (String × Symbol)}
    (h : ∀ p ∈ declared, T.Knows p.2) : ∀ p ∈ bindSymbols declared, p.2.Sound T.Knows := by
  intro p hp
  obtain ⟨q, hq, rfl⟩ := List.mem_map.mp hp
  exact sound_symbol.mpr (h q hq)

/-- Every step leaves a sound state, and terms that are put together from sound ones are sound. -/
theorem kept_sound : Kept anySort Evolves (fun _ => True)
    (fun _ names T => T.Sound ∧ Names.Sound names T.Knows) (fun _ T t => t.Sound T.Knows) where
  closed := closed_evolves
  table h := h.table
  hereditary _ T := hereditary_sound T.Knows
  good_mono ht h := ht.mono fun _ => h.knows
  inv_mono hinv h _ := ⟨h.sound hinv.1, hinv.2.mono fun _ => h.knows⟩
  find hinv hfind := hinv.2 _ _ hfind
  extend hinv hbound := by
    refine ⟨hinv.1, hinv.2.extend fun p hp => ?_⟩
    obtain ⟨t, hpt, ht⟩ := hbound p hp
    rw [hpt]
    exact ht
  make {_ _ T} _ _ stem sort := by
    have h := evolves_made T stem sort
    exact ⟨h, trivial, sound_symbol.mpr (knows_fresh_made T stem sort),
      fun t ht => ht.mono fun _ => h.knows⟩
  opens {_ _ T} hinv _ stem sort := by
    have h := evolves_opened T stem sort
    exact ⟨h, trivial, ⟨h.sound hinv.1, hinv.2.mono fun _ => h.knows⟩,
      sound_symbol.mpr (knows_fresh_made T stem sort), fun t ht => ht.mono fun _ => h.knows⟩
  closes _ _ _ _ _ _ ht hu := sound_mkQuantified hu (ht.mono fun _ => .inl)
  part _ _ ht hreal _ := by
    refine ⟨evolves_integerPart (not_knows_fresh _ _ _) rfl rfl fun _ => ⟨ht, hreal⟩, trivial, ?_⟩
    exact sound_symbol.mpr (knows_fresh_made _ _ _)
  application hf hargs hu := sound_mkApply hu (sound_symbol.mp hf) hargs
  definition {c names T head d values result leftover} hinv _ hfind _ hvalues hrun := by
    have hσ : SoundSubstitution T.Knows (d.parameters.zip values) := fun p hp =>
      hvalues p.2 (List.of_mem_zip hp).2
    have hinst (hT : T.Sound) := hσ.substituted.instantiate (hinv.2 head _ hfind) hT.leftover
    rw [hrun] at hinst
    exact ⟨evolves_leftover fun hT => (hinst hT).1,
      fun u hu => ⟨trivial, (hinst hinv.1).2 u hu⟩⟩

/-- Whatever is translated is sound. -/
theorem translate_evolves (sorts : SortTable) (s : SExpr) (hT : T.Sound)
    (hnames : names.Sound T.Knows) :
    Step.Leads Evolves (translate sorts names s) T fun T' t => t.Sound T'.Knows :=
  ((kept_sound.carries_all sorts fun _ _ _ _ => trivial).1 names s [] T ⟨hT, hnames⟩ trivial).mono
    fun _ _ _ h => h.2

end SmtScript
