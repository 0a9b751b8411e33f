import SmtScript.Proofs.Numeral
import SmtScript.Proofs.Term.Told
import SmtScript.Proofs.Translate

/-!
Steps of translation that tell why they fail.

Whatever part of a term is put together, a failure is told, except where a numeral has digits
without a value. What is told of applications depends on what is applied: see `applyOperator_owns`
and `applyBinding_term_owns`.
-/

namespace SmtScript

open Step Translation

variable {cause : Prop} {T : TermState} {sexpr s : SExpr} {ts : List Term}
  {t : Term}

/-- A sort is refused without a word where it has an ornate numeral. -/
theorem parse_owns (sorts : SortTable) (hnumeral : s.HasOrnateNumeral → cause) :
    Owns (fun _ => cause) (ExceptT.mk (pure (sorts.parse s)) : Translation SmtSort) T :=
  .mk fun _ he hsilent => hnumeral (SortTable.parse_silent he hsilent)

theorem index_owns (hnumeral : s.HasOrnateNumeral → cause) :
    Owns (fun _ => cause) (index sexpr s) T := by
  unfold index
  split
  · split
    · exact Stops.pure _
    · exact .throw rfl
    · rename_i hread
      exact Stops.throw fun _ => hnumeral ⟨_, .whole, hread⟩
  · exact .throw rfl

theorem readIndices_owns {name : String} {op : IndexedOperator} {indices : List SExpr}
    (hnumeral : ∀ s ∈ indices, s.HasOrnateNumeral → cause) :
    Owns (fun _ => cause) (readIndices name sexpr op indices) T := by
  unfold readIndices
  split
  · clear * - hnumeral
    induction indices generalizing T with
    | nil => exact Stops.pure _
    | cons s rest ih =>
      obtain ⟨hfirst, hrest⟩ := List.forall_mem_cons.mp hnumeral
      rw [List.mapM_cons]
      exact Stops.bind (index_owns hfirst) fun _ _ _ =>
        Stops.bind (ih hrest) fun _ _ _ => Stops.pure _
  · exact .throw rfl

theorem ascribedArray_owns (sorts : SortTable)
    (hnumeral : s.HasOrnateNumeral → cause) :
    Owns (fun _ => cause) (ascribedArray sorts sexpr s) T := by
  refine Stops.bind (parse_owns sorts hnumeral) fun sort T' _ => ?_
  split
  · exact Stops.pure _
  · exact Owns.throw rfl

theorem declareVariables_owns (sorts : SortTable) {declarations : List SExpr}
    (hnumeral : ∀ s ∈ declarations, s.HasOrnateNumeral → cause) :
    Owns (fun _ => cause) (declareVariables sorts declarations) T := by
  induction declarations generalizing T with
  | nil => exact Stops.pure _
  | cons declaration rest ih =>
    obtain ⟨hfirst, hrest⟩ := List.forall_mem_cons.mp hnumeral
    unfold declareVariables
    split
    · exact Stops.pure _
    · rename_i name sort rest' heq
      obtain ⟨rfl, rfl⟩ := List.cons.inj heq
      refine Stops.bind (parse_owns sorts fun hornate =>
        hfirst (hornate.mono (SExpr.inside_of_mem (by simp)))) fun sort T₁ _ => ?_
      refine Stops.bind (.of_ok (run_freshLocal _ _ _)) fun s T₂ _ => ?_
      exact Stops.bind (ih hrest) fun _ _ _ => Stops.pure _
    · exact .throw rfl

theorem indexedConstant_owns {items : List SExpr}
    (hnumeral : ∀ s ∈ items, s.HasOrnateNumeral → cause) :
    Owns (fun _ => cause) (indexedConstant items) T := by
  unfold indexedConstant
  split
  · split
    · exact .throw rfl
    · refine Stops.bind (index_owns (hnumeral _ (by simp))) fun width T' _ => ?_
      split
      · exact Stops.bind (Owns.throw rfl) fun _ _ h => nomatch h
      · exact Owns.told ((Term.told_mkBits _ _).mapError fun _ h => h)
  · exact .throw rfl

/-! ### Nodes -/

theorem node_owns {operands : List Term} {x : Except Fault Term} (h : Term.Told x) :
    Owns (fun _ => cause) (node sexpr operands x) T :=
  .told (h.mapError fun _ hsilent => hsilent)

theorem bareNode_owns {x : Except Fault Term} (h : Term.Told x) :
    Owns (fun _ => cause) (bareNode x) T :=
  .told (h.mapError fun _ hsilent => hsilent)

/-- An Int term can always be lifted to Real. -/
theorem liftTo_ok (sort : SmtSort) (t : Term) : ∃ u, liftTo sort t = .ok u := by
  unfold liftTo
  split
  · unfold Term.liftToReal
    split
    · rename_i hint
      have hsort : t.sort = .int := by simpa [Term.isInt] using hint
      unfold Term.mkToReal
      split
      · exact ⟨_, rfl⟩
      · exact ⟨_, rfl⟩
      · exact ⟨_, by simp [Term.checked, Term.fits, hint]; rfl⟩
      · simp_all
    · exact ⟨_, rfl⟩
  · exact ⟨_, rfl⟩

theorem liftAllTo_ok (sorts : List SmtSort) (ts : List Term) :
    ∃ us, liftAllTo sorts ts = .ok us := by
  unfold liftAllTo
  induction sorts.zip ts with
  | nil => exact ⟨_, rfl⟩
  | cons p rest ih =>
    obtain ⟨sort, t⟩ := p
    obtain ⟨u, hu⟩ := liftTo_ok sort t
    obtain ⟨us, hus⟩ := ih
    refine ⟨u :: us, ?_⟩
    rw [List.mapM_cons]
    dsimp only
    rw [hu, hus]
    rfl

theorem integerPart_owns (t : Term) : Owns (fun _ => cause) (integerPart t) T := by
  unfold integerPart
  split
  · exact Stops.pure _
  · exact Stops.pure _
  · refine Stops.get ?_
    split
    · exact Owns.throw rfl
    · exact .of_ok rfl
  · exact .throw rfl

theorem isIntegral_owns (t : Term) : Owns (fun _ => cause) (isIntegral sexpr t) T := by
  refine Stops.bind (node_owns (Term.told_liftToReal t)) fun number T₁ _ => ?_
  refine Stops.bind (.of_ok (run_freshSymbol _ _ _)) fun witness T₂ _ => ?_
  exact node_owns (.bind (Term.told_mkToReal _) fun _ _ =>
    .bind (Term.told_checked _) fun _ _ => Term.told_mkQuantified _ _ _)

theorem constantArray_owns (index element : SmtSort) (t : Term) :
    Owns (fun _ => cause) (constantArray sexpr index element t) T := by
  obtain ⟨value, hvalue⟩ := liftTo_ok element t
  unfold constantArray
  rw [hvalue]
  exact Stops.bind (bareNode_owns (.ok _)) fun _ _ _ => node_owns (Term.told_checked _)

theorem quantify_owns (q : Quantifier) (declared : List (String × Symbol)) (body : Term) :
    Owns (fun _ => cause) (quantify sexpr q declared body) T :=
  .told ((Term.told_mkQuantified _ _ _).mapError fun _ h => h)

/-- A literal that cannot be read is told to be none. -/
theorem Literal.read_told (atom : String) : Tells (·.isSilent = true) (Literal.read atom) := by
  have hnumber : Tells (·.isSilent = true) (Literal.number? atom) := by
    unfold Literal.number?
    dsimp only
    split
    · exact .ok _
    · split
      · exact .ok _
      · split
        · exact .error (by simp [Error.isSilent])
        · exact .ok _
    · exact .ok _
  unfold Literal.read
  split
  · exact .ok _
  · split
    · exact .ok _
    · split
      · split
        · exact .ok _
        · exact .error (by simp [Error.isSilent])
      · split
        · exact .ok _
        · exact .error (by simp [Error.isSilent])
      · split
        · exact .ok _
        · exact .error (by simp [Error.isSilent])
        · exact .error (hnumber _ ‹_›)

theorem translateAtom_owns (names : Names) (atom : String) :
    Owns (fun _ => cause) (translateAtom names atom) T := by
  unfold translateAtom
  split
  · exact Stops.pure _
  · exact .throw rfl
  · exact .told ((Literal.read_told atom).map _)

/-! ### Operators -/

/-- An indexed operator is applied to bit-vectors only. -/
theorem IndexedOperator.apply_told {op : IndexedOperator} {indices : List Nat}
    (h : t.isBitVec = true) : Term.Answered (op.apply indices t) := by
  unfold IndexedOperator.apply
  split
  · split
    · rename_i high low hguard
      obtain ⟨hle, hhigh⟩ := by simpa using hguard
      exact Term.answered_lift (Term.told_mkExtract (by omega) hle)
    · exact .error (by simp [Refusal.Silent, Error.isSilent])
  · exact Term.answered_lift (Term.told_mkCopies h _).1
  · exact Term.answered_lift (Term.told_mkWiden _ _ h)
  · exact Term.answered_lift (Term.told_mkRotate _ _ h)
  · exact .error (by simp [Refusal.Silent])

theorem applyIndexed_owns (name : String) (op : IndexedOperator) (indices : List Nat) (t : Term) :
    Owns (fun _ => cause) (applyIndexed name sexpr op indices t) T := by
  unfold applyIndexed
  split
  · rename_i hbits
    exact .told ((IndexedOperator.apply_told hbits).mapError fun _ => Refusal.silent_of_toError)
  · exact .throw rfl

/-- An operator is refused without a word only if it asks for the bits of operands of which some
have none. -/
theorem applyOperator_owns {name : String} {op : Operator}
    (hoperand : op.takesBits = true → ¬ (∀ t ∈ ts, t.HasBits) → cause) :
    Owns (fun _ => cause) (applyOperator name sexpr op ts) T := by
  by_cases h : op.takesBits = true → ∀ t ∈ ts, t.HasBits
  · exact .told ((Operator.apply_told h).mapError fun _ => Refusal.silent_of_toError)
  · obtain ⟨hbits, hnone⟩ := Classical.not_imp.mp h
    exact fun _ _ _ _ => hoperand hbits hnone

/-- A function is refused its arguments without a word only if it is no symbol. -/
theorem applyBinding_term_owns {name : String}
    (hfunction : t.sort.isFunction = true → (∀ f, t ≠ .symbol f) → cause) :
    Owns (fun _ => cause) (applyBinding name sexpr (.term t) ts) T := by
  simp only [applyBinding]
  split
  · rename_i hsort
    obtain ⟨values, hvalues⟩ := liftAllTo_ok t.sort.domains ts
    split
    · exact .throw rfl
    · rw [hvalues]
      split
      · exact node_owns (Term.told_mkApply _ _)
      · rename_i hsymbol
        exact Stops.throw fun _ => hfunction hsort fun f hf => hsymbol f values hf rfl
  · split
    · exact Stops.pure _
    · exact .throw rfl

end SmtScript
