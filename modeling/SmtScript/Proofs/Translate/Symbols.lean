import SmtScript.Proofs.Translate

/-!
Sorts of the symbols that translation makes.

Translation makes symbols for variables, of sorts that it reads, and Int symbols for integer parts.
So each symbol of the table is an old one or has a sort of a kind to which Int and all sorts belong
that can be read, `translate_addsOnly`.
-/

namespace SmtScript

open Step Translation

variable {W : SmtSort → Prop} {α β : Type} {T T' : TermState}

namespace TermState

/-- Whether all new symbols have sorts of a kind. -/
def AddsOnly (W : SmtSort → Prop) (T T' : TermState) : Prop :=
  ∀ s, T'.Knows s → T.Knows s ∨ W s.sort

theorem closed_addsOnly (W : SmtSort → Prop) : Closed (AddsOnly W) where
  refl _ _ := .inl
  trans h h' s hs := (h' s hs).elim (h s) .inr

theorem addsOnly_of_table (h : T'.table = T.table) : AddsOnly W T T' := fun s hs => by
  rw [Knows, h] at hs
  exact .inl hs

theorem addsOnly_of_cons {s : Symbol} (h : T'.table.symbols = s :: T.table.symbols)
    (hs : W s.sort) : AddsOnly W T T' := by
  intro s' hs'
  rw [Knows, h] at hs'
  rcases List.mem_cons.mp hs' with rfl | hold
  · exact .inr hs
  · exact .inl hold

end TermState

open TermState

namespace Translation

/-- Whether a step makes symbols of a kind only, whether it fails or not. -/
abbrev MakesOnly (W : SmtSort → Prop) (x : Translation α) (T : TermState) : Prop :=
  Leads (AddsOnly W) x T fun _ _ => True

theorem MakesOnly.bind {x : Translation α} {f : α → Translation β} (hx : MakesOnly W x T)
    (hf : ∀ a T', MakesOnly W (f a) T') : MakesOnly W (x >>= f) T :=
  Leads.bind (closed_addsOnly W) hx fun a T' _ _ => hf a T'

theorem MakesOnly.of_same {x : Translation α} {Q : TermState → α → Prop} (h : Leads Eq x T Q) :
    MakesOnly W x T :=
  (h.mono fun _ _ _ _ => trivial).weaken fun _ h => h ▸ (closed_addsOnly W).refl _

theorem MakesOnly.get {f : TermState → Translation α} (h : MakesOnly W (f T) T) :
    MakesOnly W (MonadState.get >>= f) T :=
  Leads.get h

theorem MakesOnly.pure (a : α) : MakesOnly W (Pure.pure a) T :=
  .of_same (Q := fun _ _ => True) (.pure closed_eq trivial)

theorem MakesOnly.throw (e : Error) : MakesOnly W (MonadExcept.throw e : Translation α) T :=
  .of_same (Q := fun _ _ => True) (.throw closed_eq e)

theorem MakesOnly.mk (r : Except Error α) : MakesOnly W (ExceptT.mk (Pure.pure r)) T :=
  .of_same (Q := fun _ _ => True) (.mk closed_eq fun _ _ => trivial)

/-- Nothing that translation makes is new but in the table. -/
theorem MakesOnly.of_run {x : Translation α} {r : Except Error α} (hrun : x.run T = (r, T'))
    (h : T'.table = T.table) : MakesOnly W x T :=
  Leads.of_run hrun (addsOnly_of_table h) fun _ _ => trivial

variable {sexpr : SExpr}

theorem freshSymbol_makesOnly (stem : String) {sort : SmtSort} (hsort : W sort) :
    MakesOnly W (freshSymbol stem sort) T :=
  Leads.of_run (run_freshSymbol stem sort T) (addsOnly_of_cons rfl hsort) fun _ _ => trivial

theorem freshLocal_makesOnly (stem : String) {sort : SmtSort} (hsort : W sort) :
    MakesOnly W (freshLocal stem sort) T :=
  Leads.of_run (run_freshLocal stem sort T) (addsOnly_of_cons rfl hsort) fun _ _ => trivial

section

variable {sorts : SortTable} (hparse : ∀ s sort, sorts.parse s = .ok sort → W sort)

include hparse

theorem declareVariables_makesOnly (declarations : List SExpr) :
    MakesOnly W (declareVariables sorts declarations) T := by
  induction declarations generalizing T with
  | nil => exact .pure _
  | cons declaration rest ih =>
    unfold declareVariables
    split
    · contradiction
    · rename_i sexpr _ heq
      obtain ⟨rfl, rfl⟩ := List.cons.inj heq
      refine Leads.bind_same (Q := fun _ sort => sorts.parse sexpr = .ok sort)
        ((closed_addsOnly W).refl T) (.mk closed_eq fun _ => id) fun sort hsort => ?_
      refine MakesOnly.bind (freshLocal_makesOnly _ (hparse _ _ hsort)) fun _ _ => ?_
      exact .bind ih fun _ _ => .pure _
    · exact .throw _

end

theorem integerPart_makesOnly (hint : W .int) (t : Term) : MakesOnly W (integerPart t) T := by
  unfold integerPart
  split
  · exact .pure _
  · exact .pure _
  · have hpart (operand : Term) (T : TermState) : MakesOnly W (do
        let symbol ← freshSymbol "to_int_" .int
        modify fun state => { state with integerParts := (symbol, operand) :: state.integerParts }
        return Term.symbol symbol) T :=
      .bind (freshSymbol_makesOnly _ hint) fun _ T' =>
        .bind (.of_run (run_modify _ T') rfl) fun _ _ => .pure _
    refine .get ?_
    split
    · exact .bind (.throw _) fun _ T' => hpart _ T'
    · exact hpart _ T
  · exact .throw _

theorem isIntegral_makesOnly (hint : W .int) (t : Term) :
    MakesOnly W (isIntegral sexpr t) T :=
  .bind (.mk _) fun _ _ => .bind (freshSymbol_makesOnly _ hint) fun _ _ => .mk _

theorem applyBinding_makesOnly (name : String) (binding : Binding) (ts : List Term) :
    MakesOnly W (applyBinding name sexpr binding ts) T := by
  unfold applyBinding
  split
  · split
    · exact .throw _
    · split
      · exact .throw _
      · exact .get (.bind (.of_run (run_set T _) rfl) fun _ _ => .mk _)
  · dsimp only
    split
    · split
      · exact .throw _
      · split
        · exact .mk _
        · exact .throw _
    · split
      · exact .pure _
      · exact .throw _

/-! ### S-expressions -/

/-- Whatever is translated, its new symbols are Ints or of sorts that can be read. -/
theorem translate_addsOnly {sorts : SortTable} (hint : W .int)
    (hparse : ∀ s sort, sorts.parse s = .ok sort → W sort) :
    (∀ names s T, MakesOnly W (translate sorts names s) T) ∧
      (∀ names items T, MakesOnly W (translateAll sorts names items) T) ∧
      ∀ names items T, MakesOnly W (translateBindings sorts names items) T := by
  refine translate.mutual_induct
    (fun names s => ∀ T, MakesOnly W (translate sorts names s) T)
    (fun names items => ∀ T, MakesOnly W (translateAll sorts names items) T)
    (fun names items => ∀ T, MakesOnly W (translateBindings sorts names items) T)
    ?atom ?empty ?constantArray ?constantArrays ?indexedUnknown ?indexed ?indexedMany ?lists
    ?bind ?bindMalformed ?quantified ?quantifiedMalformed ?unsupported ?indexedConstant
    ?bound ?converted ?unknown ?operator ?noItems ?items ?noBindings ?bindings ?otherBindings
  case atom =>
    intro names atom T
    rw [translate.eq_def]
    exact .of_same (translateAtom_same names atom)
  case empty =>
    intro names T
    rw [translate.eq_def]
    exact .throw _
  case constantArray =>
    intro names sort arg ih T
    rw [translate.eq_def]
    refine .bind (.of_same (ascribedArray_same sorts sort)) fun p T' => ?_
    exact .bind (ih T') fun t _ => .bind (.mk _) fun _ _ => .mk _
  case constantArrays =>
    intro names args sort hargs T
    rw [translate.eq_def]
    simp only
    exact .bind (.of_same (ascribedArray_same sorts sort)) fun _ _ => .throw _
  case indexedUnknown =>
    intro names args name indices hname T
    rw [translate.eq_def]
    simp only [hname]
    exact .throw _
  case indexed =>
    intro names name indices op hname arg ih T
    rw [translate.eq_def]
    simp only [hname]
    refine .bind (.of_same (readIndices_same indices)) fun numbers T' => ?_
    exact .bind (ih T') fun t _ =>
      .of_same (applyIndexed_same name op numbers t)
  case indexedMany =>
    intro names args name indices op hname hargs T
    rw [translate.eq_def]
    simp only [hname]
    exact .throw _
  case lists =>
    intro names head args hascribed hindexed T
    rw [translate.eq_def]
    dsimp only
    split
    · exact (hascribed _ rfl).elim
    · exact (hindexed _ _ rfl).elim
    · exact .throw _
  case bind =>
    intro names binding bindings body hbindings hbody T
    rw [translate.eq_def]
    simp only [if_true]
    exact .bind (hbindings T) fun bound T₁ => hbody bound T₁
  case bindMalformed =>
    intro names args hargs T
    rw [translate.eq_def]
    simp only [if_true]
    exact .throw _
  case quantified =>
    intro names head hlet q hq declaration declarations body hbody T
    rw [translate.eq_def]
    simp only [hlet, hq, if_false]
    refine .bind (declareVariables_makesOnly hparse _) fun declared T₁ => ?_
    exact .bind (hbody declared T₁) fun t _ => .mk _
  case quantifiedMalformed =>
    intro names head args hlet q hq hargs T
    rw [translate.eq_def]
    simp only [hlet, hq, if_false]
    exact .throw _
  case unsupported =>
    intro names head args hlet hq hform T
    rw [translate.eq_def]
    simp only [hlet, hq, hform, if_false, if_true]
    exact .throw _
  case indexedConstant =>
    intro names args hlet hq hform T
    rw [translate.eq_def]
    simp only [hlet, hq, hform, if_false, if_true]
    exact .of_same (indexedConstant_same args)
  case bound =>
    intro names head args hlet hq hform hindexed binding hfind ih T
    rw [translate.eq_def]
    simp only [hlet, hq, hform, hindexed, hfind, if_false]
    exact .bind (ih T) fun ts _ => applyBinding_makesOnly head binding ts
  case converted =>
    intro names head args hlet hq hform hindexed hfind hconverted ih T
    rw [translate.eq_def]
    simp only [hlet, hq, hform, hindexed, hfind, hconverted, if_false, if_true]
    refine .bind (ih T) fun ts _ => ?_
    split
    · split
      · exact integerPart_makesOnly hint _
      · exact isIntegral_makesOnly hint _
    · exact .throw _
  case unknown =>
    intro names head args hlet hq hform hindexed hfind hconverted hop T
    rw [translate.eq_def]
    simp only [hlet, hq, hform, hindexed, hfind, hconverted, hop, if_false]
    exact .throw _
  case operator =>
    intro names head args hlet hq hform hindexed hfind hconverted op hop ih T
    rw [translate.eq_def]
    simp only [hlet, hq, hform, hindexed, hfind, hconverted, hop, if_false]
    exact .bind (ih T) fun ts _ => .mk _
  case noItems =>
    intro names T
    exact .pure _
  case items =>
    intro names s rest ihs ihrest T
    rw [translateAll]
    exact .bind (ihs T) fun _ T₁ => .bind (ihrest T₁) fun _ _ => .pure _
  case noBindings =>
    intro names T
    exact .pure _
  case bindings =>
    intro names name value rest ihvalue ihrest T
    rw [translateBindings]
    exact .bind (ihvalue T) fun _ T₁ => .bind (ihrest T₁) fun _ _ => .pure _
  case otherBindings =>
    intro names binding rest hbinding T
    rw [translateBindings.eq_def]
    split
    · contradiction
    · rename_i heq
      obtain ⟨rfl, rfl⟩ := List.cons.inj heq
      exact (hbinding _ _ rfl).elim
    · exact .throw _

end Translation

end SmtScript
