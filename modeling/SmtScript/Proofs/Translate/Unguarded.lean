import Mathlib.Tactic.SplitIfs
import SmtScript.Proofs.Error
import SmtScript.Proofs.SortTable
import SmtScript.Translate

/-!
Errors that are due to the status of a session.

Two errors say that a command does not belong where it stands, `Error.blamesStatus`. Translation
knows nothing of where a session stands: whatever is translated, it is not refused with one of
them, `translate_unguarded`.
-/

namespace SmtScript

open Step Translation

/-- Whether an error is due to the status of the session. -/
def Error.blamesStatus : Error → Bool
  | .closed | .noLogic => true
  | _ => false

/-- Whether an error is reported as one of the status of the session. -/
def Error.IsProtocol (e : Error) : Prop := ∃ r ∈ e.report, r.kind = .wrongState

theorem Error.kind_of_spared {e : Error} (h : e.blamesStatus = false) :
    ∀ r ∈ e.report, r.kind ≠ .wrongState := by
  have hsort {sort : SmtSort} {message : String → String} {sexpr : Option SExpr} :
      ∀ r ∈ aboutSort sort message sexpr, r.kind ≠ .wrongState := by
    intro r hr hkind
    obtain ⟨name, _, hr⟩ := Option.bind_eq_some_iff.mp hr
    cases hr
    cases hkind
  intro r hr
  cases e with
  | closed => cases h
  | noLogic => cases h
  | bodySort name found expected body =>
    obtain ⟨found, _, hr⟩ := Option.bind_eq_some_iff.mp hr
    exact hsort r hr
  | cannotNegate | divOperands | absOperand | toIntOperand => exact hsort r hr
  | fault f sexpr terms sorts =>
    intro hkind
    simp only [report, Option.mem_def] at hr
    split at hr
    · cases hr
      cases hkind
    · cases hr
  | _ =>
    intro hkind
    cases hr <;> cases hkind

theorem Error.isProtocol_iff {e : Error} : e.IsProtocol ↔ e.blamesStatus = true := by
  constructor
  · rintro ⟨r, hr, hkind⟩
    apply Decidable.byContradiction
    intro hspared
    exact kind_of_spared (Bool.eq_false_iff.mpr hspared) r hr hkind
  · intro h
    cases e with
    | closed => exact ⟨_, rfl, rfl⟩
    | noLogic => exact ⟨_, rfl, rfl⟩
    | _ => cases h

/-- Whether a computation that fails does not blame the status of the session. -/
abbrev Spares {α : Type} (x : Except Error α) : Prop := Tells (·.blamesStatus = true) x

/-- Whether a step that fails does not blame the status of the session. -/
abbrev Step.Unguarded {σ α : Type} (x : ExceptT Error (StateM σ) α) (s : σ) : Prop :=
  Step.Stops (fun e _ => e.blamesStatus = false) x s

namespace Step.Unguarded

variable {σ α : Type} {s : σ}

theorem throw {e : Error} (h : e.blamesStatus = false) :
    Step.Unguarded (MonadExcept.throw e : ExceptT Error (StateM σ) α) s :=
  Step.Stops.throw h

theorem mk {r : Except Error α} (h : Spares r) :
    Step.Unguarded (ExceptT.mk (pure r) : ExceptT Error (StateM σ) α) s := by
  intro e s' hrun
  obtain ⟨he, rfl⟩ := Prod.mk.inj hrun
  exact Bool.eq_false_iff.mpr (h e he)

end Step.Unguarded

/-! ### Sorts and literals -/

theorem spares_fault {α : Type} (x : Except Fault α) {f : Fault → Error}
    (hf : ∀ e, (f e).blamesStatus = false) : Spares (x.mapError f) := by
  have hnone : Tells (fun _ => False) x := fun _ _ => id
  exact hnone.mapError fun e h => by simp [hf e] at h

theorem SortTable.parse_spares (sorts : SortTable) (sexpr : SExpr) :
    Spares (sorts.parse sexpr) := by
  fun_induction SortTable.parse sorts sexpr with
  | case1 name =>
    unfold SortTable.ofName
    split_ifs
    · exact .ok _
    · exact .ok _
    · exact .ok _
    · exact .ok _
    · exact .error Bool.false_ne_true
  | case2 index element ihindex ihelement =>
    exact .bind ihindex fun _ _ => .bind ihelement fun _ _ => .ok _
  | case3 width =>
    unfold SortTable.ofWidth
    split
    · exact .error Bool.false_ne_true
    · exact .ok _
    · exact .error Bool.false_ne_true
    · exact .error Bool.false_ne_true
  | case4 items => exact .error Bool.false_ne_true

theorem Literal.read_spares (atom : String) : Spares (Literal.read atom) := by
  have hnumber : Spares (Literal.number? atom) := by
    unfold Literal.number?
    dsimp only
    split
    · exact .ok _
    · split_ifs
      · exact .ok _
      · exact .error Bool.false_ne_true
      · exact .ok _
    · exact .ok _
  unfold Literal.read
  split_ifs
  · exact .ok _
  · exact .ok _
  · split
    · split
      · exact .ok _
      · exact .error Bool.false_ne_true
    · split
      · exact .ok _
      · exact .error Bool.false_ne_true
    · split
      · exact .ok _
      · exact .error Bool.false_ne_true
      · exact .error (hnumber _ ‹_›)

/-! ### Operators -/

/-- Whether a refusal blames the status of the session. -/
def Refusal.BlamesStatus : Refusal → Prop
  | .wrongSort errorAt => ∃ sexpr, (errorAt sexpr).blamesStatus = true
  | _ => False

theorem Refusal.blamesStatus_of_toError {name : String} {sexpr : SExpr} {operands : List Term}
    {r : Refusal} (h : (r.toError name sexpr operands).blamesStatus = true) : r.BlamesStatus := by
  cases r with
  | count => cases h
  | wrongSort errorAt => exact ⟨sexpr, h⟩
  | fault f => cases h

/-- A builder that fails does so with a fault. -/
theorem spares_lift {α : Type} (x : Except Fault α) :
    Tells Refusal.BlamesStatus (MonadLiftT.monadLift x : Except Refusal α) := by
  have hnone : Tells (fun _ => False) x := fun _ _ => id
  exact hnone.mapError fun _ => id

theorem Term.mkNegative_spares (t : Term) : Tells Refusal.BlamesStatus (Term.mkNegative t) := by
  unfold Term.mkNegative
  split
  · exact .ok _
  · exact .ok _
  · split
    · exact .error id
    · exact spares_lift _
    · exact spares_lift _
    · exact .error fun ⟨_, h⟩ => Bool.false_ne_true h

theorem Term.mkMod_spares (a b : Term) : Tells Refusal.BlamesStatus (Term.mkMod a b) := by
  unfold Term.mkMod
  split
  · exact .bind (spares_lift _) fun _ _ => .bind (spares_lift _) fun _ _ => spares_lift _
  · exact .error fun ⟨_, h⟩ => Bool.false_ne_true h

theorem Term.mkAbs_spares (t : Term) : Tells Refusal.BlamesStatus (Term.mkAbs t) := by
  have hzero (zero : Term) : Tells Refusal.BlamesStatus
      (do mkIte (← mkComparison .ge t zero) t (← mkNegative t)) :=
    .bind (spares_lift _) fun _ _ => .bind (mkNegative_spares t) fun _ _ => spares_lift _
  unfold Term.mkAbs
  split
  · exact hzero (.int 0)
  · exact hzero (.real 0)
  · exact .bind (.error fun ⟨_, h⟩ => Bool.false_ne_true h) fun zero _ => hzero zero

theorem Operator.apply_spares (op : Operator) (ts : List Term) :
    Tells Refusal.BlamesStatus (op.apply ts) := by
  unfold Operator.apply
  split
  case h_7 => exact .bind (spares_lift _) fun _ _ => spares_lift _
  case h_8 =>
    refine .bind (spares_lift _) fun _ _ => ?_
    split
    · exact spares_lift _
    · exact .error id
  case h_10 => exact Term.mkNegative_spares _
  case h_14 =>
    split
    · exact spares_lift _
    · exact spares_lift _
    · exact .error fun ⟨_, h⟩ => Bool.false_ne_true h
  case h_15 => exact Term.mkMod_spares _ _
  case h_16 => exact Term.mkAbs_spares _
  case h_30 => exact .error id
  all_goals exact spares_lift _

theorem IndexedOperator.apply_spares (op : IndexedOperator) (indices : List Nat) (t : Term) :
    Tells Refusal.BlamesStatus (op.apply indices t) := by
  unfold IndexedOperator.apply
  split
  · split
    · exact spares_lift _
    · exact .error fun ⟨_, h⟩ => Bool.false_ne_true h
  · exact spares_lift _
  · exact spares_lift _
  · exact spares_lift _
  · exact .error id

/-! ### Parts of a translation -/

variable {T : TermState} {sexpr : SExpr}

theorem node_unguarded (operands : List Term) (x : Except Fault Term) :
    Unguarded (node sexpr operands x) T :=
  .mk (spares_fault x fun _ => rfl)

theorem bareNode_unguarded (x : Except Fault Term) : Unguarded (bareNode x) T :=
  .mk (spares_fault x fun _ => rfl)

theorem freshLocal_unguarded (stem : String) (sort : SmtSort) :
    Unguarded (freshLocal stem sort) T :=
  .of_ok rfl

theorem index_unguarded (s : SExpr) : Unguarded (index sexpr s) T := by
  unfold index
  split
  · split
    · exact Stops.pure _
    · exact .throw rfl
    · exact .throw rfl
  · exact .throw rfl

theorem readIndices_unguarded (name : String) (op : IndexedOperator) (indices : List SExpr) :
    Unguarded (readIndices name sexpr op indices) T := by
  unfold readIndices
  split
  · rename_i hcount
    clear hcount
    induction indices generalizing T with
    | nil => exact Stops.pure _
    | cons s rest ih =>
      rw [List.mapM_cons]
      refine Stops.bind (index_unguarded s) fun _ _ _ => ?_
      exact Stops.bind ih fun _ _ _ => Stops.pure _
  · exact .throw rfl

theorem ascribedArray_unguarded (sorts : SortTable) (sort : SExpr) :
    Unguarded (ascribedArray sorts sexpr sort) T := by
  refine Stops.bind (Unguarded.mk (sorts.parse_spares sort)) fun _ _ _ => ?_
  split
  · exact Stops.pure _
  · exact Unguarded.throw rfl

theorem constantArray_unguarded (index element : SmtSort) (t : Term) :
    Unguarded (constantArray sexpr index element t) T :=
  Stops.bind (bareNode_unguarded _) fun _ _ _ => node_unguarded _ _

theorem declareVariables_unguarded (sorts : SortTable) (declarations : List SExpr) :
    Unguarded (declareVariables sorts declarations) T := by
  induction declarations generalizing T with
  | nil => exact Stops.pure _
  | cons declaration rest ih =>
    unfold declareVariables
    split
    · exact Stops.pure _
    · rename_i heq
      obtain ⟨rfl, rfl⟩ := List.cons.inj heq
      refine Stops.bind (Unguarded.mk (sorts.parse_spares _)) fun _ _ _ => ?_
      refine Stops.bind (freshLocal_unguarded _ _) fun _ _ _ => ?_
      exact Stops.bind ih fun _ _ _ => Stops.pure _
    · exact .throw rfl

theorem indexedConstant_unguarded (items : List SExpr) : Unguarded (indexedConstant items) T := by
  unfold indexedConstant
  split
  · split
    · exact .throw rfl
    · refine Stops.bind (index_unguarded _) fun width _ _ => ?_
      split
      · exact Stops.bind (Unguarded.throw rfl) fun _ _ h => nomatch h
      · exact Unguarded.mk (spares_fault _ fun _ => rfl)
  · exact .throw rfl

theorem translateAtom_unguarded (names : Names) (atom : String) :
    Unguarded (translateAtom names atom) T := by
  unfold translateAtom
  split
  · exact Stops.pure _
  · exact .throw rfl
  · exact .mk ((Literal.read_spares atom).map _)

theorem integerPart_unguarded (t : Term) : Unguarded (integerPart t) T := by
  unfold integerPart
  split
  · exact Stops.pure _
  · exact Stops.pure _
  · refine Stops.get ?_
    split
    · exact Unguarded.throw rfl
    · exact .of_ok rfl
  · exact .throw rfl

theorem isIntegral_unguarded (t : Term) : Unguarded (isIntegral sexpr t) T :=
  Stops.bind (node_unguarded _ _) fun _ _ _ =>
    Stops.bind (.of_ok rfl) fun _ _ _ => node_unguarded _ _

theorem quantify_unguarded (q : Quantifier) (declared : List (String × Symbol)) (body : Term) :
    Unguarded (quantify sexpr q declared body) T :=
  .mk (spares_fault _ fun _ => rfl)

theorem applyOperator_unguarded (name : String) (op : Operator) (ts : List Term) :
    Unguarded (applyOperator name sexpr op ts) T :=
  .mk ((op.apply_spares ts).mapError fun _ => Refusal.blamesStatus_of_toError)

theorem applyIndexed_unguarded (name : String) (op : IndexedOperator) (indices : List Nat)
    (t : Term) : Unguarded (applyIndexed name sexpr op indices t) T := by
  unfold applyIndexed
  split
  · exact .mk ((op.apply_spares indices t).mapError fun _ => Refusal.blamesStatus_of_toError)
  · exact .throw rfl

theorem applyBinding_unguarded (name : String) (binding : Binding) (ts : List Term) :
    Unguarded (applyBinding name sexpr binding ts) T := by
  unfold applyBinding
  split
  · split
    · exact .throw rfl
    · split
      · exact .throw rfl
      · exact Stops.get (Stops.bind (.of_ok rfl) fun _ _ _ => node_unguarded _ _)
  · dsimp only
    split
    · split
      · exact .throw rfl
      · split
        · exact node_unguarded _ _
        · exact .throw rfl
    · split
      · exact Stops.pure _
      · exact .throw rfl

/-! ### Translation -/

/-- Whatever is read, it is not refused for the status of the session. -/
theorem translate_unguarded (sorts : SortTable) :
    (∀ names s T, Unguarded (translate sorts names s) T) ∧
      (∀ names items T, Unguarded (translateAll sorts names items) T) ∧
      ∀ names items T, Unguarded (translateBindings sorts names items) T := by
  refine translate.mutual_induct
    (fun names s => ∀ T, Unguarded (translate sorts names s) T)
    (fun names items => ∀ T, Unguarded (translateAll sorts names items) T)
    (fun names items => ∀ T, Unguarded (translateBindings sorts names items) T)
    ?atom ?empty ?constantArray ?constantArrays ?indexedUnknown ?indexed ?indexedMany ?lists
    ?bind ?bindMalformed ?quantified ?quantifiedMalformed ?unsupported ?indexedConstant
    ?bound ?converted ?unknown ?operator ?noItems ?items ?noBindings ?bindings ?otherBindings
  case atom =>
    intro names atom T
    rw [translate.eq_def]
    exact translateAtom_unguarded names atom
  case empty =>
    intro names T
    rw [translate.eq_def]
    exact .throw rfl
  case constantArray =>
    intro names sort arg ih T
    rw [translate.eq_def]
    refine Stops.bind (ascribedArray_unguarded sorts sort) fun p _ _ => ?_
    exact Stops.bind (ih _) fun t _ _ => constantArray_unguarded p.1 p.2 t
  case constantArrays =>
    intro names args sort hargs T
    rw [translate.eq_def]
    simp only
    exact Stops.bind (ascribedArray_unguarded sorts sort) fun _ _ _ => Unguarded.throw rfl
  case indexedUnknown =>
    intro names args name indices hname T
    rw [translate.eq_def]
    simp only [hname]
    exact .throw rfl
  case indexed =>
    intro names name indices op hname arg ih T
    rw [translate.eq_def]
    simp only [hname]
    refine Stops.bind (readIndices_unguarded name op indices) fun numbers _ _ => ?_
    exact Stops.bind (ih _) fun t _ _ => applyIndexed_unguarded name op numbers t
  case indexedMany =>
    intro names args name indices op hname hargs T
    rw [translate.eq_def]
    simp only [hname]
    exact .throw rfl
  case lists =>
    intro names head args hascribed hindexed T
    rw [translate.eq_def]
    dsimp only
    split
    · exact (hascribed _ rfl).elim
    · exact (hindexed _ _ rfl).elim
    · exact .throw rfl
  case bind =>
    intro names binding bindings body hbindings hbody T
    rw [translate.eq_def]
    simp only [if_true]
    exact Stops.bind (hbindings T) fun bound T₁ _ => hbody bound T₁
  case bindMalformed =>
    intro names args hargs T
    rw [translate.eq_def]
    simp only [if_true]
    exact .throw rfl
  case quantified =>
    intro names head hlet q hq declaration declarations body hbody T
    rw [translate.eq_def]
    simp only [hlet, hq, if_false]
    refine Stops.bind (declareVariables_unguarded sorts _) fun declared T₁ _ => ?_
    exact Stops.bind (hbody declared T₁) fun t _ _ => quantify_unguarded q declared t
  case quantifiedMalformed =>
    intro names head args hlet q hq hargs T
    rw [translate.eq_def]
    simp only [hlet, hq, if_false]
    exact .throw rfl
  case unsupported =>
    intro names head args hlet hq hform T
    rw [translate.eq_def]
    simp only [hlet, hq, hform, if_false, if_true]
    exact .throw rfl
  case indexedConstant =>
    intro names args hlet hq hform T
    rw [translate.eq_def]
    simp only [hlet, hq, hform, if_false, if_true]
    exact indexedConstant_unguarded args
  case bound =>
    intro names head args hlet hq hform hindexed binding hfind ih T
    rw [translate.eq_def]
    simp only [hlet, hq, hform, hindexed, hfind, if_false]
    exact Stops.bind (ih T) fun ts _ _ => applyBinding_unguarded head binding ts
  case converted =>
    intro names head args hlet hq hform hindexed hfind hconverted ih T
    rw [translate.eq_def]
    simp only [hlet, hq, hform, hindexed, hfind, hconverted, if_false, if_true]
    refine Stops.bind (ih T) fun ts _ _ => ?_
    split
    · split
      · exact integerPart_unguarded _
      · exact isIntegral_unguarded _
    · exact Unguarded.throw rfl
  case unknown =>
    intro names head args hlet hq hform hindexed hfind hconverted hop T
    rw [translate.eq_def]
    simp only [hlet, hq, hform, hindexed, hfind, hconverted, hop, if_false]
    exact .throw rfl
  case operator =>
    intro names head args hlet hq hform hindexed hfind hconverted op hop ih T
    rw [translate.eq_def]
    simp only [hlet, hq, hform, hindexed, hfind, hconverted, hop, if_false]
    exact Stops.bind (ih T) fun ts _ _ => applyOperator_unguarded head op ts
  case noItems =>
    intro names T
    exact Stops.pure _
  case items =>
    intro names s rest ihs ihrest T
    rw [translateAll]
    exact Stops.bind (ihs T) fun _ T₁ _ => Stops.bind (ihrest T₁) fun _ _ _ => Stops.pure _
  case noBindings =>
    intro names T
    exact Stops.pure _
  case bindings =>
    intro names name value rest ihvalue ihrest T
    rw [translateBindings]
    exact Stops.bind (ihvalue T) fun _ T₁ _ => Stops.bind (ihrest T₁) fun _ _ _ => Stops.pure _
  case otherBindings =>
    intro names binding rest hbinding T
    rw [translateBindings.eq_def]
    split
    · contradiction
    · rename_i heq
      obtain ⟨rfl, rfl⟩ := List.cons.inj heq
      exact (hbinding _ _ rfl).elim
    · exact .throw rfl

end SmtScript
