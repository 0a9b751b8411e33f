import Mathlib
import SmtScript.Proofs.Session.Signatures
import SmtScript.Proofs.Translate.Told

/-!
Why terms are refused without a word.

`Session.Slip` lists the causes: a numeral with digits that have no value, an operator on
bit-vectors with an operand that has no bits, a definition with arguments of other sorts than its
parameters have or after a substitution that was left unfinished, and a function that is applied
though it is no symbol. There are no others, in whatever scope a term is read,
`Session.translate_slips`.
-/

namespace SmtScript

open Solver Step Translation TermState

section

variable {T : TermState}

/-- As long as no substitution fails, none is left unfinished. -/
theorem kept_finished :
    Kept Term.anySort Grows (fun T => T.leftover = none) (fun _ _ _ => True)
      fun _ _ _ => True where
  closed := closed_grows
  table h := h.table
  hereditary _ _ := ⟨fun _ => trivial, fun _ _ _ => trivial, fun _ => trivial⟩
  good_mono _ _ := trivial
  inv_mono _ _ _ := trivial
  find _ _ := trivial
  extend _ _ := trivial
  make _ hclean stem sort := ⟨grows_made _ stem sort, hclean, trivial, fun _ _ => trivial⟩
  opens _ hclean stem sort :=
    ⟨grows_opened _ stem sort, hclean, trivial, trivial, fun _ _ => trivial⟩
  closes _ _ _ _ _ _ _ _ := trivial
  part _ hclean _ _ _ := ⟨grows_divided _ _, hclean, trivial⟩
  application _ _ _ := trivial
  definition {c names T head d values result leftover} _ hclean _ _ _ hrun := by
    rw [hclean] at hrun
    exact ⟨grows_leftover T leftover, fun u hu => ⟨(Term.instantiate_none hrun hu).2, trivial⟩⟩

/-- A definition is refused its arguments without a word only if their sorts are wrong or a
substitution was left unfinished. -/
theorem applyBinding_definition_owns {cause : Prop} {head : String} {sexpr : SExpr}
    {d : Definition} {ts : List Term} (hbody : d.body.WellSorted) (hts : ∀ t ∈ ts, t.WellSorted)
    (harguments : ts.length = d.parameters.length →
      ¬ List.Forall₂ Symbol.Accepts d.parameters ts → cause)
    (hunfinished : T.leftover ≠ none → cause) :
    Owns (fun _ => cause) (applyBinding head sexpr (.definition d) ts) T := by
  simp only [applyBinding]
  split
  · exact .throw rfl
  rename_i hlength
  obtain ⟨values, hvalues⟩ := liftAllTo_ok (d.parameters.map Symbol.sort) ts
  rw [hvalues]
  refine Stops.get ?_
  by_cases haccepts : List.Forall₂ Symbol.Accepts d.parameters ts
  swap
  · exact fun _ _ _ _ => harguments (not_not.mp hlength) haccepts
  by_cases hclean : T.leftover = none
  swap
  · exact fun _ _ _ _ => hunfinished hclean
  obtain ⟨values', hvalues', htyped⟩ := liftAllTo_typed haccepts hts
  obtain rfl := Except.ok.inj (hvalues.symm.trans hvalues')
  obtain ⟨v, hv, _⟩ := Term.substitute_typed hbody fun p hp => List.forall₂_zip htyped hp
  have htold : Term.Told (d.body.instantiate (d.parameters.zip values) T.leftover).1 := by
    rw [hclean, Term.instantiate]
    split
    · exact .error (by simp [Fault.isSilent])
    · rw [Term.substituteOver_none hv]
      exact .ok _
  exact Stops.bind (.of_ok (run_set _ _)) fun _ _ _ => node_owns htold

end

namespace Session

variable {σ μ : Type} {S : Session σ μ} {command : SExpr} {names : Names} {T T' : TermState}

/-- Why a term in a command is refused without a word. -/
inductive Slip (S : Session σ μ) (command : SExpr) : Prop where
  /-- A numeral has a digit without a value. -/
  | numeral (h : command.HasOrnateNumeral)
  /-- An operator on bit-vectors is applied to what has no bits. -/
  | operand {names : Names} {T T' : TermState} {head : String} {args : List SExpr} {op : Operator}
      {ts : List Term} (hscope : S.Scope names T)
      (hinside : (SExpr.list (.atom head :: args)).Inside command)
      (hfree : names.find? head = none) (hop : Operator.ofName? head = some op)
      (hargs : (translateAll S.sorts names args).run T = (.ok ts, T'))
      (hbits : op.takesBits = true) (h : ∃ t ∈ ts, ¬ t.HasBits)
  /-- A definition is applied to terms of other sorts than its parameters have. -/
  | arguments {names : Names} {T T' : TermState} {head : String} {args : List SExpr}
      {d : Definition} {ts : List Term} (hscope : S.Scope names T)
      (hinside : (SExpr.list (.atom head :: args)).Inside command)
      (hfind : names.find? head = some (.definition d))
      (hargs : (translateAll S.sorts names args).run T = (.ok ts, T'))
      (hlength : ts.length = d.parameters.length)
      (h : ¬ List.Forall₂ Symbol.Accepts d.parameters ts)
  /-- A definition is applied after a command before has left a substitution unfinished. -/
  | unfinished {names : Names} {T : TermState} {head : String} {args : List SExpr}
      {d : Definition} (hscope : S.Scope names T)
      (hinside : (SExpr.list (.atom head :: args)).Inside command)
      (hfind : names.find? head = some (.definition d)) (h : S.terms.leftover ≠ none)
  /-- What is applied is a function and no symbol. -/
  | function {names : Names} {T : TermState} {head : String} {args : List SExpr} {t : Term}
      (hscope : S.Scope names T) (hinside : (SExpr.list (.atom head :: args)).Inside command)
      (hfind : names.find? head = some (.term t)) (hsort : t.sort.isFunction = true)
      (h : ∀ f, t ≠ .symbol f)

/-- Unless a substitution was left unfinished before, none is in any scope. -/
theorem Scope.clean (h : S.Scope names T) (hclean : S.terms.leftover = none) :
    T.leftover = none := by
  have hcarries := kept_finished.carries_all S.sorts fun _ _ _ _ => trivial
  induction h with
  | top => exact hclean
  | later _ hrun ih => exact ((hcarries.1 _ _ [] _ trivial ih _ _ hrun).2 _ rfl).1
  | bindings _ hrun ih => exact ((hcarries.2.2 _ _ [] _ trivial ih _ _ hrun).2 _ rfl).1
  | quantified _ hrun ih =>
    exact ((@Kept.opens_variables _ _ _ _ _ _ [] names kept_finished S.sorts _ trivial ih _ _
      hrun).2 _ rfl).1
  | defined hrun =>
    exact ((@declareParameters_opens _ _ S [] names _ _ _ _ _ kept_finished _ _ trivial hclean _ _
      hrun).2 _ rfl).1

theorem Scope.all (h : S.Scope names T) {items : List SExpr} {ts : List Term}
    (hrun : (translateAll S.sorts names items).run T = (.ok ts, T')) : S.Scope names T' := by
  induction items generalizing T ts with
  | nil =>
    obtain ⟨_, rfl⟩ := Prod.mk.inj hrun
    exact h
  | cons s rest ih =>
    rw [translateAll, run_bind] at hrun
    split at hrun
    · rename_i t T₁ hfirst
      rw [run_bind] at hrun
      split at hrun
      · rename_i later T₂ hlater
        obtain ⟨_, rfl⟩ := Prod.mk.inj hrun
        exact ih (h.later hfirst) hlater
      · cases hrun
    · cases hrun

/-- What a name is bound to is refused its arguments without a word only for one of the causes. -/
theorem applyBinding_slips (hS : S.Sound) (hscope : S.Scope names T) {head : String}
    {args : List SExpr} {sexpr : SExpr} {binding : Binding} {ts : List Term}
    (hinside : (SExpr.list (.atom head :: args)).Inside command)
    (hfind : names.find? head = some binding)
    (hargs : (translateAll S.sorts names args).run T = (.ok ts, T')) :
    Owns (fun _ => S.Slip command) (applyBinding head sexpr binding ts) T' := by
  cases binding with
  | term t => exact applyBinding_term_owns fun hsort h => .function hscope hinside hfind hsort h
  | definition d =>
    have hinv := hS.inScope hscope
    have hts := ((kept_sound.carries_all S.sorts fun _ _ _ _ => trivial).2.1 names args [] T hinv
      trivial _ _ hargs).2 ts rfl
    have hbody : d.body.WellSorted := (hinv.2 head _ hfind).wellSorted
    refine applyBinding_definition_owns hbody (fun t ht => (hts.2 t ht).wellSorted)
      (fun hlength h => .arguments hscope hinside hfind hargs hlength h) fun hleft => ?_
    exact .unfinished hscope hinside hfind fun hclean => hleft ((hscope.all hargs).clean hclean)

/-- Whatever is read in a scope, it is refused without a word only for one of the causes. -/
theorem translate_slips (hS : S.Sound) :
    (∀ names s T, S.Scope names T → s.Inside command →
      Owns (fun _ => S.Slip command) (translate S.sorts names s) T) ∧
    (∀ names items T, S.Scope names T → (∀ s ∈ items, s.Inside command) →
      Owns (fun _ => S.Slip command) (translateAll S.sorts names items) T) ∧
    (∀ names items T, S.Scope names T → (∀ s ∈ items, s.Inside command) →
      Owns (fun _ => S.Slip command) (translateBindings S.sorts names items) T) := by
  have hnumeral {s : SExpr} (hs : s.Inside command) (h : s.HasOrnateNumeral) : S.Slip command :=
    .numeral (h.mono hs)
  have hitem {s : SExpr} {items : List SExpr} (h : (SExpr.list items).Inside command)
      (hs : s ∈ items) : s.Inside command := (SExpr.inside_of_mem hs).trans h
  refine translate.mutual_induct
    (fun names s => ∀ T, S.Scope names T → s.Inside command →
      Owns (fun _ => S.Slip command) (translate S.sorts names s) T)
    (fun names items => ∀ T, S.Scope names T → (∀ s ∈ items, s.Inside command) →
      Owns (fun _ => S.Slip command) (translateAll S.sorts names items) T)
    (fun names items => ∀ T, S.Scope names T → (∀ s ∈ items, s.Inside command) →
      Owns (fun _ => S.Slip command) (translateBindings S.sorts names items) T)
    ?atom ?empty ?constantArray ?constantArrays ?indexedUnknown ?indexed ?indexedMany ?lists
    ?bind ?bindMalformed ?quantified ?quantifiedMalformed ?unsupported ?indexedConstant
    ?bound ?converted ?unknown ?operator ?noItems ?items ?noBindings ?bindings ?otherBindings
  case atom =>
    intro names atom T _ _
    rw [translate.eq_def]
    exact translateAtom_owns names atom
  case empty =>
    intro names T _ _
    rw [translate.eq_def]
    exact .throw rfl
  case constantArray =>
    intro names sort arg ih T hscope hinside
    rw [translate.eq_def]
    have hhead := hitem hinside List.mem_cons_self
    refine Stops.bind (ascribedArray_owns S.sorts (hnumeral (hitem hhead (by simp))))
      fun p T₁ hrun => ?_
    obtain ⟨rfl, _⟩ := ascribedArray_same S.sorts sort _ _ hrun
    refine Stops.bind (ih T hscope (hitem hinside (by simp))) fun t T₂ _ => ?_
    exact constantArray_owns p.1 p.2 t
  case constantArrays =>
    intro names args sort hargs T hscope hinside
    rw [translate.eq_def]
    simp only
    have hhead := hitem hinside List.mem_cons_self
    exact Stops.bind (ascribedArray_owns S.sorts (hnumeral (hitem hhead (by simp))))
      fun _ _ _ => Owns.throw rfl
  case indexedUnknown =>
    intro names args name indices hname T _ _
    rw [translate.eq_def]
    simp only [hname]
    exact .throw rfl
  case indexed =>
    intro names name indices op hname arg ih T hscope hinside
    rw [translate.eq_def]
    simp only [hname]
    have hhead := hitem hinside List.mem_cons_self
    have hindices : ∀ s ∈ indices, s.HasOrnateNumeral → S.Slip command := fun s hs =>
      hnumeral (hitem hhead (by simp [hs]))
    refine Stops.bind (readIndices_owns hindices) fun numbers T₁ hrun => ?_
    obtain ⟨rfl, _⟩ := readIndices_same indices _ _ hrun
    refine Stops.bind (ih T hscope (hitem hinside (by simp))) fun t T₂ _ => ?_
    exact applyIndexed_owns name op numbers t
  case indexedMany =>
    intro names args name indices op hname hargs T _ _
    rw [translate.eq_def]
    simp only [hname]
    exact .throw rfl
  case lists =>
    intro names head args hascribed hindexed T _ _
    rw [translate.eq_def]
    dsimp only
    split
    · exact (hascribed _ rfl).elim
    · exact (hindexed _ _ rfl).elim
    · exact .throw rfl
  case bind =>
    intro names binding bindings body hbindings hbody T hscope hinside
    rw [translate.eq_def]
    simp only [if_true]
    have hlist : (SExpr.list (binding :: bindings)).Inside command := hitem hinside (by simp)
    refine Stops.bind (hbindings T hscope fun s hs => hitem hlist hs) fun bound T₁ hrun => ?_
    exact hbody bound T₁ (hscope.bindings hrun) (hitem hinside (by simp))
  case bindMalformed =>
    intro names args hargs T _ _
    rw [translate.eq_def]
    simp only [if_true]
    exact .throw rfl
  case quantified =>
    intro names head hlet q hq declaration declarations body hbody T hscope hinside
    rw [translate.eq_def]
    simp only [hlet, hq, if_false]
    have hlist : (SExpr.list (declaration :: declarations)).Inside command :=
      hitem hinside (by simp)
    refine Stops.bind (declareVariables_owns S.sorts fun s hs => hnumeral (hitem hlist hs))
      fun declared T₁ hrun => ?_
    refine Stops.bind (hbody declared T₁ (hscope.quantified hrun) (hitem hinside (by simp)))
      fun t T₂ _ => ?_
    exact quantify_owns q declared t
  case quantifiedMalformed =>
    intro names head args hlet q hq hargs T _ _
    rw [translate.eq_def]
    simp only [hlet, hq, if_false]
    exact .throw rfl
  case unsupported =>
    intro names head args hlet hq hform T _ _
    rw [translate.eq_def]
    simp only [hlet, hq, hform, if_false, if_true]
    exact .throw rfl
  case indexedConstant =>
    intro names args hlet hq hform T _ hinside
    rw [translate.eq_def]
    simp only [hlet, hq, hform, if_false, if_true]
    exact indexedConstant_owns fun s hs => hnumeral (hitem hinside (by simp [hs]))
  case bound =>
    intro names head args hlet hq hform hindexed binding hfind ih T hscope hinside
    rw [translate.eq_def]
    simp only [hlet, hq, hform, hindexed, hfind, if_false]
    exact Stops.bind (ih T hscope fun s hs => hitem hinside (by simp [hs])) fun ts T₁ hrun =>
      applyBinding_slips hS hscope hinside hfind hrun
  case converted =>
    intro names head args hlet hq hform hindexed hfind hconverted ih T hscope hinside
    rw [translate.eq_def]
    simp only [hlet, hq, hform, hindexed, hfind, hconverted, if_false, if_true]
    refine Stops.bind (ih T hscope fun s hs => hitem hinside (by simp [hs])) fun ts T₁ _ => ?_
    split
    · split
      · exact integerPart_owns _
      · exact isIntegral_owns _
    · exact Owns.throw rfl
  case unknown =>
    intro names head args hlet hq hform hindexed hfind hconverted hop T _ _
    rw [translate.eq_def]
    simp only [hlet, hq, hform, hindexed, hfind, hconverted, hop, if_false]
    exact .throw rfl
  case operator =>
    intro names head args hlet hq hform hindexed hfind hconverted op hop ih T hscope hinside
    rw [translate.eq_def]
    simp only [hlet, hq, hform, hindexed, hfind, hconverted, hop, if_false]
    refine Stops.bind (ih T hscope fun s hs => hitem hinside (by simp [hs])) fun ts T₁ hrun => ?_
    refine applyOperator_owns fun hbits hnone => ?_
    exact .operand hscope hinside hfind hop hrun hbits (by simpa using hnone)
  case noItems =>
    intro names T _ _
    exact Stops.pure _
  case items =>
    intro names s rest ihs ihrest T hscope hinside
    obtain ⟨hfirst, hlater⟩ := List.forall_mem_cons.mp hinside
    rw [translateAll]
    refine Stops.bind (ihs T hscope hfirst) fun t T₁ hrun => ?_
    exact Stops.bind (ihrest T₁ (hscope.later hrun) hlater) fun _ _ _ => Stops.pure _
  case noBindings =>
    intro names T _ _
    exact Stops.pure _
  case bindings =>
    intro names name value rest ihvalue ihrest T hscope hinside
    obtain ⟨hfirst, hlater⟩ := List.forall_mem_cons.mp hinside
    rw [translateBindings]
    refine Stops.bind (ihvalue T hscope (hitem hfirst (by simp))) fun t T₁ hrun => ?_
    exact Stops.bind (ihrest T₁ (hscope.later hrun) hlater) fun _ _ _ => Stops.pure _
  case otherBindings =>
    intro names binding rest hbinding T _ _
    rw [translateBindings.eq_def]
    split
    · contradiction
    · rename_i heq
      obtain ⟨rfl, rfl⟩ := List.cons.inj heq
      exact (hbinding _ _ rfl).elim
    · exact .throw rfl

end Session

end SmtScript
