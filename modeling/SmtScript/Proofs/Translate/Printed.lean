import SmtScript.Proofs.Term.Applied
import SmtScript.Proofs.Term.Constants
import SmtScript.Proofs.Translate.Application

/-!
Printed terms are translated back.

The S-expression that a printable term is printed as is translated into a term of the same sort
and the same value in every interpretation, `conveys_printable`, if no name hides the words of
the language and each free symbol is what its name stands for. The term need not be the same one:
negative numbers and quotients come back as applications of operators.
-/

namespace SmtScript

open Term Translation Step

/-- Whether a name is plain and is taken neither for an operator nor for another form nor for a
constant. -/
structure IsOrdinary (name : String) : Prop where
  word : IsPlainWord name
  operator : Operator.ofName? name = none
  form : name ∉ SExpr.formWords
  constant : name ∉ ["true", "false"]

namespace Term

/-- Whether a term has the sort and the values of another one. -/
structure Restates (u t : Term) : Prop where
  typed : u.Typed t.sort
  eval : ∀ I : Interpretation, I.WellSorted → u.eval I = t.eval I

theorem Restates.refl {t : Term} (h : t.WellSorted) : t.Restates t := ⟨⟨h, rfl⟩, fun _ _ => rfl⟩

theorem sameSorts_of_restates {ts us : List Term}
    (h : List.Forall₂ (fun t u => Restates u t) ts us) : SameSorts ts us :=
  List.Forall₂.imp (fun _ _ h => h.typed) h

theorem map_eval_of_restates {ts us : List Term} (h : List.Forall₂ (fun t u => Restates u t) ts us)
    {I : Interpretation} (hI : I.WellSorted) :
    us.map (fun u => u.eval I) = ts.map fun t => t.eval I := by
  induction h with
  | nil => rfl
  | cons h _ ih => rw [List.map_cons, List.map_cons, h.eval I hI, ih]

/-- Whether only Real numbers are divided in a term. -/
def DividesReals (t : Term) : Prop :=
  ∀ a b, (Term.arith .div a b).Subterm t → a.sort = .real

theorem DividesReals.operand {t : Term} (h : t.DividesReals) {a : Term} (ha : a ∈ t.operands) :
    a.DividesReals :=
  fun x y hsub => h x y (hsub.tail ha)

end Term

/-- Whether an S-expression is translated into a term that restates another one, and nothing else
happens. -/
def Conveys (sorts : SortTable) (names : Names) (s : SExpr) (t : Term) : Prop :=
  ∀ T, ∃ u, (translate sorts names s).run T = (.ok u, T) ∧ u.Restates t

variable {sorts : SortTable} {names : Names} {s : SExpr} {t u : Term} {T : TermState}
  {items : List SExpr} {ts us : List Term}

theorem translateAll_conveys (h : List.Forall₂ (Conveys sorts names) items ts) (T : TermState) :
    ∃ us, (translateAll sorts names items).run T = (.ok us, T) ∧
      List.Forall₂ (fun t u => Restates u t) ts us := by
  induction h with
  | nil => exact ⟨[], rfl, .nil⟩
  | cons hfirst _ ih =>
    obtain ⟨u, hu, hrestates⟩ := hfirst T
    obtain ⟨us, hus, hrestate⟩ := ih
    refine ⟨u :: us, ?_, .cons hrestates hrestate⟩
    rw [translateAll, run_bind_ok hu, run_bind_ok hus, run_pure]

theorem conveys_operands (h : ∀ t ∈ ts, Conveys sorts names t.sexpr t) :
    List.Forall₂ (Conveys sorts names) (ts.map sexpr) ts := by
  rw [List.forall₂_map_left_iff, List.forall₂_same]
  exact h

/-- What is built restates a term if it has the values of this term. -/
theorem restates_of_builds {ε : Type} {x : Except ε Term} {value : Interpretation → Value}
    (h : Builds x t.sort value) (hvalue : ∀ I : Interpretation, I.WellSorted → value I = t.eval I) :
    ∃ u, x = .ok u ∧ u.Restates t := by
  obtain ⟨u, hu, htyped, heval⟩ := h
  exact ⟨u, hu, htyped, fun I hI => (heval I hI).trans (hvalue I hI)⟩

/-- A node that is built again from what restates its operands. -/
theorem rebuild_restates (hwell : t.WellSorted) (hinterpreted : t.root.isInterpreted = false)
    (hus : List.Forall₂ (fun t u => Restates u t) t.operands us) :
    ∃ u, rebuild t.root us = .ok u ∧ u.Restates t := by
  refine restates_of_builds (builds_rebuild hwell.fits hinterpreted (sameSorts_of_restates hus))
    fun I hI => ?_
  rw [map_eval_of_restates hus hI, eval_eq_rootValue t hinterpreted]

section

variable (hnames : ∀ name binding, names.find? name = some binding → IsOrdinary name)

include hnames

/-- The application of an operator to what restates its operands. -/
theorem conveys_application {name : String} {op : Operator}
    (hop : Operator.ofName? name = some op) (hitems : List.Forall₂ (Conveys sorts names) items ts)
    (happly : ∀ us, List.Forall₂ (fun t u => Restates u t) ts us →
      ∃ u, op.apply us = .ok u ∧ u.Restates t) :
    Conveys sorts names (.list (.atom name :: items)) t := by
  intro T
  have hfree : names.find? name = none := by
    cases hfind : names.find? name with
    | none => rfl
    | some binding => cases hop.symm.trans (hnames name binding hfind).operator
  obtain ⟨us, hus, hrestate⟩ := translateAll_conveys hitems T
  obtain ⟨u, hu, hrestates⟩ := happly us hrestate
  refine ⟨u, ?_, hrestates⟩
  rw [run_translate_operator hop hfree hus, applyOperator, hu]
  rfl

/-- A node that is printed as the application of an operator. -/
theorem conveys_operator {W : SmtSort → Prop} {name : String} {op : Operator}
    (hop : t.root.operator? = some (name, op)) (hwell : t.WellSorted) (hspellable : t.Spellable W)
    (hdivision : t.DividesReals) (hoperands : ∀ a ∈ t.operands, Conveys sorts names a.sexpr a) :
    Conveys sorts names t.sexpr t := by
  obtain ⟨hleaf, hhead, hname⟩ := printed_as_operator hop
  have hinterpreted : t.root.isInterpreted = false := by
    cases t <;> first | rfl | cases hop
  rw [sexpr_node hleaf, hhead]
  refine conveys_application hnames hname (conveys_operands hoperands) fun us hus => ?_
  obtain ⟨u, hu, hrestates⟩ := rebuild_restates hwell hinterpreted hus
  have happly := apply_eq_rebuild hop hwell.fits hspellable
    (fun a b heq => hdivision a b (heq ▸ .refl)) (sameSorts_of_restates hus)
  exact ⟨u, by rw [happly, hu]; rfl, hrestates⟩

/-! ### Constants -/

/-- An atom that is no plain word stands for a constant. -/
theorem conveys_constant {atom : String} {literal : Literal}
    (hatom : isPlainName atom = false ∨ atom ∈ ["true", "false"])
    (hread : Literal.read atom = .ok literal) : Conveys sorts names (.atom atom) literal.term := by
  intro T
  have hfree : names.find? atom = none := by
    cases hfind : names.find? atom with
    | none => rfl
    | some binding =>
      have hordinary := hnames atom binding hfind
      rcases hatom with hplain | hconstant
      · simp [hordinary.word.plain] at hplain
      · exact absurd hconstant hordinary.constant
  refine ⟨literal.term, ?_, .refl ?_⟩
  · rw [translate, translateAtom, hfree, hread]
    rfl
  · cases literal <;> exact .node rfl (by simp [Literal.term, operands])

theorem conveys_negative {t' : Term} (h : Conveys sorts names s t)
    (hnumber : t.sort = .int ∨ t.sort = .real) (hsort : t'.sort = t.sort)
    (hvalue : ∀ I : Interpretation, negated (t.eval I) = t'.eval I) :
    Conveys sorts names (.list [.atom "-", s]) t' := by
  have minus : Operator.ofName? "-" = some .sub := rfl
  refine conveys_application hnames minus (.cons h .nil) fun us hus => ?_
  cases hus with
  | @cons _ u _ _ hu hnil =>
    cases hnil
    have hbuilds := builds_mkNegative hnumber hu.typed
    rw [← hsort] at hbuilds
    refine restates_of_builds hbuilds fun I hI => ?_
    rw [hu.eval I hI, hvalue I]

omit hnames in
theorem not_isPlainName_of_isDigit {c : Char} {cs : List Char} {name : String}
    (hname : name.toList = c :: cs) (h : c.isDigit = true) : isPlainName name = false := by
  have hall : ("~!@$%^&*_-+=<>.?/".toList.all fun d => !d.isDigit) = true := by decide
  have hmem : c ∉ "~!@$%^&*_-+=<>.?/".toList := fun hmem => by
    simpa [h] using List.all_eq_true.mp hall c hmem
  have halpha : c.isAlpha = false := by
    have hdigit : '0'.val ≤ c.val ∧ c.val ≤ '9'.val := by
      simpa using (show (decide ('0'.val ≤ c.val) && decide (c.val ≤ '9'.val)) = true from h)
    have hupper : c.val < 'A'.val := UInt32.lt_of_le_of_lt hdigit.2 (by decide)
    have hlower : c.val < 'a'.val := UInt32.lt_of_le_of_lt hdigit.2 (by decide)
    show (decide ('A'.val ≤ c.val ∧ c.val ≤ 'Z'.val) ||
      (decide ('a'.val ≤ c.val) && decide (c.val ≤ 'z'.val))) = false
    rw [decide_eq_false fun h => UInt32.not_le.mpr hupper h.1,
      decide_eq_false (UInt32.not_le.mpr hlower)]
    rfl
  simp only [isPlainName, hname, startsName, halpha, List.contains_eq_mem, decide_eq_false hmem,
    Bool.or_self, Bool.false_and]

omit hnames in
/-- No text that begins with the digits of a number is a plain name. -/
theorem not_isPlainName_of_digits (n : Nat) (rest : String) :
    isPlainName (toString n ++ rest) = false := by
  obtain ⟨c, digits, hdigits⟩ := List.exists_cons_of_ne_nil (toList_toString_ne_nil n)
  have hc : c.isDigit = true := isDigit_of_mem_toString (hdigits ▸ List.mem_cons_self)
  have hname : (toString n ++ rest).toList = c :: (digits ++ rest.toList) := by
    rw [String.toList_append, hdigits, List.cons_append]
  exact not_isPlainName_of_isDigit hname hc

theorem conveys_natural (n : Nat) : Conveys sorts names (.atom (toString n)) (.int n) := by
  have hplain := not_isPlainName_of_digits n ""
  rw [String.append_empty] at hplain
  exact conveys_constant hnames (.inl hplain) (Literal.read_toString n)

theorem conveys_integer (n : Int) : Conveys sorts names (.integer n) (.int n) := by
  have habs : Conveys sorts names (.atom (toString n.natAbs)) (.int n.natAbs) :=
    conveys_natural hnames n.natAbs
  unfold SExpr.integer SExpr.signed
  by_cases hneg : n < 0
  · rw [if_pos (by simpa using hneg)]
    refine conveys_negative hnames habs (.inl rfl) rfl fun I => ?_
    rw [eval, eval, negated, show -(n.natAbs : Int) = n by omega]
  · rw [if_neg (by simpa using hneg)]
    rwa [show (n.natAbs : Int) = n by omega] at habs

theorem conveys_point (n : Nat) : Conveys sorts names (.atom (toString n ++ ".0")) (.real n) :=
  conveys_constant hnames (.inl (not_isPlainName_of_digits n ".0")) (Literal.read_point n)

theorem conveys_quotient (n d : Nat) :
    Conveys sorts names (.list [.atom "/", .atom (toString n), .atom (toString d)])
      (.real (n / d)) := by
  have hn : Conveys sorts names (.atom (toString n)) (.int n) := conveys_natural hnames n
  have hd : Conveys sorts names (.atom (toString d)) (.int d) := conveys_natural hnames d
  have slash : Operator.ofName? "/" = some .realDiv := rfl
  refine conveys_application hnames slash (.cons hn (.cons hd .nil)) fun us hus => ?_
  cases hus with
  | @cons _ u _ _ hu hus =>
    cases hus with
    | @cons _ v _ _ hv hnil =>
      cases hnil
      have hbuilds := (builds_mkRealDiv (.inl rfl) (.inl rfl) hu.typed hv.typed).monadLift
      rw [← leftChain_singleton mkRealDiv u v] at hbuilds
      refine restates_of_builds hbuilds fun I hI => ?_
      rw [hu.eval I hI, hv.eval I hI]
      rfl

theorem conveys_rational (q : Rat) : Conveys sorts names (.rational q) (.real q) := by
  have habs : Conveys sorts names
      (if q.den = 1 then .atom (toString q.num.natAbs ++ ".0")
        else .list [.atom "/", .atom (toString q.num.natAbs), .atom (toString q.den)])
      (.real (q.num.natAbs / q.den)) := by
    split
    · rename_i hden
      simpa [hden] using conveys_point hnames q.num.natAbs
    · exact conveys_quotient hnames _ _
  have hq := q.num_div_den
  unfold SExpr.rational SExpr.signed
  by_cases hneg : q.num < 0
  · rw [if_pos (by simpa using hneg)]
    refine conveys_negative hnames habs (.inr rfl) rfl fun I => ?_
    have habs' : q.num = -(q.num.natAbs : Int) := by omega
    have hnum : (q.num : Rat) = -(q.num.natAbs : Rat) := by
      exact_mod_cast congrArg (Int.cast : Int → Rat) habs'
    rw [eval, eval, negated, ← neg_div, ← hnum, hq]
  · rw [if_neg (by simpa using hneg)]
    have habs' : (q.num.natAbs : Int) = q.num := by omega
    have hnum : (q.num : Rat) = (q.num.natAbs : Rat) := by rw [← Int.cast_natCast, habs']
    rwa [← hnum, hq] at habs

theorem conveys_bits {width : Nat} (hwidth : 0 < width) (v : BitVec width) :
    Conveys sorts names (.atom (bitsText v)) (.bitVec width v) := by
  have hplain : isPlainName (bitsText v) = false := by
    have hchars : (bitsText v).toList.head? = some '#' := by simp [bitsText]
    unfold isPlainName
    split
    · rfl
    · rename_i c rest hname
      obtain rfl : c = '#' := by simpa [hname] using hchars
      rfl
  exact conveys_constant hnames (.inl hplain) (Literal.read_bitsText hwidth v)

/-! ### Symbols and functions -/

omit hnames in
theorem conveys_symbol {c : Symbol} (hc : names.find? c.name = some (.term (.symbol c))) :
    Conveys sorts names (.atom c.name) (.symbol c) := by
  intro T
  refine ⟨.symbol c, ?_, .refl (.node rfl nofun)⟩
  rw [translate, translateAtom, hc]
  rfl

omit hnames in
/-- A term of the sort that is expected is not lifted. -/
theorem liftTo_sort (u : Term) : liftTo u.sort u = .ok u := by
  unfold liftTo
  split
  · rename_i hreal
    rw [liftToReal, if_neg (by simp [isInt, hreal])]
  · rfl

omit hnames in
theorem liftAllTo_sorts (us : List Term) : liftAllTo (us.map Term.sort) us = .ok us := by
  unfold liftAllTo
  induction us with
  | nil => rfl
  | cons u rest ih =>
    rw [List.map_cons, List.zip_cons_cons, List.mapM_cons, ih]
    simp only [liftTo_sort]
    rfl

theorem conveys_apply {f : Symbol} {args : List Term} (hwell : (Term.apply f args).WellSorted)
    (hargs : args ≠ []) (hf : names.find? f.name = some (.term (.symbol f)))
    (hoperands : ∀ a ∈ args, Conveys sorts names a.sexpr a) :
    Conveys sorts names (Term.apply f args).sexpr (.apply f args) := by
  intro T
  obtain ⟨us, hus, hrestate⟩ := translateAll_conveys (conveys_operands hoperands) T
  have hsorts := sameSorts_of_restates hrestate
  have hdomains : f.sort.domains = us.map Term.sort := by
    rw [hsorts.map_sort]
    simpa [fits] using hwell.fits
  have hlength : us.length = args.length := hrestate.length_eq.symm
  have hfunction : (Term.symbol f).sort.isFunction = true := isFunction_of_fits hwell.fits hargs
  have hnonempty : us.isEmpty = false := by
    rw [List.isEmpty_eq_false_iff]
    rintro rfl
    exact hargs (List.length_eq_zero_iff.mp hlength.symm)
  have hfits : (Term.apply f us).fits = true := by simp [fits, hdomains]
  have hbuilds := builds_checked hfits hsorts.wellSorted
  have hsort : (Term.apply f us).sort = (Term.apply f args).sort := by simp [sort, hlength]
  rw [hsort] at hbuilds
  obtain ⟨u, hu, hrestates⟩ := restates_of_builds hbuilds fun I hI => by
    rw [eval, eval, evalAll_eq_map, evalAll_eq_map, map_eval_of_restates hrestate hI]
  refine ⟨u, ?_, hrestates⟩
  rw [sexpr_node rfl, head, operands,
    run_translate_application (hnames f.name _ hf).form hf hus, applyBinding]
  rw [if_pos hfunction]
  simp only [Term.sort, hdomains, List.length_map, ne_eq, not_true_eq_false, if_false,
    liftAllTo_sorts, mkApply, hnonempty, Bool.false_eq_true, hu]
  rfl

/-! ### Operators with indices -/

omit hnames in
theorem readIndices_toString {name : String} {whole : SExpr} {op : IndexedOperator}
    {indices : List Nat} (hcount : indices.length = op.indexCount) (T : TermState) :
    (readIndices name whole op (indices.map fun n => .atom (toString n))).run T =
      (.ok indices, T) := by
  rw [readIndices, if_pos (by simpa using hcount)]
  clear hcount
  induction indices with
  | nil => rfl
  | cons n rest ih =>
    have hindex : (index whole (.atom (toString n))).run T = (.ok n, T) := by
      rw [index, Numeral.read_toString]
      rfl
    rw [List.map_cons, List.mapM_cons, run_bind_ok hindex, run_bind_ok ih, run_pure]

omit hnames in
/-- A bit-vector under an operator with indices. -/
theorem conveys_indexed {word : String} {op : IndexedOperator} {indices : List Nat} {a : Term}
    (hop : IndexedOperator.ofName? word = some op) (hcount : indices.length = op.indexCount)
    (ha : Conveys sorts names s a) (hbits : a.isBitVec = true)
    (happly : ∀ u, u.Restates a → ∃ v, op.apply indices u = .ok v ∧ v.Restates t) :
    Conveys sorts names (.list [.indexed word indices, s]) t := by
  intro T
  obtain ⟨u, hu, hrestates⟩ := ha T
  obtain ⟨v, hv, hresult⟩ := happly u hrestates
  have hbits' : u.isBitVec = true := by
    rwa [isBitVec, width?, hrestates.typed.sort_eq]
  refine ⟨v, ?_, hresult⟩
  rw [SExpr.indexed, translate.eq_def]
  simp only [hop]
  rw [run_bind_ok (readIndices_toString hcount T), run_bind_ok hu, applyIndexed, if_pos hbits', hv]
  rfl

/-! ### Constant arrays -/

omit hnames in
theorem conveys_constArray {index : SmtSort} {v : Term}
    (hsort : sorts.parse (SmtSort.array index v.sort).sexpr = .ok (.array index v.sort))
    (hwell : v.WellSorted) (hv : Conveys sorts names v.sexpr v) :
    Conveys sorts names (Term.constArray index v).sexpr (.constArray index v) := by
  intro T
  obtain ⟨u, hu, hrestates⟩ := hv T
  have hwell' : (Term.constArray index v).WellSorted :=
    .node rfl (by simpa [operands] using hwell)
  obtain ⟨w, hw, hresult⟩ := rebuild_restates hwell' rfl (.cons hrestates .nil)
  refine ⟨w, ?_, hresult⟩
  have hlift : liftTo v.sort u = .ok u := hrestates.typed.sort_eq ▸ liftTo_sort u
  have hascribed (whole : SExpr) :
      (ascribedArray sorts whole (SmtSort.array index v.sort).sexpr).run T =
        (.ok (index, v.sort), T) := by
    rw [ascribedArray, hsort]
    rfl
  have hconstant (whole : SExpr) :
      (constantArray whole index v.sort u).run T = (.ok w, T) := by
    have hbuilt : mkConstArray index u = .ok w := hw
    rw [constantArray, hlift]
    show (node whole [u] (mkConstArray index u)).run T = _
    rw [hbuilt]
    rfl
  rw [sexpr_node rfl, head, translate.eq_def]
  simp only [operands, List.map_cons, List.map_nil]
  rw [run_bind_ok (hascribed _)]
  simp only
  rw [run_bind_ok hu, hconstant]

/-! ### Printable terms -/

/-- What a printable term is printed as conveys the term, as long as integers are not divided, no
name hides a word of the language, and each free symbol is what its name stands for. -/
theorem conveys_printable (hsorts : ∀ name ∈ sorts.declared, IsPlainWord name)
    (ht : t.Printable sorts) (hdivision : t.DividesReals)
    (hfree : ∀ c ∈ t.freeSymbols, names.find? c.name = some (.term (.symbol c))) :
    Conveys sorts names t.sexpr t := by
  induction t using operands_induction with
  | step t ih =>
    have hoperands : ∀ a ∈ t.operands, Conveys sorts names a.sexpr a := fun a ha =>
      ih a ha (ht.operand ha) (hdivision.operand ha) fun c hc =>
        hfree c (mem_freeSymbols_of_operand ht.ne_quantified ha hc)
    have hwell := ht.wellSorted
    have hspellable := ht.written.spellable
    have hfits := hwell.fits
    -- what is built again from an operand under an operator with indices
    have hindexed {a : Term} (ha : t.operands = [a]) (hroot : t.root.isInterpreted = false)
        (u : Term) (hu : u.Restates a) : ∃ v, rebuild t.root [u] = .ok v ∧ v.Restates t :=
      rebuild_restates hwell hroot (ha ▸ .cons hu .nil)
    cases t with
    | bool value =>
      rw [sexpr_leaf rfl]
      cases value with
      | true => exact conveys_constant hnames (.inr List.mem_cons_self) rfl
      | false => exact conveys_constant hnames (.inr (.tail _ List.mem_cons_self)) rfl
    | int value =>
      rw [sexpr_leaf rfl]
      exact conveys_integer hnames value
    | real value =>
      rw [sexpr_leaf rfl]
      exact conveys_rational hnames value
    | bitVec width value =>
      rw [sexpr_leaf rfl]
      exact conveys_bits hnames (SortTable.writes_bitVec.mp hspellable) value
    | symbol c =>
      rw [sexpr_leaf rfl]
      exact conveys_symbol (hfree c (by simp [freeSymbols]))
    | quantified q bound body => exact absurd rfl (ht.ne_quantified q bound body)
    | apply f args =>
      exact conveys_apply hnames hwell hspellable (hfree f (by simp [freeSymbols])) hoperands
    | constArray index v =>
      have hv : v ∈ (Term.constArray index v).operands := by simp [operands]
      exact conveys_constArray
        (SortTable.parse_sexpr (SortTable.not_declared_of_plain hsorts) ht.writes_array)
        (hwell.operand hv)
        (hoperands v hv)
    | extract high low a =>
      have hextract : IndexedOperator.ofName? "extract" = some .extract := rfl
      have ha : a ∈ (Term.extract high low a).operands := by simp [operands]
      obtain ⟨⟨hbits, hlow⟩, hhigh⟩ : (a.isBitVec = true ∧ low ≤ high) ∧ high < a.sort.width := by
        simpa [fits] using hfits
      rw [sexpr_node rfl]
      refine conveys_indexed hextract rfl (hoperands a ha) hbits fun u hu => ?_
      obtain ⟨v, hv, hrestates⟩ := hindexed rfl rfl u hu
      refine ⟨v, ?_, hrestates⟩
      have hv : mkExtract high low u = .ok v := hv
      rw [IndexedOperator.apply, if_pos (by simp [hu.typed.sort_eq, hlow, hhigh]), hv]
      rfl
    | rotate side step a =>
      have hrotate : IndexedOperator.ofName? side.text = some (.rotate side) := by
        cases side <;> rfl
      have ha : a ∈ (Term.rotate side step a).operands := by simp [operands]
      rw [sexpr_node rfl]
      refine conveys_indexed hrotate rfl (hoperands a ha) (by simp [fits] at hfits; exact hfits.1)
        fun u hu => ?_
      obtain ⟨v, hv, hrestates⟩ := hindexed rfl rfl u hu
      have hv : mkRotate side step u = .ok v := hv
      exact ⟨v, by rw [IndexedOperator.apply, hv]; rfl, hrestates⟩
    | widen bits extra a =>
      have hwiden : IndexedOperator.ofName? bits.text = some (.widen bits) := by
        cases bits <;> rfl
      have ha : a ∈ (Term.widen bits extra a).operands := by simp [operands]
      rw [sexpr_node rfl]
      refine conveys_indexed hwiden rfl (hoperands a ha) hfits fun u hu => ?_
      obtain ⟨v, hv, hrestates⟩ := hindexed rfl rfl u hu
      have hv : mkWiden bits extra u = .ok v := hv
      exact ⟨v, by rw [IndexedOperator.apply, hv]; rfl, hrestates⟩
    | arith op a b =>
      cases op <;> exact conveys_operator hnames rfl hwell hspellable hdivision hoperands
    | order op a b =>
      cases op <;> exact conveys_operator hnames rfl hwell hspellable hdivision hoperands
    | bitOp op a b =>
      cases op <;> exact conveys_operator hnames rfl hwell hspellable hdivision hoperands
    | _ => exact conveys_operator hnames rfl hwell hspellable hdivision hoperands

end

end SmtScript
