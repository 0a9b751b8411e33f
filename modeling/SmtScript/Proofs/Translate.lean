import SmtScript.Proofs.Operator
import SmtScript.Proofs.TermState

/-!
What translation keeps.

Translation puts terms together, makes symbols, notes integer parts, and takes definitions with
arguments. `Translation.Kept` says that these steps keep something known of the state, of the
environment and of terms; then all of translation does, `Kept.translate`. The symbols that are
open are the variables of the quantifiers around what is translated.
-/

namespace SmtScript

open Term

/-! ### Lifting -/

section

variable {W : SmtSort → Prop} {P : Term → Prop} {t u : Term} {ts us : List Term}

theorem keeps_liftTo (hP : Hereditary W P) {sort : SmtSort} (h : liftTo sort t = .ok u)
    (ht : P t) : P u := by
  unfold liftTo at h
  split at h
  · exact keeps_liftToReal hP h ht
  · exact Except.ok.inj h ▸ ht

theorem keeps_liftAllTo (hP : Hereditary W P) {sorts : List SmtSort}
    (h : liftAllTo sorts ts = .ok us) (hts : ∀ t ∈ ts, P t) : ∀ u ∈ us, P u := by
  unfold liftAllTo at h
  induction sorts generalizing ts us with
  | nil =>
    obtain rfl := Except.ok.inj h
    simp
  | cons sort sorts ih =>
    cases ts with
    | nil =>
      obtain rfl := Except.ok.inj h
      simp
    | cons t rest =>
      rw [List.zip_cons_cons, List.mapM_cons] at h
      obtain ⟨first, hfirst, h⟩ := bind_ok h
      obtain ⟨later, hlater, h⟩ := bind_ok h
      obtain rfl := Except.ok.inj h
      have hrest := ih hlater fun t ht => hts t (by simp [ht])
      simpa using ⟨keeps_liftTo hP hfirst (hts t (by simp)), hrest⟩

theorem length_liftAllTo {sorts : List SmtSort} (h : liftAllTo sorts ts = .ok us)
    (hlen : ts.length = sorts.length) : us.length = sorts.length := by
  unfold liftAllTo at h
  induction sorts generalizing ts us with
  | nil =>
    obtain rfl := Except.ok.inj h
    rfl
  | cons sort sorts ih =>
    cases ts with
    | nil => cases hlen
    | cons t rest =>
      rw [List.zip_cons_cons, List.mapM_cons] at h
      obtain ⟨first, hfirst, h⟩ := bind_ok h
      obtain ⟨later, hlater, h⟩ := bind_ok h
      obtain rfl := Except.ok.inj h
      simpa using ih hlater (Nat.succ.inj hlen)

theorem keeps_applyIndexed (hP : Hereditary W P) {op : IndexedOperator} {indices : List Nat}
    (h : op.apply indices t = .ok u) (ht : P t) : P u := by
  unfold IndexedOperator.apply at h
  split at h
  · split at h
    · exact keeps_mkExtract hP (ok_of_lift h) ht
    · cases h
  · exact keeps_mkCopies hP (ok_of_lift h) ht
  · exact keeps_mkWiden hP (ok_of_lift h) ht
  · exact keeps_mkRotate hP (ok_of_lift h) ht
  · cases h

end

namespace Literal

/-- A run of digits denotes a bit-vector that has bits. -/
theorem pos_of_bits? {bitsPerDigit : Nat} {value? : Char → Option Nat} {chars : List Char}
    {literal : Literal} (hpos : 0 < bitsPerDigit)
    (h : bits? bitsPerDigit value? chars = some literal) :
    ∃ (width : Nat) (value : BitVec width), literal = .bitVec width value ∧ 0 < width := by
  unfold bits? at h
  split at h
  · cases h
  · rename_i hne
    obtain ⟨digits, -, rfl⟩ := Option.map_eq_some_iff.mp h
    refine ⟨_, _, rfl, Nat.mul_pos hpos ?_⟩
    exact List.length_pos_iff.mpr fun hnil => hne (List.isEmpty_iff.mpr hnil)

theorem ne_bitVec_of_number? {atom : String} {literal : Literal}
    (h : number? atom = .ok (some literal)) (width : Nat) (value : BitVec width) :
    literal ≠ .bitVec width value := by
  rintro rfl
  unfold number? at h
  dsimp only at h
  split at h
  · cases h
  · split at h
    · cases h
    · split at h <;> cases h
  · obtain ⟨_, -, h⟩ := Option.map_eq_some_iff.mp (Except.ok.inj h)
    cases h

theorem pos_of_read {atom : String} {width : Nat} {value : BitVec width}
    (h : read atom = .ok (.bitVec width value)) : 0 < width := by
  unfold read at h
  split at h
  · cases h
  · split at h
    · cases h
    · split at h
      · split at h
        · rename_i literal hliteral
          obtain ⟨_, _, rfl, hpos⟩ := pos_of_bits? Nat.one_pos hliteral
          cases h
          exact hpos
        · cases h
      · split at h
        · rename_i literal hliteral
          obtain ⟨_, _, rfl, hpos⟩ := pos_of_bits? (by decide) hliteral
          cases h
          exact hpos
        · cases h
      · split at h
        · rename_i literal hliteral
          cases h
          exact absurd rfl (ne_bitVec_of_number? hliteral width value)
        · cases h
        · cases h

end Literal

namespace Translation

variable {T : TermState} {sexpr : SExpr}

/-! ### Steps that leave the state alone -/

theorem index_same (s : SExpr) : Step.Leads Eq (index sexpr s) T fun _ _ => True := by
  unfold index
  split
  · split
    · exact .pure Step.closed_eq trivial
    · exact .throw Step.closed_eq _
    · exact .throw Step.closed_eq _
  · exact .throw Step.closed_eq _

theorem mapM_index_same (items : List SExpr) :
    Step.Leads Eq (items.mapM (index sexpr)) T fun _ _ => True := by
  induction items generalizing T with
  | nil => exact .pure Step.closed_eq trivial
  | cons s rest ih =>
    rw [List.mapM_cons]
    refine .bind Step.closed_eq (index_same s) fun _ _ _ _ => ?_
    exact .bind Step.closed_eq ih fun _ _ _ _ => .pure Step.closed_eq trivial

theorem readIndices_same {name : String} {op : IndexedOperator} (indices : List SExpr) :
    Step.Leads Eq (readIndices name sexpr op indices) T fun _ _ => True := by
  unfold readIndices
  split
  · exact mapM_index_same indices
  · exact .throw Step.closed_eq _

theorem ascribedArray_same (sorts : SortTable) (sort : SExpr) :
    Step.Leads Eq (ascribedArray sorts sexpr sort) T
      fun _ p => sorts.parse sort = .ok (.array p.1 p.2) := by
  refine .bind Step.closed_eq (Q := fun _ a => sorts.parse sort = .ok a)
    (.mk Step.closed_eq fun _ h => h) fun a T' _ h => ?_
  split
  · exact .pure Step.closed_eq h
  · exact .throw Step.closed_eq _

theorem indexedConstant_same (items : List SExpr) :
    Step.Leads Eq (indexedConstant items) T fun _ _ => True := by
  unfold indexedConstant
  split
  · split
    · exact .throw Step.closed_eq _
    · refine .bind Step.closed_eq (index_same _) fun width T' _ _ => ?_
      split
      · exact .throw Step.closed_eq _
      · exact .mk Step.closed_eq fun _ _ => trivial
  · exact .throw Step.closed_eq _

theorem translateAtom_same (names : Names) (atom : String) :
    Step.Leads Eq (translateAtom names atom) T fun _ _ => True := by
  unfold translateAtom
  split
  · exact .pure Step.closed_eq trivial
  · exact .throw Step.closed_eq _
  · exact .mk Step.closed_eq fun _ _ => trivial

theorem applyIndexed_same (name : String) (op : IndexedOperator) (indices : List Nat) (t : Term) :
    Step.Leads Eq (applyIndexed name sexpr op indices t) T fun _ _ => True := by
  unfold applyIndexed
  split
  · exact .mk Step.closed_eq fun _ _ => trivial
  · exact .throw Step.closed_eq _

/-! ### Symbols -/

/-- The next symbol with a stem for its name. -/
def fresh (T : TermState) (stem : String) (sort : SmtSort) : Symbol := (T.table.fresh stem sort).1

/-- The state in which it has been made. -/
def made (T : TermState) (stem : String) (sort : SmtSort) : TermState :=
  { T with table := (T.table.fresh stem sort).2 }

/-- The state in which it is a variable or a parameter. -/
def opened (T : TermState) (stem : String) (sort : SmtSort) : TermState :=
  { made T stem sort with locals := fresh T stem sort :: T.locals }

/-- The state in which it stands for the integer part of a term. -/
def divided (T : TermState) (t : Term) : TermState :=
  { made T "to_int_" .int with integerParts := (fresh T "to_int_" .int, t) :: T.integerParts }

theorem run_freshSymbol (stem : String) (sort : SmtSort) (T : TermState) :
    (freshSymbol stem sort).run T = (.ok (fresh T stem sort), made T stem sort) := rfl

theorem run_freshLocal (stem : String) (sort : SmtSort) (T : TermState) :
    (freshLocal stem sort).run T = (.ok (fresh T stem sort), opened T stem sort) := rfl

theorem not_knows_fresh (T : TermState) (stem : String) (sort : SmtSort) :
    ¬ T.Knows (fresh T stem sort) :=
  T.table.fresh_not_mem stem sort

theorem knows_fresh_made (T : TermState) (stem : String) (sort : SmtSort) :
    (made T stem sort).Knows (fresh T stem sort) :=
  List.mem_cons_self

/-! ### What is kept -/

/-- Whether the steps of translation keep what is known of the state and the environment, `inv`,
and of terms, `good`, where some symbols are open. What holds of the state as long as no step
fails is `clean`, `R` is what a step does to the state in any case, and `W` holds of the index
sorts of arrays that are written. -/
structure Kept (W : SmtSort → Prop) (R : TermState → TermState → Prop) (clean : TermState → Prop)
    (inv : List Symbol → Names → TermState → Prop)
    (good : List Symbol → TermState → Term → Prop) : Prop where
  closed : Step.Closed R
  table : ∀ {T T' : TermState}, R T T' → T.table.symbols <:+ T'.table.symbols
  hereditary : ∀ (c : List Symbol) (T : TermState), Hereditary W (good c T)
  good_mono : ∀ {c : List Symbol} {T T' : TermState} {t : Term},
    good c T t → R T T' → good c T' t
  inv_mono : ∀ {c : List Symbol} {names : Names} {T T' : TermState},
    inv c names T → R T T' → clean T' → inv c names T'
  find : ∀ {c : List Symbol} {names : Names} {T : TermState} {name : String} {t : Term},
    inv c names T → names.find? name = some (.term t) → good c T t
  extend : ∀ {c : List Symbol} {names : Names} {T : TermState} {bound : List (String × Binding)},
    inv c names T → (∀ p ∈ bound, ∃ t, p.2 = .term t ∧ good c T t) → inv c (names.extend bound) T
  /-- A symbol that is bound as soon as it is made. -/
  make : ∀ {c : List Symbol} {names : Names} {T : TermState}, inv c names T → clean T →
    ∀ (stem : String) (sort : SmtSort),
      R T (made T stem sort) ∧ clean (made T stem sort) ∧
        good (fresh T stem sort :: c) (made T stem sort) (.symbol (fresh T stem sort)) ∧
        ∀ t, good c T t → good (fresh T stem sort :: c) (made T stem sort) t
  /-- A symbol that is open for a while. -/
  opens : ∀ {c : List Symbol} {names : Names} {T : TermState}, inv c names T → clean T →
    ∀ (stem : String) (sort : SmtSort),
      R T (opened T stem sort) ∧ clean (opened T stem sort) ∧
        inv (fresh T stem sort :: c) names (opened T stem sort) ∧
        good (fresh T stem sort :: c) (opened T stem sort) (.symbol (fresh T stem sort)) ∧
        ∀ t, good c T t → good (fresh T stem sort :: c) (opened T stem sort) t
  closes : ∀ {c c' bound : List Symbol} {names : Names} {T T₁ T₂ : TermState} {q : Quantifier}
    {t u : Term}, inv c names T → T₁.integerParts = T.integerParts →
    (∀ s ∈ bound, ¬ T.Knows s ∧ T₁.Knows s) → R T T₂ → R T₁ T₂ →
    (∀ s, s ∈ c' ↔ s ∈ bound ∨ s ∈ c) → good c' T₂ t → mkQuantified q bound t = .ok u → good c T₂ u
  part : ∀ {c : List Symbol} {names : Names} {T : TermState} {t : Term}, inv c names T →
    clean T → good c T t → t.sort = .real → t.symbols.any T.locals.contains = false →
    R T (divided T t) ∧ clean (divided T t) ∧
      good c (divided T t) (.symbol (fresh T "to_int_" .int))
  application : ∀ {c : List Symbol} {T : TermState} {f : Symbol} {args : List Term} {u : Term},
    good c T (.symbol f) → (∀ t ∈ args, good c T t) → mkApply f args = .ok u → good c T u
  definition : ∀ {c : List Symbol} {names : Names} {T : TermState} {head : String}
    {d : Definition} {values : List Term} {result : Except Fault Term} {leftover : Leftover},
    inv c names T → clean T → names.find? head = some (.definition d) →
    values.length = d.parameters.length → (∀ t ∈ values, good c T t) →
    d.body.instantiate (d.parameters.zip values) T.leftover = (result, leftover) →
    R T { T with leftover } ∧
      ∀ u, result = .ok u → clean { T with leftover } ∧ good c { T with leftover } u

namespace Kept

/-- What is kept together with something else. -/
theorem and {W : SmtSort → Prop} {R R' : TermState → TermState → Prop}
    {clean clean' : TermState → Prop}
    {inv inv' : List Symbol → Names → TermState → Prop}
    {good good' : List Symbol → TermState → Term → Prop} (h : Kept W R clean inv good)
    (h' : Kept W R' clean' inv' good') :
    Kept W (fun T T' => R T T' ∧ R' T T') (fun T => clean T ∧ clean' T)
      (fun c names T => inv c names T ∧ inv' c names T)
      (fun c T t => good c T t ∧ good' c T t) where
  closed := h.closed.and h'.closed
  table hR := h.table hR.1
  hereditary c T := (h.hereditary c T).and (h'.hereditary c T)
  good_mono ht hR := ⟨h.good_mono ht.1 hR.1, h'.good_mono ht.2 hR.2⟩
  inv_mono hinv hR hclean :=
    ⟨h.inv_mono hinv.1 hR.1 hclean.1, h'.inv_mono hinv.2 hR.2 hclean.2⟩
  find hinv hfind := ⟨h.find hinv.1 hfind, h'.find hinv.2 hfind⟩
  extend hinv hbound :=
    ⟨h.extend hinv.1 fun p hp => (hbound p hp).imp fun _ ht => ⟨ht.1, ht.2.1⟩,
      h'.extend hinv.2 fun p hp => (hbound p hp).imp fun _ ht => ⟨ht.1, ht.2.2⟩⟩
  make hinv hclean stem sort := by
    obtain ⟨hR, hc, hsymbol, hlift⟩ := h.make hinv.1 hclean.1 stem sort
    obtain ⟨hR', hc', hsymbol', hlift'⟩ := h'.make hinv.2 hclean.2 stem sort
    exact ⟨⟨hR, hR'⟩, ⟨hc, hc'⟩, ⟨hsymbol, hsymbol'⟩,
      fun t ht => ⟨hlift t ht.1, hlift' t ht.2⟩⟩
  opens hinv hclean stem sort := by
    obtain ⟨hR, hc, hopens, hsymbol, hlift⟩ := h.opens hinv.1 hclean.1 stem sort
    obtain ⟨hR', hc', hopens', hsymbol', hlift'⟩ := h'.opens hinv.2 hclean.2 stem sort
    exact ⟨⟨hR, hR'⟩, ⟨hc, hc'⟩, ⟨hopens, hopens'⟩, ⟨hsymbol, hsymbol'⟩,
      fun t ht => ⟨hlift t ht.1, hlift' t ht.2⟩⟩
  closes hinv hparts hnew hR hR' hc ht hu :=
    ⟨h.closes hinv.1 hparts hnew hR.1 hR'.1 hc ht.1 hu,
      h'.closes hinv.2 hparts hnew hR.2 hR'.2 hc ht.2 hu⟩
  part hinv hclean ht hreal hlocals := by
    obtain ⟨hR, hc, hsymbol⟩ := h.part hinv.1 hclean.1 ht.1 hreal hlocals
    obtain ⟨hR', hc', hsymbol'⟩ := h'.part hinv.2 hclean.2 ht.2 hreal hlocals
    exact ⟨⟨hR, hR'⟩, ⟨hc, hc'⟩, hsymbol, hsymbol'⟩
  application hf hargs hu :=
    ⟨h.application hf.1 (fun t ht => (hargs t ht).1) hu,
      h'.application hf.2 (fun t ht => (hargs t ht).2) hu⟩
  definition hinv hclean hfind hlen hvalues hrun := by
    obtain ⟨hR, hresult⟩ :=
      h.definition hinv.1 hclean.1 hfind hlen (fun t ht => (hvalues t ht).1) hrun
    obtain ⟨hR', hresult'⟩ :=
      h'.definition hinv.2 hclean.2 hfind hlen (fun t ht => (hvalues t ht).2) hrun
    exact ⟨⟨hR, hR'⟩, fun u hu =>
      ⟨⟨(hresult u hu).1, (hresult' u hu).1⟩, (hresult u hu).2, (hresult' u hu).2⟩⟩

theorem congr {W : SmtSort → Prop} {R R' : TermState → TermState → Prop}
    {clean clean' : TermState → Prop}
    {inv inv' : List Symbol → Names → TermState → Prop}
    {good good' : List Symbol → TermState → Term → Prop} (h : Kept W R clean inv good)
    (hR : ∀ T T', R T T' ↔ R' T T') (hclean : ∀ T, clean T ↔ clean' T)
    (hinv : ∀ c names T, inv c names T ↔ inv' c names T)
    (hgood : ∀ c T t, good c T t ↔ good' c T t) : Kept W R' clean' inv' good' := by
  obtain rfl : R = R' := by funext T T'; exact propext (hR T T')
  obtain rfl : clean = clean' := by funext T; exact propext (hclean T)
  obtain rfl : inv = inv' := by funext c names T; exact propext (hinv c names T)
  obtain rfl : good = good' := by funext c T t; exact propext (hgood c T t)
  exact h

variable {W : SmtSort → Prop} {R : TermState → TermState → Prop} {clean : TermState → Prop}
  {inv : List Symbol → Names → TermState → Prop} {good : List Symbol → TermState → Term → Prop}
  {c : List Symbol} {names : Names} {ts : List Term} {t : Term}

/-- What is expected of a step that yields a term. -/
abbrev Yields (R : TermState → TermState → Prop) (clean : TermState → Prop)
    (good : List Symbol → TermState → Term → Prop) (c : List Symbol) (x : Translation Term)
    (T : TermState) : Prop :=
  Step.Leads R x T fun T' t => clean T' ∧ good c T' t

variable (hkept : Kept W R clean inv good)

include hkept

/-- A step that only puts together a term. -/
theorem yields_mk {r : Except Error Term} (hclean : clean T) (h : ∀ t, r = .ok t → good c T t) :
    Yields R clean good c (ExceptT.mk (pure r)) T :=
  .mk hkept.closed fun t ht => ⟨hclean, h t ht⟩

theorem yields_node {x : Except Fault Term} (hclean : clean T)
    (h : ∀ t, x = .ok t → good c T t) : Yields R clean good c (node sexpr ts x) T :=
  hkept.yields_mk hclean fun t ht => h t (mapError_ok ht)

/-- The integer part of a Real term that is no constant gets a symbol of its own. -/
theorem yields_integerPart (hinv : inv c names T) (hclean : clean T) (ht : good c T t) :
    Yields R clean good c (integerPart t) T := by
  unfold integerPart
  split
  · exact .pure hkept.closed ⟨hclean, ht⟩
  · exact .pure hkept.closed ⟨hclean, keeps_int (hkept.hereditary c T) _⟩
  · rename_i hreal
    refine .get ?_
    split
    · exact .throw hkept.closed _
    · rename_i hlocals
      obtain ⟨hR, hclean', hgood⟩ := hkept.part hinv hclean ht hreal (by simpa using hlocals)
      refine .of_run (r := .ok _) rfl hR ?_
      rintro _ ⟨⟩
      exact ⟨hclean', hgood⟩
  · exact .throw hkept.closed _

theorem yields_isIntegral (hinv : inv c names T) (hclean : clean T) (ht : good c T t) :
    Yields R clean good c (isIntegral sexpr t) T := by
  refine .bind hkept.closed (hkept.yields_node hclean fun u hu =>
    keeps_liftToReal (hkept.hereditary c T) hu ht) fun number T₁ hT₁ h₁ => ?_
  obtain ⟨hclean₁, hnumber⟩ := h₁
  have hinv₁ := hkept.inv_mono hinv hT₁ hclean₁
  obtain ⟨hR, hclean₂, hwitness, hlift⟩ := hkept.make hinv₁ hclean₁ "is_int_" .int
  have hmade : Step.Leads R (freshSymbol "is_int_" .int) T₁
      fun T' s => T' = made T₁ "is_int_" .int ∧ s = fresh T₁ "is_int_" .int :=
    .of_run (run_freshSymbol _ _ T₁) hR fun s hs => ⟨rfl, (Except.ok.inj hs).symm⟩
  refine .bind hkept.closed hmade fun witness T₂ _ h₂ => ?_
  obtain ⟨rfl, rfl⟩ := h₂
  refine hkept.yields_node hclean₂ fun u hu => ?_
  obtain ⟨lifted, hlifted, hu⟩ := bind_ok hu
  obtain ⟨equality, hequality, hu⟩ := bind_ok hu
  have hP := hkept.hereditary (fresh T₁ "is_int_" .int :: c) (made T₁ "is_int_" .int)
  have hequal := keeps_checked hP hequality trivial
    (by simpa [operands] using ⟨keeps_mkToReal hP hlifted hwitness, hlift _ hnumber⟩)
  have hsame : (made T₁ "is_int_" .int).integerParts = T₁.integerParts := rfl
  refine hkept.closes hinv₁ hsame ?_ hR (hkept.closed.refl _) ?_ hequal hu
  · simpa using ⟨not_knows_fresh T₁ _ _, knows_fresh_made T₁ _ _⟩
  · simp

theorem yields_applyBinding {head : String} {binding : Binding} (hinv : inv c names T)
    (hclean : clean T) (hfind : names.find? head = some binding) (hts : ∀ t ∈ ts, good c T t) :
    Yields R clean good c (applyBinding head sexpr binding ts) T := by
  unfold applyBinding
  split
  · rename_i d
    split
    · exact .throw hkept.closed _
    · rename_i hlen
      split
      · exact .throw hkept.closed _
      · rename_i values hvalues
        have hlen' : values.length = d.parameters.length := by
          simpa using length_liftAllTo hvalues (by simpa using hlen)
        have hgood := keeps_liftAllTo (hkept.hereditary c T) hvalues hts
        refine .get ?_
        obtain ⟨hR, hresult⟩ := hkept.definition hinv hclean hfind hlen' hgood rfl
        refine .bind hkept.closed (Q := fun T' _ => T' = _)
          (.of_run (Step.run_set _ _) hR fun _ _ => rfl) fun _ T' _ hT' => ?_
        subst hT'
        refine .mk hkept.closed fun u hu => ?_
        exact hresult u (mapError_ok hu)
  · rename_i u
    have hu : good c T u := hkept.find hinv hfind
    split
    · dsimp only
      split
      · exact .throw hkept.closed _
      · split
        · rename_i f args hargs
          refine hkept.yields_node hclean fun v hv => ?_
          exact hkept.application hu (keeps_liftAllTo (hkept.hereditary c T) hargs hts) hv
        · exact .throw hkept.closed _
    · split
      · exact .pure hkept.closed ⟨hclean, hu⟩
      · exact .throw hkept.closed _

theorem yields_indexedConstant (hclean : clean T) (items : List SExpr) :
    Yields R clean good c (indexedConstant items) T := by
  unfold indexedConstant
  split
  · split
    · exact .throw hkept.closed _
    · refine .bind_same (hkept.closed.refl T) (index_same _) fun width _ => ?_
      split
      · exact .throw hkept.closed _
      · rename_i hwidth
        exact hkept.yields_mk hclean fun u hu =>
          keeps_mkBits (hkept.hereditary c T) (mapError_ok hu) (Nat.pos_of_ne_zero hwidth)
  · exact .throw hkept.closed _

theorem yields_atom (hinv : inv c names T) (hclean : clean T) (atom : String) :
    Yields R clean good c (translateAtom names atom) T := by
  unfold translateAtom
  split
  · rename_i u hfind
    exact .pure hkept.closed ⟨hclean, hkept.find hinv hfind⟩
  · exact .throw hkept.closed _
  · refine hkept.yields_mk hclean fun u hu => ?_
    cases hread : Literal.read atom with
    | error e => rw [hread] at hu; cases hu
    | ok literal =>
      rw [hread] at hu
      obtain rfl := Except.ok.inj hu
      cases literal with
      | bitVec width value =>
        exact keeps_bitVec (hkept.hereditary c T)
          ((hkept.hereditary c T).bits (Literal.pos_of_read hread)) value
      | _ => exact (hkept.hereditary c T).node rfl trivial nofun

theorem yields_applyIndexed {name : String} {op : IndexedOperator} {indices : List Nat}
    (hclean : clean T) (ht : good c T t) :
    Yields R clean good c (applyIndexed name sexpr op indices t) T := by
  unfold applyIndexed
  split
  · exact hkept.yields_mk hclean fun u hu =>
      keeps_applyIndexed (hkept.hereditary c T) (mapError_ok hu) ht
  · exact .throw hkept.closed _

theorem yields_constantArray {index element : SmtSort} (hindex : W index) (hclean : clean T)
    (ht : good c T t) :
    Yields R clean good c (constantArray sexpr index element t) T := by
  refine .bind hkept.closed (Q := fun T' u => clean T' ∧ good c T' u)
    (.mk hkept.closed fun u hu => ?_) fun u T' _ h => ?_
  · exact ⟨hclean, keeps_liftTo (hkept.hereditary c T) (mapError_ok hu) ht⟩
  · exact hkept.yields_node h.1 fun v hv => keeps_mkConstArray (hkept.hereditary c T') hv hindex h.2

/-! ### Variables -/

/-- What declarations of variables lead to: the variables are new and open. -/
structure Opened (inv : List Symbol → Names → TermState → Prop)
    (good : List Symbol → TermState → Term → Prop) (c : List Symbol) (names : Names)
    (T T' : TermState) (declared : List (String × Symbol)) : Prop where
  inv : inv ((declared.map Prod.snd).reverse ++ c) names T'
  lift : ∀ t, good c T t → good ((declared.map Prod.snd).reverse ++ c) T' t
  symbols : ∀ p ∈ declared, good ((declared.map Prod.snd).reverse ++ c) T' (.symbol p.2)
  new : ∀ p ∈ declared, ¬ T.Knows p.2 ∧ T'.Knows p.2
  distinct : (declared.map Prod.snd).Nodup
  integerParts : T'.integerParts = T.integerParts

omit hkept in
theorem Opened.nil (h : inv c names T) : Opened inv good c names T T [] :=
  ⟨h, fun _ => id, nofun, nofun, .nil, rfl⟩

/-- One more variable before the others. -/
theorem Opened.cons {T' : TermState} {name stem : String} {sort : SmtSort}
    {later : List (String × Symbol)} (hinv : inv c names T) (hclean : clean T)
    (hR : R (opened T stem sort) T')
    (h : Opened inv good (fresh T stem sort :: c) names (opened T stem sort) T' later) :
    Opened inv good c names T T' ((name, fresh T stem sort) :: later) := by
  obtain ⟨hopened, _, _, hsymbol, hlift⟩ := hkept.opens hinv hclean stem sort
  have hmem := hkept.table hR
  have heq : ((((name, fresh T stem sort) :: later).map Prod.snd).reverse ++ c) =
      (later.map Prod.snd).reverse ++ fresh T stem sort :: c := by simp
  refine ⟨heq ▸ h.inv, fun t ht => heq ▸ h.lift t (hlift t ht), ?_, ?_, ?_, h.integerParts⟩
  · rw [heq]
    exact List.forall_mem_cons.mpr ⟨h.lift _ hsymbol, h.symbols⟩
  · refine List.forall_mem_cons.mpr ⟨⟨not_knows_fresh T stem sort, ?_⟩, fun p hp => ⟨?_, ?_⟩⟩
    · exact hmem.subset List.mem_cons_self
    · exact fun hknown => (h.new p hp).1 ((hkept.table hopened).subset hknown)
    · exact (h.new p hp).2
  · refine List.nodup_cons.mpr ⟨fun hmem => ?_, h.distinct⟩
    obtain ⟨p, hp, hfresh⟩ := List.mem_map.mp hmem
    exact (h.new p hp).1 (hfresh ▸ knows_fresh_made T stem sort)

theorem opens_variables (sorts : SortTable) (declarations : List SExpr) (hinv : inv c names T)
    (hclean : clean T) :
    Step.Leads R (declareVariables sorts declarations) T
      fun T' declared => clean T' ∧ Opened inv good c names T T' declared := by
  induction declarations generalizing c T with
  | nil => exact .pure hkept.closed ⟨hclean, .nil hinv⟩
  | cons declaration rest ih =>
    unfold declareVariables
    split
    · cases ‹_ = _›
    · rename_i name sort rest' heq
      obtain ⟨rfl, rfl⟩ := List.cons.inj heq
      refine .bind_same (hkept.closed.refl T) (Q := fun _ _ => True)
        (.mk Step.closed_eq fun _ _ => trivial) fun sort _ => ?_
      obtain ⟨hR, hclean₁, hinv₁, -⟩ := hkept.opens hinv hclean (name ++ "_") sort
      have hopened : Step.Leads R (freshLocal (name ++ "_") sort) T fun T' s =>
          T' = opened T (name ++ "_") sort ∧ s = fresh T (name ++ "_") sort :=
        .of_run (run_freshLocal _ _ T) hR fun s hs => ⟨rfl, (Except.ok.inj hs).symm⟩
      refine .bind hkept.closed hopened fun s T₁ _ h₁ => ?_
      obtain ⟨rfl, rfl⟩ := h₁
      refine .bind hkept.closed (ih hinv₁ hclean₁) fun later T₂ hR₂ h₂ => ?_
      exact .pure hkept.closed ⟨h₂.1, .cons hkept hinv hclean hR₂ h₂.2⟩
    · exact .throw hkept.closed _

omit hkept in
theorem Opened.bindings {T' : TermState} {declared : List (String × Symbol)}
    (h : Opened inv good c names T T' declared) : ∀ p ∈ bindSymbols declared,
      ∃ t, p.2 = .term t ∧ good ((declared.map Prod.snd).reverse ++ c) T' t := by
  intro p hp
  obtain ⟨q, hq, rfl⟩ := List.mem_map.mp hp
  exact ⟨_, rfl, h.symbols q hq⟩

theorem yields_quantify {T' T'' : TermState} {declared : List (String × Symbol)}
    {q : Quantifier} (hinv : inv c names T) (hopened : Opened inv good c names T T' declared)
    (hR : R T T'') (hR' : R T' T'') (hclean : clean T'')
    (ht : good ((declared.map Prod.snd).reverse ++ c) T'' t) :
    Yields R clean good c (quantify sexpr q declared t) T'' := by
  refine hkept.yields_mk hclean fun u hu => ?_
  refine hkept.closes hinv hopened.integerParts ?_ hR hR' ?_ ht (mapError_ok hu)
  · intro s hs
    obtain ⟨p, hp, rfl⟩ := List.mem_map.mp hs
    exact hopened.new p hp
  · simp

/-! ### S-expressions -/

/-- What is expected of a step that translates from an environment. -/
def Carries {α : Type} (R : TermState → TermState → Prop) (clean : TermState → Prop)
    (inv : List Symbol → Names → TermState → Prop) (names : Names) (x : Translation α)
    (post : List Symbol → TermState → α → Prop) : Prop :=
  ∀ (c : List Symbol) (T : TermState), inv c names T → clean T →
    Step.Leads R x T fun T' a => clean T' ∧ post c T' a

theorem carries_all (sorts : SortTable)
    (hsorts : ∀ s index element, sorts.parse s = .ok (.array index element) → W index) :
    (∀ names s, Carries R clean inv names (translate sorts names s) good) ∧
    (∀ names items, Carries R clean inv names (translateAll sorts names items)
      fun c T ts => ∀ t ∈ ts, good c T t) ∧
    (∀ names items, Carries R clean inv names (translateBindings sorts names items)
      fun c T bound => ∀ p ∈ bound, ∃ t, p.2 = .term t ∧ good c T t) := by
  refine translate.mutual_induct
    (fun names s => Carries R clean inv names (translate sorts names s) good)
    (fun names items => Carries R clean inv names (translateAll sorts names items)
      fun c T ts => ∀ t ∈ ts, good c T t)
    (fun names items => Carries R clean inv names (translateBindings sorts names items)
      fun c T bound => ∀ p ∈ bound, ∃ t, p.2 = .term t ∧ good c T t)
    ?atom ?empty ?constantArray ?constantArrays ?indexedUnknown ?indexed ?indexedMany ?lists
    ?bind ?bindMalformed ?quantified ?quantifiedMalformed ?unsupported ?indexedConstant
    ?bound ?converted ?unknown ?operator ?noItems ?items ?noBindings ?bindings ?otherBindings
  case atom =>
    intro names atom c T hinv hclean
    rw [translate.eq_def]
    exact hkept.yields_atom hinv hclean atom
  case empty =>
    intro names c T _ hclean
    exact .throw hkept.closed _
  case constantArray =>
    intro names sort arg ih c T hinv hclean
    rw [translate.eq_def]
    refine .bind_same (hkept.closed.refl T) (ascribedArray_same sorts sort) fun p hp => ?_
    refine .bind hkept.closed (ih c T hinv hclean) fun t T' _ ht => ?_
    exact hkept.yields_constantArray (hsorts sort p.1 p.2 hp) ht.1 ht.2
  case constantArrays =>
    intro names args sort hargs c T hinv hclean
    rw [translate.eq_def]
    simp only
    refine .bind_same (hkept.closed.refl T) (ascribedArray_same sorts sort) fun _ _ => ?_
    exact .throw hkept.closed _
  case indexedUnknown =>
    intro names args name indices hname c T _ hclean
    rw [translate.eq_def]
    simp only [hname]
    exact .throw hkept.closed _
  case indexed =>
    intro names name indices op hname arg ih c T hinv hclean
    rw [translate.eq_def]
    simp only [hname]
    refine .bind_same (hkept.closed.refl T) (readIndices_same indices) fun _ _ => ?_
    refine .bind hkept.closed (ih c T hinv hclean) fun t T' _ ht => ?_
    exact hkept.yields_applyIndexed ht.1 ht.2
  case indexedMany =>
    intro names args name indices op hname hargs c T _ hclean
    rw [translate.eq_def]
    simp only [hname]
    exact .throw hkept.closed _
  case lists =>
    intro names head args hascribed hindexed c T _ hclean
    rw [translate.eq_def]
    dsimp only
    split
    · exact (hascribed _ rfl).elim
    · exact (hindexed _ _ rfl).elim
    · exact .throw hkept.closed _
  case bind =>
    intro names binding bindings body hbindings hbody c T hinv hclean
    rw [translate.eq_def]
    simp only [if_true]
    refine .bind hkept.closed (hbindings c T hinv hclean) fun bound T' hT' hbound => ?_
    have hinv' := hkept.inv_mono hinv hT' hbound.1
    exact hbody bound c T' (hkept.extend hinv' hbound.2) hbound.1
  case bindMalformed =>
    intro names args hargs c T _ hclean
    rw [translate.eq_def]
    simp only [if_true]
    exact .throw hkept.closed _
  case quantified =>
    intro names head hlet q hq declaration declarations body hbody c T hinv hclean
    rw [translate.eq_def]
    simp only [hlet, hq, if_false]
    refine .bind hkept.closed (hkept.opens_variables sorts _ hinv hclean)
      fun declared T' hT' hd => ?_
    obtain ⟨hclean', hopened⟩ := hd
    have hinv' := hkept.extend hopened.inv hopened.bindings
    refine .bind hkept.closed (hbody declared _ T' hinv' hclean').keep fun t T'' _ ht => ?_
    obtain ⟨hT'', hclean'', ht⟩ := ht
    exact hkept.yields_quantify hinv hopened (hkept.closed.trans hT' hT'') hT'' hclean'' ht
  case quantifiedMalformed =>
    intro names head args hlet q hq hargs c T _ hclean
    rw [translate.eq_def]
    simp only [hlet, hq, if_false]
    exact .throw hkept.closed _
  case unsupported =>
    intro names head args hlet hq hform c T _ hclean
    rw [translate.eq_def]
    simp only [hlet, hq, hform, if_false, if_true]
    exact .throw hkept.closed _
  case indexedConstant =>
    intro names args hlet hq hform c T _ hclean
    rw [translate.eq_def]
    simp only [hlet, hq, hform, if_false, if_true]
    exact hkept.yields_indexedConstant hclean args
  case bound =>
    intro names head args hlet hq hform hindexed binding hfind ih c T hinv hclean
    rw [translate.eq_def]
    simp only [hlet, hq, hform, hindexed, hfind, if_false]
    refine .bind hkept.closed (ih c T hinv hclean) fun ts T' hT' hts => ?_
    exact hkept.yields_applyBinding (hkept.inv_mono hinv hT' hts.1) hts.1 hfind hts.2
  case converted =>
    intro names head args hlet hq hform hindexed hfind hconverted ih c T hinv hclean
    rw [translate.eq_def]
    simp only [hlet, hq, hform, hindexed, hfind, hconverted, if_false, if_true]
    refine .bind hkept.closed (ih c T hinv hclean) fun ts T' hT' hts => ?_
    obtain ⟨hclean', hts⟩ := hts
    have hinv' := hkept.inv_mono hinv hT' hclean'
    split
    · have ht := hts _ (List.mem_singleton_self _)
      split
      · exact hkept.yields_integerPart hinv' hclean' ht
      · exact hkept.yields_isIntegral hinv' hclean' ht
    · exact .throw hkept.closed _
  case unknown =>
    intro names head args hlet hq hform hindexed hfind hconverted hop c T _ hclean
    rw [translate.eq_def]
    simp only [hlet, hq, hform, hindexed, hfind, hconverted, hop, if_false]
    exact .throw hkept.closed _
  case operator =>
    intro names head args hlet hq hform hindexed hfind hconverted op hop ih c T hinv hclean
    rw [translate.eq_def]
    simp only [hlet, hq, hform, hindexed, hfind, hconverted, hop, if_false]
    refine .bind hkept.closed (ih c T hinv hclean) fun ts T' _ hts => ?_
    exact hkept.yields_mk hts.1 fun _ h =>
      keeps_apply (hkept.hereditary c T') (mapError_ok h) hts.2
  case noItems =>
    intro names c T _ hclean
    exact .pure hkept.closed ⟨hclean, nofun⟩
  case items =>
    intro names s rest ihs ihrest c T hinv hclean
    rw [translateAll]
    refine .bind hkept.closed (ihs c T hinv hclean) fun t T' hT' ht => ?_
    have hinv' := hkept.inv_mono hinv hT' ht.1
    refine .bind hkept.closed (ihrest c T' hinv' ht.1) fun ts T'' hT'' hts => ?_
    have hfirst := hkept.good_mono ht.2 hT''
    exact .pure hkept.closed ⟨hts.1, List.forall_mem_cons.mpr ⟨hfirst, hts.2⟩⟩
  case noBindings =>
    intro names c T _ hclean
    exact .pure hkept.closed ⟨hclean, nofun⟩
  case bindings =>
    intro names name value rest ihvalue ihrest c T hinv hclean
    rw [translateBindings]
    refine .bind hkept.closed (ihvalue c T hinv hclean) fun t T' hT' ht => ?_
    have hinv' := hkept.inv_mono hinv hT' ht.1
    refine .bind hkept.closed (ihrest c T' hinv' ht.1) fun bound T'' hT'' hbound => ?_
    have hfirst := hkept.good_mono ht.2 hT''
    exact .pure hkept.closed
      ⟨hbound.1, List.forall_mem_cons.mpr ⟨⟨t, rfl, hfirst⟩, hbound.2⟩⟩
  case otherBindings =>
    intro names binding rest hbinding c T _ hclean
    rw [translateBindings.eq_def]
    split
    · contradiction
    · rename_i heq
      obtain ⟨rfl, rfl⟩ := List.cons.inj heq
      exact (hbinding _ _ rfl).elim
    · exact .throw hkept.closed _


end Kept

end Translation

end SmtScript
