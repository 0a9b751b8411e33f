import Mathlib
import SmtScript.Proofs.Numeral
import SmtScript.Proofs.SExpr.Balance
import SmtScript.Proofs.Translate.Confined

/-!
Which names a translation depends on.

An S-expression is translated in the same way in all environments that agree on its atoms,
`translate_congr`, so names that do not occur in it may be bound to anything. A value that makes no
symbols leaves no trace when it is translated, `translate_returns`, unless it takes up a
substitution that was left unfinished. So the names of a `let` may be bound in any order,
`run_translate_letForm_perm`: each value is translated in the state that was there before.
-/

namespace SmtScript

open Step Translation

/-! ### Environments that agree -/

namespace Environment

variable {α : Type} {names names' : Environment α} {atoms atoms' : List String}

/-- Whether each of some names is bound to the same in two environments, or not bound in both. -/
def AgreeOn (names names' : Environment α) (atoms : List String) : Prop :=
  ∀ atom ∈ atoms, names.find? atom = names'.find? atom

theorem AgreeOn.mono (h : AgreeOn names names' atoms) (hsub : atoms' ⊆ atoms) :
    AgreeOn names names' atoms' := fun atom hatom => h atom (hsub hatom)

/-- Environments that agree do so when they are extended in the same way. -/
theorem AgreeOn.extend (h : AgreeOn names names' atoms) (bindings : List (String × α)) :
    AgreeOn (names.extend bindings) (names'.extend bindings) atoms := fun atom hatom => by
  rw [find?_extend, find?_extend, h atom hatom]

theorem agreeOn_extend {bindings : List (String × α)} (h : ∀ p ∈ bindings, p.1 ∉ atoms) :
    AgreeOn (names.extend bindings) names atoms := fun atom hatom => by
  have hnone : bindings.reverse.lookup atom = none := by
    refine List.lookup_eq_none_iff.mpr fun p hp => ?_
    simpa using fun heq : atom = p.1 => h p (List.mem_reverse.mp hp) (heq ▸ hatom)
  rw [find?_extend, hnone, Option.none_or]

theorem agreeOn_insert {name : String} (h : name ∉ atoms) (binding : α) :
    AgreeOn { names with permanent := names.permanent.insert name binding } names atoms :=
  fun atom hatom => by
    have hne : atom ≠ name := fun heq => h (heq ▸ hatom)
    simp only [find?, Table.get?_insert, hne, if_false]

/-- Of names that are bound once each, the order does not matter. -/
theorem find?_extend_perm {bindings bindings' : List (String × α)} (h : bindings.Perm bindings')
    (hnodup : (bindings.map Prod.fst).Nodup) (atom : String) :
    (names.extend bindings).find? atom = (names.extend bindings').find? atom := by
  have hperm : bindings.reverse.Perm bindings'.reverse := by
    exact (List.reverse_perm _).trans (h.trans (List.reverse_perm _).symm)
  have hdistinct : (bindings.reverse.map Prod.fst).Nodup := by
    rwa [List.map_reverse, List.nodup_reverse]
  rw [find?_extend, find?_extend]
  congr 1
  cases hlookup : bindings.reverse.lookup atom with
  | some binding =>
    refine (lookup_of_mem ?_ (hperm.subset (mem_of_lookup hlookup))).symm
    exact (hperm.map Prod.fst).nodup_iff.mp hdistinct
  | none =>
    refine (List.lookup_eq_none_iff.mpr fun p hp => ?_).symm
    exact List.lookup_eq_none_iff.mp hlookup p (hperm.symm.subset hp)

end Environment

theorem SExpr.head_mem_atoms {head : String} (args : List SExpr) :
    head ∈ (SExpr.list (.atom head :: args)).atoms :=
  List.mem_cons_self

theorem Environment.AgreeOn.item {α : Type} {names names' : Environment α} {items : List SExpr}
    {s : SExpr} (h : names.AgreeOn names' (SExpr.atomsAll items)) (hs : s ∈ items) :
    names.AgreeOn names' s.atoms :=
  h.mono fun _ ha => SExpr.mem_atomsAll.mpr ⟨s, hs, ha⟩

theorem Environment.AgreeOn.items {α : Type} {names names' : Environment α}
    {items items' : List SExpr} (h : names.AgreeOn names' (SExpr.atomsAll items))
    (hsub : items' ⊆ items) : names.AgreeOn names' (SExpr.atomsAll items') :=
  h.mono fun _ ha => by
    obtain ⟨s, hs, ha⟩ := SExpr.mem_atomsAll.mp ha
    exact SExpr.mem_atomsAll.mpr ⟨s, hsub hs, ha⟩

namespace Translation

/-- Environments that agree on the atoms of an S-expression give it the same meaning. -/
theorem translate_congr (sorts : SortTable) :
    (∀ names s names', names.AgreeOn names' s.atoms →
      translate sorts names s = translate sorts names' s) ∧
    (∀ names items names', names.AgreeOn names' (SExpr.atomsAll items) →
      translateAll sorts names items = translateAll sorts names' items) ∧
    ∀ names items names', names.AgreeOn names' (SExpr.atomsAll items) →
      translateBindings sorts names items = translateBindings sorts names' items := by
  refine translate.mutual_induct
    (fun names s => ∀ names' : Names, names.AgreeOn names' s.atoms →
      translate sorts names s = translate sorts names' s)
    (fun names items => ∀ names' : Names, names.AgreeOn names' (SExpr.atomsAll items) →
      translateAll sorts names items = translateAll sorts names' items)
    (fun names items => ∀ names' : Names, names.AgreeOn names' (SExpr.atomsAll items) →
      translateBindings sorts names items = translateBindings sorts names' items)
    ?atom ?empty ?constantArray ?constantArrays ?indexedUnknown ?indexed ?indexedMany ?lists
    ?bind ?bindMalformed ?quantified ?quantifiedMalformed ?unsupported ?indexedConstant
    ?bound ?converted ?unknown ?operator ?noItems ?items ?noBindings ?bindings ?otherBindings
  case atom =>
    intro names atom names' hagree
    rw [translate.eq_def, translate.eq_def sorts names']
    simp only [translateAtom, hagree atom (by simp [SExpr.atoms])]
  case empty =>
    intro names names' _
    rw [translate.eq_def, translate.eq_def sorts names']
  case constantArray =>
    intro names sort arg ih names' hagree
    rw [translate.eq_def, translate.eq_def sorts names']
    simp only [ih names' (hagree.item (by simp))]
  case constantArrays =>
    intro names args sort hargs names' hagree
    rw [translate.eq_def, translate.eq_def sorts names']
    simp only
  case indexedUnknown =>
    intro names args name indices hname names' hagree
    rw [translate.eq_def, translate.eq_def sorts names']
    simp only [hname]
  case indexed =>
    intro names name indices op hname arg ih names' hagree
    rw [translate.eq_def, translate.eq_def sorts names']
    simp only [hname, ih names' (hagree.item (by simp))]
  case indexedMany =>
    intro names args name indices op hname hargs names' hagree
    rw [translate.eq_def, translate.eq_def sorts names']
    simp only [hname]
  case lists =>
    intro names head args hascribed hindexed names' hagree
    rw [translate.eq_def, translate.eq_def sorts names']
    dsimp only
    split
    · exact (hascribed _ rfl).elim
    · exact (hindexed _ _ rfl).elim
    · rfl
  case bind =>
    intro names binding bindings body hbindings hbody names' hagree
    have hbound : names.AgreeOn names' (SExpr.atomsAll (binding :: bindings)) :=
      hagree.item (s := .list (binding :: bindings)) (by simp)
    rw [translate.eq_def, translate.eq_def sorts names']
    simp only [if_true, hbindings names' hbound]
    -- the values are the same, so the body is translated where the same names are bound
    congr 1
    funext bound
    exact hbody bound _ ((hagree.item (by simp)).extend bound)
  case bindMalformed =>
    intro names args hargs names' hagree
    rw [translate.eq_def, translate.eq_def sorts names']
    simp only [if_true]
  case quantified =>
    intro names head hlet q hq declaration declarations body hbody names' hagree
    rw [translate.eq_def, translate.eq_def sorts names']
    simp only [hlet, hq, if_false]
    congr 1
    funext declared
    rw [hbody declared _ ((hagree.item (by simp)).extend _)]
  case quantifiedMalformed =>
    intro names head args hlet q hq hargs names' hagree
    rw [translate.eq_def, translate.eq_def sorts names']
    simp only [hlet, hq, if_false]
  case unsupported =>
    intro names head args hlet hq hform names' hagree
    rw [translate.eq_def, translate.eq_def sorts names']
    simp only [hlet, hq, hform, if_false, if_true]
  case indexedConstant =>
    intro names args hlet hq hform names' hagree
    rw [translate.eq_def, translate.eq_def sorts names']
    simp only [hlet, hq, hform, if_false, if_true]
  case bound =>
    intro names head args hlet hq hform hindexed binding hfind ih names' hagree
    have hfind' : names'.find? head = some binding :=
      hagree head (SExpr.head_mem_atoms args) ▸ hfind
    rw [translate.eq_def, translate.eq_def sorts names']
    simp only [hlet, hq, hform, hindexed, hfind, hfind', if_false,
      ih names' (hagree.items (by simp))]
  case converted =>
    intro names head args hlet hq hform hindexed hfind hconverted ih names' hagree
    have hfind' : names'.find? head = none := hagree head (SExpr.head_mem_atoms args) ▸ hfind
    rw [translate.eq_def, translate.eq_def sorts names']
    simp only [hlet, hq, hform, hindexed, hfind, hfind', hconverted, if_false, if_true,
      ih names' (hagree.items (by simp))]
  case unknown =>
    intro names head args hlet hq hform hindexed hfind hconverted hop names' hagree
    have hfind' : names'.find? head = none := hagree head (SExpr.head_mem_atoms args) ▸ hfind
    rw [translate.eq_def, translate.eq_def sorts names']
    simp only [hlet, hq, hform, hindexed, hfind, hfind', hconverted, hop, if_false,
      Bool.false_eq_true]
  case operator =>
    intro names head args hlet hq hform hindexed hfind hconverted op hop ih names' hagree
    have hfind' : names'.find? head = none := hagree head (SExpr.head_mem_atoms args) ▸ hfind
    rw [translate.eq_def, translate.eq_def sorts names']
    simp only [hlet, hq, hform, hindexed, hfind, hfind', hconverted, hop, if_false,
      ih names' (hagree.items (by simp))]
  case noItems =>
    intro names names' _
    rw [translateAll, translateAll]
  case items =>
    intro names s rest ihs ihrest names' hagree
    rw [translateAll, translateAll, ihs names' (hagree.item (by simp)),
      ihrest names' (hagree.items (by simp))]
  case noBindings =>
    intro names names' _
    rw [translateBindings, translateBindings]
  case bindings =>
    intro names name value rest ihvalue ihrest names' hagree
    have hbinding : names.AgreeOn names' (SExpr.atomsAll [.atom name, value]) :=
      hagree.item (s := .list [.atom name, value]) (by simp)
    rw [translateBindings, translateBindings, ihvalue names' (hbinding.item (by simp)),
      ihrest names' (hagree.items (by simp))]
  case otherBindings =>
    intro names binding rest hbinding names' hagree
    rw [translateBindings.eq_def, translateBindings.eq_def sorts names']
    split
    · contradiction
    · rename_i heq
      obtain ⟨rfl, rfl⟩ := List.cons.inj heq
      exact (hbinding _ _ rfl).elim
    · rfl

end Translation

/-! ### What leaves no trace -/

/-- Whether an S-expression is a form that makes symbols: a quantifier, an integer part, or a test
whether a number is integral. -/
inductive SExpr.MakesSymbol : SExpr → Prop where
  | quantifier {word : String} {declared body : SExpr} (h : word = "forall" ∨ word = "exists") :
      MakesSymbol (.list [.atom word, declared, body])
  | integral {word : String} {args : List SExpr} (h : word = "to_int" ∨ word = "is_int") :
      MakesSymbol (.list (.atom word :: args))

/-- Whether nothing inside an S-expression makes symbols. -/
def SExpr.MakesNone (s : SExpr) : Prop := ∀ r : SExpr, r.Inside s → ¬ r.MakesSymbol

theorem SExpr.makesNone_atom (text : String) : (SExpr.atom text).MakesNone := by
  intro r hr hmakes
  cases hr
  cases hmakes

theorem SExpr.makesNone_application {head : String} {args : List SExpr}
    (hhead : head ∉ ["forall", "exists", "to_int", "is_int"]) (hargs : ∀ s ∈ args, s.MakesNone) :
    (SExpr.list (.atom head :: args)).MakesNone := by
  intro r hr hmakes
  cases hr with
  | whole => cases hmakes <;> simp_all
  | item hs hr =>
    rcases List.mem_cons.mp hs with rfl | hs
    · exact makesNone_atom head r hr hmakes
    · exact hargs _ hs r hr hmakes

namespace Translation

variable {α β : Type} {sorts : SortTable} {names : Names} {T T' : TermState}

/-- Whether a step that succeeds leaves the state as it was. -/
abbrev Returns (x : Translation α) (T : TermState) : Prop :=
  Leads (fun _ _ => True) x T fun T' _ => T' = T

theorem Returns.bind {x : Translation α} {f : α → Translation β} (hx : Returns x T)
    (hf : ∀ a, Returns (f a) T) : Returns (x >>= f) T :=
  Leads.bind closed_true hx fun a T' _ hT' => by
    subst hT'
    exact hf a

theorem Returns.of_same {x : Translation α} {Q : TermState → α → Prop} (h : Leads Eq x T Q) :
    Returns x T :=
  (h.mono fun _ _ hT' _ => hT'.symm).weaken fun _ _ => trivial

theorem Returns.pure (a : α) : Returns (Pure.pure a) T := Leads.pure closed_true rfl

theorem Returns.throw (e : Error) : Returns (MonadExcept.throw e : Translation α) T :=
  Leads.throw closed_true e

theorem Returns.mk (r : Except Error α) : Returns (ExceptT.mk (Pure.pure r)) T :=
  Leads.mk closed_true fun _ _ => rfl

/-- Whether an S-expression leaves no trace when it is translated: nothing in it makes symbols, and
no substitution was left unfinished that a definition could take up. -/
structure Traceless (T : TermState) (names : Names) (s : SExpr) : Prop where
  makes : s.MakesNone
  settled : T.leftover = none ∨
    ∀ atom ∈ s.atoms, ∀ d, names.find? atom ≠ some (.definition d)

theorem Traceless.item {items : List SExpr} {s : SExpr} (h : Traceless T names (.list items))
    (hs : s ∈ items) : Traceless T names s where
  makes r hr := h.makes r (.item hs hr)
  settled := h.settled.imp_right fun hfind atom hatom =>
    hfind atom (SExpr.mem_atomsAll.mpr ⟨s, hs, hatom⟩)

theorem Traceless.extend {bound : List (String × Binding)} {s : SExpr}
    (h : Traceless T names s) (hbound : ∀ p ∈ bound, ∃ t, p.2 = .term t ∧ True) :
    Traceless T (names.extend bound) s where
  makes := h.makes
  settled := h.settled.imp_right fun hfind atom hatom d hd => by
    rcases Names.find?_extend_terms hbound hd with ⟨t, ht, _⟩ | hd
    · cases ht
    · exact hfind atom hatom d hd

/-- A definition is applied without a trace if no substitution was left unfinished before. -/
theorem applyBinding_returns (name : String) (sexpr : SExpr) {binding : Binding} (ts : List Term)
    (hsettled : T.leftover = none ∨ ∀ d, binding ≠ .definition d) :
    Returns (applyBinding name sexpr binding ts) T := by
  unfold applyBinding
  split
  · rename_i d
    have hclean := hsettled.resolve_right fun h => h d rfl
    split
    · exact .throw _
    · split
      · exact .throw _
      · rename_i values _
        obtain ⟨⟨result, leftover⟩, hinstance⟩ :
          ∃ p, d.body.instantiate (d.parameters.zip values) T.leftover = p := ⟨_, rfl⟩
        refine Leads.bind_of_run (run_get T) ?_
        dsimp only
        rw [hinstance]
        refine Leads.bind_of_run (run_set T _) (.of_run (run_mk _ _) trivial fun u hu => ?_)
        -- a substitution that succeeds leaves nothing behind, which is what there was before
        rw [hclean] at hinstance
        obtain ⟨_, rfl⟩ := Term.instantiate_none hinstance (Term.mapError_ok hu)
        rw [← hclean]
  · dsimp only
    split
    · split
      · exact .throw _
      · split
        · exact .mk _
        · exact .throw _
    · split
      · exact .pure _
      · exact .throw _

/-- What leaves no trace is translated, if it can be, in the state as it was. -/
theorem translate_returns (sorts : SortTable) (T : TermState) :
    (∀ names s, Traceless T names s → Returns (translate sorts names s) T) ∧
    (∀ names items, (∀ s ∈ items, Traceless T names s) →
      Returns (translateAll sorts names items) T) ∧
    ∀ names items, (∀ s ∈ items, Traceless T names s) →
      Leads (fun _ _ => True) (translateBindings sorts names items) T fun T' bound =>
        T' = T ∧ ∀ p ∈ bound, ∃ t, p.2 = .term t ∧ True := by
  refine translate.mutual_induct
    (fun names s => Traceless T names s → Returns (translate sorts names s) T)
    (fun names items => (∀ s ∈ items, Traceless T names s) →
      Returns (translateAll sorts names items) T)
    (fun names items => (∀ s ∈ items, Traceless T names s) →
      Leads (fun _ _ => True) (translateBindings sorts names items) T fun T' bound =>
        T' = T ∧ ∀ p ∈ bound, ∃ t, p.2 = .term t ∧ True)
    ?atom ?empty ?constantArray ?constantArrays ?indexedUnknown ?indexed ?indexedMany ?lists
    ?bind ?bindMalformed ?quantified ?quantifiedMalformed ?unsupported ?indexedConstant
    ?bound ?converted ?unknown ?operator ?noItems ?items ?noBindings ?bindings ?otherBindings
  case atom =>
    intro names atom _
    rw [translate.eq_def]
    exact .of_same (translateAtom_same names atom)
  case empty =>
    intro names _
    rw [translate.eq_def]
    exact .throw _
  case constantArray =>
    intro names sort arg ih htraceless
    rw [translate.eq_def]
    refine .bind (.of_same (ascribedArray_same sorts sort)) fun p => ?_
    exact .bind (ih (htraceless.item (by simp))) fun t => .bind (.mk _) fun _ => .mk _
  case constantArrays =>
    intro names args sort hargs _
    rw [translate.eq_def]
    simp only
    exact .bind (.of_same (ascribedArray_same sorts sort)) fun _ => .throw _
  case indexedUnknown =>
    intro names args name indices hname _
    rw [translate.eq_def]
    simp only [hname]
    exact .throw _
  case indexed =>
    intro names name indices op hname arg ih htraceless
    rw [translate.eq_def]
    simp only [hname]
    refine .bind (.of_same (readIndices_same indices)) fun numbers => ?_
    exact .bind (ih (htraceless.item (by simp))) fun t =>
      .of_same (applyIndexed_same name op numbers t)
  case indexedMany =>
    intro names args name indices op hname hargs _
    rw [translate.eq_def]
    simp only [hname]
    exact .throw _
  case lists =>
    intro names head args hascribed hindexed _
    rw [translate.eq_def]
    dsimp only
    split
    · exact (hascribed _ rfl).elim
    · exact (hindexed _ _ rfl).elim
    · exact .throw _
  case bind =>
    intro names binding bindings body hbindings hbody htraceless
    have hlist : Traceless T names (.list (binding :: bindings)) := htraceless.item (by simp)
    rw [translate.eq_def]
    simp only [if_true]
    refine Leads.bind closed_true (hbindings fun _ => hlist.item) fun bound T' _ hbound => ?_
    obtain ⟨rfl, hterms⟩ := hbound
    exact hbody bound ((htraceless.item (by simp)).extend hterms)
  case bindMalformed =>
    intro names args hargs _
    rw [translate.eq_def]
    simp only [if_true]
    exact .throw _
  case quantified =>
    intro names head hlet q hq declaration declarations body _ htraceless
    refine (htraceless.makes _ .whole (.quantifier ?_)).elim
    unfold quantifierOf? at hq
    split at hq
    · exact .inl ‹_›
    · split at hq
      · exact .inr ‹_›
      · cases hq
  case quantifiedMalformed =>
    intro names head args hlet q hq hargs _
    rw [translate.eq_def]
    simp only [hlet, hq, if_false]
    exact .throw _
  case unsupported =>
    intro names head args hlet hq hform _
    rw [translate.eq_def]
    simp only [hlet, hq, hform, if_false, if_true]
    exact .throw _
  case indexedConstant =>
    intro names args hlet hq hform _
    rw [translate.eq_def]
    simp only [hlet, hq, hform, if_false, if_true]
    exact .of_same (indexedConstant_same args)
  case bound =>
    intro names head args hlet hq hform hindexed binding hfind ih htraceless
    rw [translate.eq_def]
    simp only [hlet, hq, hform, hindexed, hfind, if_false]
    refine .bind (ih fun _ hs => htraceless.item (List.mem_cons_of_mem _ hs)) fun ts =>
      applyBinding_returns head _ ts (htraceless.settled.imp_right fun hnone d hd => ?_)
    exact hnone head (SExpr.head_mem_atoms args) d (hd ▸ hfind)
  case converted =>
    intro names head args hlet hq hform hindexed hfind hconverted _ htraceless
    exact (htraceless.makes _ .whole (.integral (by simpa using hconverted))).elim
  case unknown =>
    intro names head args hlet hq hform hindexed hfind hconverted hop _
    rw [translate.eq_def]
    simp only [hlet, hq, hform, hindexed, hfind, hconverted, hop, if_false]
    exact .throw _
  case operator =>
    intro names head args hlet hq hform hindexed hfind hconverted op hop ih htraceless
    rw [translate.eq_def]
    simp only [hlet, hq, hform, hindexed, hfind, hconverted, hop, if_false]
    exact .bind (ih fun _ hs => htraceless.item (List.mem_cons_of_mem _ hs)) fun ts => .mk _
  case noItems =>
    intro names _
    exact .pure _
  case items =>
    intro names s rest ihs ihrest htraceless
    obtain ⟨hs, hrest⟩ := List.forall_mem_cons.mp htraceless
    rw [translateAll]
    exact .bind (ihs hs) fun _ => .bind (ihrest hrest) fun _ => .pure _
  case noBindings =>
    intro names _
    exact .pure closed_true ⟨rfl, nofun⟩
  case bindings =>
    intro names name value rest ihvalue ihrest htraceless
    obtain ⟨hbinding, hrest⟩ := List.forall_mem_cons.mp htraceless
    rw [translateBindings]
    refine Leads.bind closed_true (ihvalue (hbinding.item (by simp))) fun t T' _ hT' => ?_
    obtain rfl := hT'
    refine Leads.bind closed_true (ihrest hrest) fun later T'' _ hlater => ?_
    obtain ⟨rfl, hterms⟩ := hlater
    exact .pure closed_true ⟨rfl, List.forall_mem_cons.mpr ⟨⟨t, rfl, trivial⟩, hterms⟩⟩
  case otherBindings =>
    intro names binding rest hbinding _
    rw [translateBindings.eq_def]
    split
    · contradiction
    · rename_i heq
      obtain ⟨rfl, rfl⟩ := List.cons.inj heq
      exact (hbinding _ _ rfl).elim
    · exact .throw closed_true _

/-! ### Bindings in another order -/

/-- Names with values, as they are written in a `let`. -/
def bindingForms (bindings : List (String × SExpr)) : List SExpr :=
  bindings.map fun p => .list [.atom p.1, p.2]

/-- A `let` that binds names to values. -/
def letForm (bindings : List (String × SExpr)) (body : SExpr) : SExpr :=
  .list [.atom "let", .list (bindingForms bindings), body]

theorem translate_letForm (sorts : SortTable) (names : Names) (p : String × SExpr)
    (rest : List (String × SExpr)) (body : SExpr) :
    translate sorts names (letForm (p :: rest) body) = (do
      let bound ← translateBindings sorts names (bindingForms (p :: rest))
      translate sorts (names.extend bound) body) := by
  rw [letForm, translate.eq_def]
  rfl

/-- Whether a name is bound to the term that a value is translated into, without a trace. -/
def BindsTo (sorts : SortTable) (names : Names) (T : TermState) (p : String × SExpr)
    (q : String × Binding) : Prop :=
  ∃ t, (translate sorts names p.2).run T = (.ok t, T) ∧ q = (p.1, .term t)

theorem run_translateBindings_iff {bindings : List (String × SExpr)}
    {bound : List (String × Binding)} (htraceless : ∀ p ∈ bindings, Traceless T names p.2) :
    (translateBindings sorts names (bindingForms bindings)).run T = (.ok bound, T') ↔
      List.Forall₂ (BindsTo sorts names T) bindings bound ∧ T' = T := by
  induction bindings generalizing bound T' with
  | nil =>
    rw [bindingForms, List.map_nil, translateBindings, run_pure, List.forall₂_nil_left_iff]
    grind
  | cons p rest ih =>
    obtain ⟨hp, hrest⟩ := List.forall_mem_cons.mp htraceless
    rw [bindingForms, List.map_cons, ← bindingForms, translateBindings]
    constructor
    · intro hrun
      rw [run_bind] at hrun
      split at hrun
      · rename_i t T₁ hvalue
        obtain rfl := ((translate_returns sorts _).1 names p.2 hp _ _ hvalue).2 t rfl
        rw [run_bind] at hrun
        split at hrun
        · rename_i later T₂ hlater
          obtain ⟨hlater, rfl⟩ := (ih hrest).mp hlater
          obtain ⟨hbound, rfl⟩ := Prod.mk.inj hrun
          obtain rfl := Except.ok.inj hbound
          exact ⟨.cons ⟨t, hvalue, rfl⟩ hlater, rfl⟩
        · cases hrun
      · cases hrun
    · rintro ⟨hbound, rfl⟩
      obtain ⟨q, later, ⟨t, hvalue, rfl⟩, hlater, rfl⟩ := List.forall₂_cons_left_iff.mp hbound
      rw [run_bind_ok hvalue, run_bind_ok ((ih hrest).mpr ⟨hlater, rfl⟩), run_pure]

/-- A `let` whose values make no symbols has the meaning of its body where the names are bound. -/
theorem run_translate_letForm_iff {bindings : List (String × SExpr)} {body : SExpr} {t : Term}
    (htraceless : ∀ p ∈ bindings, Traceless T names p.2) :
    (translate sorts names (letForm bindings body)).run T = (.ok t, T') ↔
      bindings ≠ [] ∧ ∃ bound, List.Forall₂ (BindsTo sorts names T) bindings bound ∧
        (translate sorts (names.extend bound) body).run T = (.ok t, T') := by
  cases bindings with
  | nil =>
    have hmalformed : (translate sorts names (letForm [] body)).run T =
        (.error (.malformedLet (letForm [] body)), T) := by
      rw [letForm, translate.eq_def]
      rfl
    rw [hmalformed]
    refine iff_of_false (fun h => ?_) fun h => h.1 rfl
    cases h
  | cons p rest =>
    rw [translate_letForm, run_bind]
    constructor
    · intro hrun
      split at hrun
      · rename_i bound T₁ hbound
        obtain ⟨hbound, rfl⟩ := (run_translateBindings_iff htraceless).mp hbound
        exact ⟨List.cons_ne_nil _ _, bound, hbound, hrun⟩
      · cases hrun
    · rintro ⟨_, bound, hbound, hrun⟩
      rw [(run_translateBindings_iff htraceless).mpr ⟨hbound, rfl⟩]
      exact hrun

theorem map_fst_of_bindsTo {bindings : List (String × SExpr)} {bound : List (String × Binding)}
    (h : List.Forall₂ (BindsTo sorts names T) bindings bound) :
    bound.map Prod.fst = bindings.map Prod.fst := by
  induction h with
  | nil => rfl
  | cons hp _ ih =>
    obtain ⟨t, _, rfl⟩ := hp
    rw [List.map_cons, List.map_cons, ih]

/-- The bindings of a `let` may be written in another order. -/
theorem run_translate_letForm_perm {bindings bindings' : List (String × SExpr)} {body : SExpr}
    {t : Term} (htraceless : ∀ p ∈ bindings, Traceless T names p.2)
    (hnodup : (bindings.map Prod.fst).Nodup) (hperm : bindings.Perm bindings')
    (hrun : (translate sorts names (letForm bindings body)).run T = (.ok t, T')) :
    (translate sorts names (letForm bindings' body)).run T = (.ok t, T') := by
  have htraceless' : ∀ p ∈ bindings', Traceless T names p.2 := fun p hp =>
    htraceless p (hperm.mem_iff.mpr hp)
  obtain ⟨hne, bound, hbound, hbody⟩ := (run_translate_letForm_iff htraceless).mp hrun
  obtain ⟨bound', hbound', hperm'⟩ := List.perm_comp_forall₂ hperm.symm hbound
  have hne' : bindings' ≠ [] := fun hnil => hne (List.perm_nil.mp (hnil ▸ hperm))
  have hnodup' : (bound.map Prod.fst).Nodup := map_fst_of_bindsTo hbound ▸ hnodup
  refine (run_translate_letForm_iff htraceless').mpr ⟨hne', bound', hbound', ?_⟩
  have hagree : (names.extend bound').AgreeOn (names.extend bound) body.atoms := fun atom _ =>
    (Environment.find?_extend_perm hperm'.symm hnodup' atom).symm
  rw [(translate_congr sorts).1 _ body _ hagree]
  exact hbody

end Translation

/-- How an S-expression is translated depends on what the names in it are bound to, and on no other
names; nor does it depend on the order in which a `let` binds its names, if their values make no
symbols. This order counts only where a substitution was left unfinished before: the first
definition that is applied takes it up. -/
theorem translate_lexical (sorts : SortTable) :
    (∀ (names names' : Names) (s : SExpr), names.AgreeOn names' s.atoms →
      ∀ T, (translate sorts names s).run T = (translate sorts names' s).run T) ∧
    (∀ (names : Names) (s : SExpr) (bindings : List (String × Binding)),
      (∀ p ∈ bindings, p.1 ∉ s.atoms) →
      ∀ T, (translate sorts (names.extend bindings) s).run T = (translate sorts names s).run T) ∧
    (∀ (names : Names) (s : SExpr) (name : String) (binding : Binding), name ∉ s.atoms →
      let bound := { names with permanent := names.permanent.insert name binding }
      ∀ T, (translate sorts bound s).run T = (translate sorts names s).run T) ∧
    ∀ (names : Names) (bindings bindings' : List (String × SExpr)) (body : SExpr),
      bindings.Perm bindings' → (bindings.map Prod.fst).Nodup →
      (∀ p ∈ bindings, p.2.MakesNone) →
      ∀ T, (T.leftover = none ∨
        ∀ p ∈ bindings, ∀ atom ∈ p.2.atoms, ∀ d, names.find? atom ≠ some (.definition d)) →
      ∀ t T', (translate sorts names (Translation.letForm bindings body)).run T = (.ok t, T') →
        (translate sorts names (Translation.letForm bindings' body)).run T = (.ok t, T') := by
  refine ⟨fun names names' s hagree T => ?_, fun names s bindings hnew T => ?_,
    fun names s name binding hnew T => ?_, ?_⟩
  · rw [(translate_congr sorts).1 names s names' hagree]
  · rw [(translate_congr sorts).1 _ s names (Environment.agreeOn_extend hnew)]
  · rw [(translate_congr sorts).1 _ s names (Environment.agreeOn_insert hnew binding)]
  · intro names bindings bindings' body hperm hnodup hnone T hsettled t T' hrun
    refine run_translate_letForm_perm (fun p hp => ⟨hnone p hp, ?_⟩) hnodup hperm hrun
    exact hsettled.imp_right fun hfind => hfind p hp

/-- A definition applied in both values of a `let`: bound in a scope and not permanently, next to a
name that does not occur, and with the values in another order. -/
theorem translate_lexical_applications :
    let d : Definition := ⟨[⟨"f_arg0", .int⟩], .arith .add (.symbol ⟨"f_arg0", .int⟩) (.int 1)⟩
    let outer : Names := ⟨⟨[("f", .definition d)]⟩, []⟩
    let inner : Names := ⟨.empty, [("f", .definition d)]⟩
    let p : String × SExpr := ("p", .list [.atom "f", .atom "3"])
    let q : String × SExpr := ("q", .list [.atom "f", .atom "4"])
    let reads (names : Names) (bindings : List (String × SExpr)) :=
      (translate ⟨[]⟩ names (Translation.letForm bindings
        (.list [.atom "<", .atom "p", .atom "q"]))).run .empty =
      (.ok (.order .lt (.arith .add (.int 3) (.int 1)) (.arith .add (.int 4) (.int 1))), .empty)
    reads outer [p, q] ∧ reads inner [p, q] ∧ reads (outer.extend [("z", .term (.int 0))]) [p, q] ∧
      reads { outer with permanent := outer.permanent.insert "z" (.term (.int 0)) } [p, q] ∧
      reads outer [q, p] := by
  intro d outer inner p q reads
  obtain ⟨hagree, hextend, hinsert, hperm⟩ := translate_lexical ⟨[]⟩
  have hrun : reads outer [p, q] := by
    dsimp only [reads, outer, p, q, d]
    cbv
  have hnone : ∀ r ∈ [p, q], r.2.MakesNone := by
    have happlied (text : String) : (SExpr.list [.atom "f", .atom text]).MakesNone :=
      SExpr.makesNone_application (by decide) (by simpa using SExpr.makesNone_atom text)
    simpa using ⟨happlied "3", happlied "4"⟩
  refine ⟨hrun, (hagree inner outer _ (fun atom _ => ?_) _).trans hrun,
    (hextend outer _ _ (by decide) _).trans hrun, (hinsert outer _ _ _ (by decide) _).trans hrun,
    hperm outer [p, q] [q, p] _ (.swap _ _ _) (by decide) hnone _ (.inl rfl) _ _ hrun⟩
  dsimp only [Environment.find?, Table.get?, Table.empty, inner, outer, List.lookup_nil]
  cases List.lookup atom [("f", Binding.definition d)] <;> rfl

end SmtScript
