import SmtScript.Proofs.Term.Instantiation
import SmtScript.Proofs.Term.Printed

/-!
Nodes as applications of operators.

Most nodes are printed as the application of an operator of scripts. Applied to operands of the
sorts of the printed ones, the operator builds the node again, `Term.apply_eq_rebuild`. The
division of integers is an exception: it is printed with the name of another operator.
-/

namespace SmtScript

namespace Term

/-- The operator whose application a node is printed as, with its name. -/
def Root.operator? : Root → Option (String × Operator)
  | .not => some ("not", .not)
  | .and => some ("and", .and)
  | .or => some ("or", .or)
  | .implies => some ("=>", .implies)
  | .iff | .equal => some ("=", .equal)
  | .ite => some ("ite", .ite)
  | .arith .add => some ("+", .add)
  | .arith .sub => some ("-", .sub)
  | .arith .mul => some ("*", .mul)
  | .arith .div => some ("/", .realDiv)
  | .order .le => some ("<=", .compare .le)
  | .order .lt => some ("<", .compare .lt)
  | .toReal => some ("to_real", .toReal)
  | .select => some ("select", .select)
  | .store => some ("store", .store)
  | .bitUnary op => some (op.text, .bitUnary op)
  | .bitOp op =>
    match op with
    | .and | .or | .xor | .add | .mul => some (op.text, .bitChain op)
    | _ => some (op.text, .bitBinary op)
  | .bitOrder op => some (op.text, .bitOrder op)
  | .bitEqual => some ("bvcomp", .bitEqual)
  | .concat => some ("concat", .concat)
  | _ => none

variable {t a b c : Term} {us : List Term} {name : String} {op : Operator}

theorem printed_as_operator (h : t.root.operator? = some (name, op)) :
    t.leaf? = none ∧ t.head = .atom name ∧ Operator.ofName? name = some op := by
  cases t with
  | arith op a b => cases op <;> cases h <;> exact ⟨rfl, rfl, by decide⟩
  | order op a b => cases op <;> cases h <;> exact ⟨rfl, rfl, by decide⟩
  | bitUnary op a => cases op <;> cases h <;> exact ⟨rfl, rfl, by decide⟩
  | bitOp op a b => cases op <;> cases h <;> exact ⟨rfl, rfl, by decide⟩
  | bitOrder op a b => cases op <;> cases h <;> exact ⟨rfl, rfl, by decide⟩
  | _ => cases h <;> exact ⟨rfl, rfl, by decide⟩

theorem leftChain_singleton (build : Term → Term → Except Fault Term) (a b : Term) :
    leftChain build a [b] = build a b := by
  cases h : build a b <;> simp [leftChain, h]

theorem chained_pair (build : Term → Term → Except Fault Term) (a b : Term) :
    chained build [a, b] = build a b := by
  cases h : build a b <;> simp [chained, neighbours, h] <;> rfl

/-- Operands of one sort are not lifted. -/
theorem lifted_of_sort_eq (build : Term → Term → Except Fault Term) (h : a.sort = b.sort) :
    lifted build a b = build a b := by
  have hmixes : mixesNumbers [a, b] = false := by
    simp [mixesNumbers, isReal, isInt, h]
    grind
  rw [lifted, liftMixed, hmixes]
  rfl

theorem leftChain_lifted (build : Term → Term → Except Fault Term) (h : a.sort = b.sort) :
    leftChain (lifted build) a [b] = build a b := by
  rw [leftChain_singleton, lifted_of_sort_eq build h]

theorem chained_lifted (build : Term → Term → Except Fault Term) (h : a.sort = b.sort) :
    chained (lifted build) [a, b] = build a b := by
  rw [chained_pair, lifted_of_sort_eq build h]

theorem mkRealDiv_of_real (ha : a.sort = .real) (hb : b.sort = .real) :
    mkRealDiv a b = mkArith .div a b := by
  simp [mkRealDiv, liftToReal, isInt, ha, hb]
  rfl

theorem SameSorts.exists_cons {ts : List Term} (h : SameSorts ts us) (hts : ts ≠ []) :
    ∃ u rest, us = u :: rest := by
  cases h with
  | nil => exact absurd rfl hts
  | cons _ _ => exact ⟨_, _, rfl⟩

/-- An operator that is applied to operands of the sorts that a node has had builds this node
again, as long as integers are not divided. -/
theorem apply_eq_rebuild {W : SmtSort → Prop} (hop : t.root.operator? = some (name, op))
    (hfits : t.fits = true) (hspellable : t.Spellable W)
    (hdivision : ∀ a b, t = .arith .div a b → a.sort = .real) (hus : SameSorts t.operands us) :
    op.apply us = (rebuild t.root us).mapError .fault := by
  cases t with
  | not a =>
    obtain ⟨a', rfl, -⟩ := hus.one
    cases hop
    rfl
  | and ts =>
    obtain ⟨u, rest, rfl⟩ := hus.exists_cons hspellable
    cases hop
    rfl
  | or ts =>
    obtain ⟨u, rest, rfl⟩ := hus.exists_cons hspellable
    cases hop
    rfl
  | implies a b =>
    obtain ⟨a', b', rfl, -, -⟩ := hus.two
    cases hop
    rfl
  | iff a b =>
    obtain ⟨a', b', rfl, ha, hb⟩ := hus.two
    obtain ⟨hbool, hbool'⟩ : a.sort = .bool ∧ b.sort = .bool := by simpa [fits, isBool] using hfits
    have hsame : a'.sort = b'.sort := by rw [ha.sort_eq, hb.sort_eq, hbool, hbool']
    cases hop
    have hequality : chained (lifted mkSame) [a', b'] = mkIff a' b' := by
      rw [chained_lifted mkSame hsame, mkSame, if_pos (by simp [isBool, ha.sort_eq, hbool])]
      rfl
    exact congrArg (Except.mapError Refusal.fault) hequality
  | equal a b =>
    obtain ⟨a', b', rfl, ha, hb⟩ := hus.two
    obtain ⟨hbool, hab⟩ : a.sort ≠ .bool ∧ a.sort = b.sort := by simpa [fits, isBool] using hfits
    have hsame : a'.sort = b'.sort := by rw [ha.sort_eq, hb.sort_eq, hab]
    cases hop
    have hequality : chained (lifted mkSame) [a', b'] = checked (.equal a' b') := by
      rw [chained_lifted mkSame hsame, mkSame, if_neg (by simp [isBool, ha.sort_eq, hbool])]
    exact congrArg (Except.mapError Refusal.fault) hequality
  | ite c a b =>
    obtain ⟨c', a', b', rfl, hc, ha, hb⟩ := hus.three
    obtain ⟨hbool, hab⟩ : c.sort = .bool ∧ a.sort = b.sort := by simpa [fits, isBool] using hfits
    have hmixes : mixesNumbers [c', a', b'] = false := by
      simp [mixesNumbers, isReal, isInt, hc.sort_eq, ha.sort_eq, hb.sort_eq, hbool, hab]
      grind
    cases hop
    simp only [Operator.apply, liftMixed, hmixes]
    rfl
  | arith op a b =>
    obtain ⟨a', b', rfl, ha, hb⟩ := hus.two
    obtain ⟨sort, hsort, hasort, hbsort⟩ := isNumbers_iff.mp hfits
    have hsame : a'.sort = b'.sort := by rw [ha.sort_eq, hb.sort_eq, hasort, hbsort]
    cases op with
    | div =>
      have hreal := hdivision a b rfl
      have hreal' : b.sort = .real := by rw [hbsort, ← hasort, hreal]
      cases hop
      have hquotient : leftChain mkRealDiv a' [b'] = mkArith .div a' b' := by
        rw [leftChain_singleton]
        exact mkRealDiv_of_real (ha.sort_eq.trans hreal) (hb.sort_eq.trans hreal')
      exact congrArg (Except.mapError Refusal.fault) hquotient
    | add =>
      cases hop
      exact congrArg (Except.mapError Refusal.fault) (leftChain_lifted (mkArith .add) hsame)
    | sub =>
      cases hop
      exact congrArg (Except.mapError Refusal.fault) (leftChain_lifted (mkArith .sub) hsame)
    | mul =>
      cases hop
      exact congrArg (Except.mapError Refusal.fault) (leftChain_lifted (mkArith .mul) hsame)
  | order op a b =>
    obtain ⟨a', b', rfl, ha, hb⟩ := hus.two
    obtain ⟨sort, hsort, hasort, hbsort⟩ := isNumbers_iff.mp hfits
    have hsame : a'.sort = b'.sort := by rw [ha.sort_eq, hb.sort_eq, hasort, hbsort]
    cases op with
    | le =>
      cases hop
      exact congrArg (Except.mapError Refusal.fault) (chained_lifted (mkComparison .le) hsame)
    | lt =>
      cases hop
      exact congrArg (Except.mapError Refusal.fault) (chained_lifted (mkComparison .lt) hsame)
  | toReal a =>
    obtain ⟨a', rfl, -⟩ := hus.one
    cases hop
    rfl
  | select a i =>
    obtain ⟨a', i', rfl, -, -⟩ := hus.two
    cases hop
    rfl
  | store a i v =>
    obtain ⟨a', i', v', rfl, -, -, -⟩ := hus.three
    cases hop
    rfl
  | bitUnary op a =>
    obtain ⟨a', rfl, -⟩ := hus.one
    cases hop
    rfl
  | bitOp op a b =>
    obtain ⟨a', b', rfl, -, -⟩ := hus.two
    have hchain := congrArg (Except.mapError Refusal.fault) (leftChain_singleton (mkBitOp op) a' b')
    cases op <;> cases hop <;> first | exact hchain | rfl
  | bitOrder op a b =>
    obtain ⟨a', b', rfl, -, -⟩ := hus.two
    cases hop
    rfl
  | bitEqual a b =>
    obtain ⟨a', b', rfl, -, -⟩ := hus.two
    cases hop
    rfl
  | concat a b =>
    obtain ⟨a', b', rfl, -, -⟩ := hus.two
    cases hop
    exact congrArg (Except.mapError Refusal.fault) (leftChain_singleton mkConcat a' b')
  | _ => cases hop

end Term

end SmtScript
