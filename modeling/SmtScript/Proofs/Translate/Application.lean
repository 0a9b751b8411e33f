import Mathlib.Algebra.Group.Nat.Defs
import Mathlib.Data.List.Forall2
import SmtScript.Proofs.Environment
import SmtScript.Proofs.Operator
import SmtScript.Proofs.Steps
import SmtScript.Translate

/-!
Running the translation of applications.

Once the arguments of an application have been read, what its head is bound to is applied to them,
`run_translate_application`, or the operator of this name if it is bound to nothing,
`run_translate_operator`; and an application that is accepted has arguments that are. Indexed terms
that are accepted have numerals for indices.
-/

namespace SmtScript

open Step

/-- The words that begin other forms than applications. -/
def SExpr.formWords : List String := ["let", "forall", "exists", "match", "!", "_"]

/-- No operator has the name of another form. -/
theorem Operator.form_of_ofName? {name : String} {op : Operator}
    (h : Operator.ofName? name = some op) :
    name ∉ SExpr.formWords ∧ name ∉ ["to_int", "is_int"] := by
  have hall : ∀ p ∈ Operator.names, p.1 ∉ SExpr.formWords ∧ p.1 ∉ ["to_int", "is_int"] := by
    decide
  exact hall (name, op) (Environment.mem_of_lookup h)

variable {sorts : SortTable} {names : Names} {T T' : TermState} {head : String} {args : List SExpr}
  {ts : List Term}

/-- A list whose head begins no other form is an application of what the head is bound to, and of
the operator of this name if it is bound to nothing. -/
theorem translate_headed (hword : head ∉ SExpr.formWords) :
    translate sorts names (.list (.atom head :: args)) =
      match names.find? head with
      | some binding => do
        applyBinding head (.list (.atom head :: args)) binding (← translateAll sorts names args)
      | none =>
        if head = "to_int" || head = "is_int" then do
          match ← translateAll sorts names args with
          | [t] =>
            if head = "to_int" then integerPart t else isIntegral (.list (.atom head :: args)) t
          | _ => throw (.operandCount head (.list (.atom head :: args)))
        else match Operator.ofName? head with
        | none => throw (.unsupportedTerm (.list (.atom head :: args)))
        | some op => (do
          applyOperator head (.list (.atom head :: args)) op
            (← translateAll sorts names args)) := by
  simp only [SExpr.formWords, List.mem_cons, List.not_mem_nil, or_false, not_or] at hword
  obtain ⟨hlet, hforall, hexists, hmatch, hbang, hindexed⟩ := hword
  have hquantifier : quantifierOf? head = none := by simp [quantifierOf?, hforall, hexists]
  have hform : ¬ (decide (head = "match") || decide (head = "!")) = true := by simp [hmatch, hbang]
  rw [translate.eq_def]
  simp only [hlet, hquantifier, hform, hindexed, if_false]
  rfl

/-- The arguments of an application are read, and then what its head is bound to is applied. -/
theorem translate_application {binding : Binding} (hword : head ∉ SExpr.formWords)
    (hfind : names.find? head = some binding) :
    translate sorts names (.list (.atom head :: args)) = (do
      applyBinding head (.list (.atom head :: args)) binding
        (← translateAll sorts names args)) := by
  rw [translate_headed hword, hfind]

/-- What a name is bound to is applied to the arguments once they have been read. -/
theorem run_translate_application {binding : Binding} (hword : head ∉ SExpr.formWords)
    (hfind : names.find? head = some binding)
    (hargs : (translateAll sorts names args).run T = (.ok ts, T')) :
    (translate sorts names (.list (.atom head :: args))).run T =
      (applyBinding head (.list (.atom head :: args)) binding ts).run T' := by
  rw [translate_application hword hfind]
  exact run_bind_ok hargs

/-- An application that is accepted has arguments that are. -/
theorem run_translate_application_ok {binding : Binding} {u : Term}
    (hword : head ∉ SExpr.formWords) (hfind : names.find? head = some binding)
    (hrun : (translate sorts names (.list (.atom head :: args))).run T = (.ok u, T')) :
    ∃ ts T₁, (translateAll sorts names args).run T = (.ok ts, T₁) ∧
      (applyBinding head (.list (.atom head :: args)) binding ts).run T₁ = (.ok u, T') := by
  rw [translate_application hword hfind, run_bind] at hrun
  split at hrun
  · exact ⟨_, _, ‹_›, hrun⟩
  · cases hrun

/-- An operator whose name is bound to nothing is applied to the arguments. -/
theorem translate_operator {op : Operator} (hop : Operator.ofName? head = some op)
    (hfree : names.find? head = none) :
    translate sorts names (.list (.atom head :: args)) = (do
      applyOperator head (.list (.atom head :: args)) op (← translateAll sorts names args)) := by
  obtain ⟨hword, hconverted⟩ := Operator.form_of_ofName? hop
  have hnumber : ¬ (decide (head = "to_int") || decide (head = "is_int")) = true := by
    simpa using hconverted
  rw [translate_headed hword, hfree]
  simp only [hnumber, hop]
  rfl

/-- An operator whose name is bound to nothing is applied to the arguments once they have been
read. -/
theorem run_translate_operator {op : Operator} (hop : Operator.ofName? head = some op)
    (hfree : names.find? head = none)
    (hargs : (translateAll sorts names args).run T = (.ok ts, T')) :
    (translate sorts names (.list (.atom head :: args))).run T =
      (applyOperator head (.list (.atom head :: args)) op ts).run T' := by
  rw [translate_operator hop hfree]
  exact run_bind_ok hargs

/-- An application of an operator that is accepted has arguments that are. -/
theorem run_translate_operator_ok {op : Operator} {u : Term}
    (hop : Operator.ofName? head = some op) (hfree : names.find? head = none)
    (hrun : (translate sorts names (.list (.atom head :: args))).run T = (.ok u, T')) :
    ∃ ts, (translateAll sorts names args).run T = (.ok ts, T') ∧ op.apply ts = .ok u := by
  rw [translate_operator hop hfree, run_bind] at hrun
  split at hrun
  · rename_i ts T₁ hargs
    obtain ⟨happly, rfl⟩ := Prod.mk.inj hrun
    exact ⟨ts, hargs, Term.mapError_ok happly⟩
  · cases hrun

/-- The operators that lead from Reals to Ints are applied to one argument. -/
theorem run_translate_conversion_ok {u : Term} (hhead : head = "to_int" ∨ head = "is_int")
    (hfree : names.find? head = none)
    (hrun : (translate sorts names (.list (.atom head :: args))).run T = (.ok u, T')) :
    ∃ t T₁, (translateAll sorts names args).run T = (.ok [t], T₁) ∧
      ((if head = "to_int" then integerPart t
        else isIntegral (.list (.atom head :: args)) t) : Translation Term).run T₁ =
          (.ok u, T') := by
  have hword : head ∉ SExpr.formWords := by rcases hhead with rfl | rfl <;> decide
  have hnumber : (decide (head = "to_int") || decide (head = "is_int")) = true := by
    simpa using hhead
  rw [translate_headed hword, hfree] at hrun
  simp only [hnumber, if_true] at hrun
  rw [run_bind] at hrun
  split at hrun
  · rename_i ts T₁ hargs
    split at hrun
    · exact ⟨_, T₁, hargs, hrun⟩
    · cases hrun
  · cases hrun

/-! ### Indexed terms -/

/-- Whether an S-expression is a numeral that stands for a number. -/
def SExpr.IsNumeral (s : SExpr) (n : Nat) : Prop :=
  ∃ text, s = .atom text ∧ Numeral.read text = .value n

namespace Translation

theorem index_ok {sexpr s : SExpr} {n : Nat} (h : (index sexpr s).run T = (.ok n, T')) :
    s.IsNumeral n ∧ T' = T := by
  unfold index at h
  split at h
  · rename_i text
    split at h
    · rename_i m hm
      obtain ⟨hn, rfl⟩ := Prod.mk.inj h
      obtain rfl := Except.ok.inj hn
      exact ⟨⟨text, rfl, hm⟩, rfl⟩
    · cases h
    · cases h
  · cases h

theorem readIndices_ok {name : String} {sexpr : SExpr} {op : IndexedOperator}
    {indices : List SExpr} {numbers : List Nat}
    (h : (readIndices name sexpr op indices).run T = (.ok numbers, T')) :
    List.Forall₂ SExpr.IsNumeral indices numbers ∧ T' = T := by
  unfold readIndices at h
  split at h
  · rename_i hcount
    clear hcount
    induction indices generalizing T T' numbers with
    | nil =>
      obtain ⟨hnumbers, rfl⟩ := Prod.mk.inj h
      obtain rfl := Except.ok.inj hnumbers
      exact ⟨.nil, rfl⟩
    | cons s rest ih =>
      rw [List.mapM_cons, run_bind] at h
      split at h
      · rename_i n T₁ hfirst
        obtain ⟨hs, rfl⟩ := index_ok hfirst
        rw [run_bind] at h
        split at h
        · rename_i later T₂ hlater
          obtain ⟨hrest, rfl⟩ := ih hlater
          obtain ⟨hnumbers, rfl⟩ := Prod.mk.inj h
          obtain rfl := Except.ok.inj hnumbers
          exact ⟨.cons hs hrest, rfl⟩
        · cases h
      · cases h
  · cases h

end Translation

/-- An indexed application that is accepted has numerals for indices and is applied to one
bit-vector. -/
theorem run_translate_indexed_ok {name : String} {indices : List SExpr} {u : Term}
    (hrun : (translate sorts names
      (.list (.list (.atom "_" :: .atom name :: indices) :: args))).run T = (.ok u, T')) :
    ∃ op arg numbers t, IndexedOperator.ofName? name = some op ∧ args = [arg] ∧
      List.Forall₂ SExpr.IsNumeral indices numbers ∧
      (translate sorts names arg).run T = (.ok t, T') ∧ t.isBitVec = true ∧
      op.apply numbers t = .ok u := by
  rw [translate.eq_def] at hrun
  cases hop : IndexedOperator.ofName? name with
  | none =>
    simp only [hop] at hrun
    cases hrun
  | some op =>
    simp only [hop] at hrun
    split at hrun
    · rename_i arg
      rw [run_bind] at hrun
      split at hrun
      · rename_i numbers T₁ hindices
        obtain ⟨hnumbers, rfl⟩ := Translation.readIndices_ok hindices
        rw [run_bind] at hrun
        split at hrun
        · rename_i t T₂ harg
          unfold applyIndexed at hrun
          split at hrun
          · rename_i hbits
            obtain ⟨happly, rfl⟩ := Prod.mk.inj hrun
            exact ⟨op, arg, numbers, t, rfl, rfl, hnumbers, harg, hbits, Term.mapError_ok happly⟩
          · cases hrun
        · cases hrun
      · cases hrun
    · cases hrun

/-- An indexed constant that is accepted has a width other than zero, and its value fits. -/
theorem run_translate_constant_ok {items : List SExpr} {u : Term}
    (hrun : (translate sorts names (.list (.atom "_" :: items))).run T = (.ok u, T')) :
    ∃ text value digits width, items = [.atom text, digits] ∧ decimalBits? text = some value ∧
      digits.IsNumeral width ∧ 0 < width ∧ value < 2 ^ width ∧
      u = .bitVec width (BitVec.ofNat width value) := by
  have hconstant : translate sorts names (.list (.atom "_" :: items)) = indexedConstant items := by
    rw [translate.eq_def]
    rfl
  rw [hconstant] at hrun
  unfold indexedConstant at hrun
  split at hrun
  · rename_i text digits
    split at hrun
    · cases hrun
    rename_i value hvalue
    rw [run_bind] at hrun
    split at hrun
    · rename_i width T₁ hindex
      obtain ⟨hnumeral, rfl⟩ := Translation.index_ok hindex
      split at hrun
      · rw [run_bind_error (run_throw _ _)] at hrun
        cases hrun
      · rename_i hwidth
        have hbits := Term.mapError_ok (Prod.mk.inj hrun).1
        unfold Term.mkBits at hbits
        split at hbits
        · rename_i hfits
          exact ⟨text, value, digits, width, rfl, hvalue, hnumeral, Nat.pos_of_ne_zero hwidth,
            hfits, (Except.ok.inj hbits).symm⟩
        · cases hbits
    · cases hrun
  · cases hrun

end SmtScript
