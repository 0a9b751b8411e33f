import Std.Data.DHashMap
import SmtScript.Term.Root

/-!
Functions on terms that are computed from the operands up.

A script can build a term in which the same parts occur over and over, so that it has many more
occurrences of parts than parts. `Fold.run` computes a function once for each part. It remembers
values together with the proof that they are right, so there is nothing to it but the function
itself, `Fold.run_eq`.
-/

namespace SmtScript

namespace Term

/-- A function whose value at a term is made from its values at the operands. -/
structure Fold (α : Type) where
  value : Term → α
  combine : Term → List α → α
  value_eq : ∀ t, value t = combine t (t.operands.map value)

namespace Fold

variable {α : Type}

/-- The values of a function that are known already. -/
abbrev Memo (F : Fold α) := Std.DHashMap Term fun t => { a : α // a = F.value t }

mutual

/-- The value at a term, and what is known then. -/
def remember (F : Fold α) (t : Term) (memo : F.Memo) : { a : α // a = F.value t } × F.Memo :=
  match memo.get? t with
  | some a => (a, memo)
  | none =>
    let (values, memo) := F.rememberAll t.operands memo
    let a : { a : α // a = F.value t } :=
      ⟨F.combine t values.1, by rw [values.2, ← F.value_eq]⟩
    (a, memo.insert t a)
termination_by (sizeOf t, 0)
decreasing_by exact .left _ _ (totalSize_operands_lt t)

/-- The values at several terms, and what is known then. -/
def rememberAll (F : Fold α) (ts : List Term) (memo : F.Memo) :
    { as : List α // as = ts.map F.value } × F.Memo :=
  match ts with
  | [] => (⟨[], rfl⟩, memo)
  | t :: rest =>
    let (a, memo) := F.remember t memo
    let (as, memo) := F.rememberAll rest memo
    (⟨a.1 :: as.1, by rw [a.2, as.2]; rfl⟩, memo)
termination_by (totalSize ts, ts.length)
decreasing_by
  all_goals simp [totalSize, Prod.lex_def]
  all_goals have := sizeOf_pos t; omega

end

/-- The values at several terms. Equal parts are made the same object first, so that it takes no
time to tell that they are equal. -/
def runAll (F : Fold α) (ts : List Term) : List α :=
  (F.rememberAll (ShareCommon.shareCommon' ts) ∅).1.1

/-- The value at a term. -/
def run (F : Fold α) (t : Term) : α :=
  (F.remember (ShareCommon.shareCommon' t) ∅).1.1

@[simp] theorem run_eq (F : Fold α) (t : Term) : F.run t = F.value t :=
  (F.remember (ShareCommon.shareCommon' t) ∅).1.2

@[simp] theorem runAll_eq (F : Fold α) (ts : List Term) : F.runAll ts = ts.map F.value :=
  (F.rememberAll (ShareCommon.shareCommon' ts) ∅).1.2

end Fold

/-- The free symbols from those of the operands. -/
def freeSymbolsFold : Fold (List Symbol) where
  value := freeSymbols
  combine t symbols :=
    let all := symbols.foldr joined []
    match t with
    | .symbol s => [s]
    | .apply f _ => joined [f] all
    | .quantified _ bound _ => all.filter fun s => !bound.contains s
    | _ => all
  value_eq t := by
    have hnil (as : List Symbol) : joined as [] = as := by simp [joined]
    have hall (ts : List Term) :
        freeSymbolsAll ts = (ts.map freeSymbols).foldr joined [] := by
      induction ts with
      | nil => rfl
      | cons t rest ih => simp [freeSymbolsAll, ih]
    cases t <;> simp [freeSymbols, operands, hnil, hall]

/-- The free symbols of a term, found in the time that its distinct parts take. -/
def symbols (t : Term) : List Symbol := freeSymbolsFold.run t

/-- The free symbols of several terms, found in the time that the distinct parts take. -/
def symbolsOfAll (ts : List Term) : List Symbol :=
  (freeSymbolsFold.runAll ts).foldr joined []

theorem symbolsOfAll_eq (ts : List Term) : symbolsOfAll ts = freeSymbolsAll ts := by
  simp only [symbolsOfAll, Fold.runAll_eq]
  induction ts with
  | nil => rfl
  | cons t rest ih => simpa [freeSymbolsAll, freeSymbolsFold] using congrArg _ ih

theorem symbols_eq (t : Term) : t.symbols = t.freeSymbols :=
  freeSymbolsFold.run_eq t

end Term

end SmtScript
