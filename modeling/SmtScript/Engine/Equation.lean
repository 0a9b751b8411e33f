import SmtScript.Term.Substitute

/-!
Equations that define symbols.

A formula that says that a symbol equals a term without it defines the symbol: the term can stand
for the symbol everywhere else, and what is left to solve mentions the symbol no more.
-/

namespace SmtScript

namespace Engine

/-- Formulas, and the symbols that were taken out of them with the terms that define them, the last
one first. A definition mentions no symbol that was taken out before. -/
structure Reduced where
  formulas : List Term
  definitions : Substitution

mutual

/-- The formulas that a conjunction consists of. -/
def conjuncts : Term → List Term
  | .and ts => allConjuncts ts
  | t => [t]

def allConjuncts : List Term → List Term
  | [] => []
  | t :: rest => conjuncts t ++ allConjuncts rest

end

/-- The definition that an equation gives. -/
def definition? : Term → Option (Symbol × Term)
  | .equal (.symbol s) t | .iff (.symbol s) t =>
    if defines s t then some (s, t)
    else match t with
      | .symbol s' => if defines s' (.symbol s) then some (s', .symbol s) else none
      | _ => none
  | .equal t (.symbol s) | .iff t (.symbol s) => if defines s t then some (s, t) else none
  | _ => none
where
  defines (s : Symbol) (t : Term) : Bool :=
    !s.sort.isFunction && !t.symbols.contains s

/-- The first definition among formulas, and the other formulas. -/
def firstDefinition? : List Term → Option ((Symbol × Term) × List Term)
  | [] => none
  | t :: rest =>
    match definition? t with
    | some found => some (found, rest)
    | none => (firstDefinition? rest).map fun (found, others) => (found, t :: others)

/-- Takes out defined symbols, at most the given number. -/
def takeOut : Nat → Reduced → Reduced
  | 0, reduced => reduced
  | count + 1, reduced =>
    match firstDefinition? reduced.formulas with
    | none => reduced
    | some ((s, t), others) =>
      match (ShareCommon.shareCommon' others).mapM (Term.substituted [(s, t)]) with
      | .ok others => takeOut count ⟨others, (s, t) :: reduced.definitions⟩
      | .error _ => reduced

/-- Takes out all the symbols that formulas define. -/
def reduce (formulas : List Term) : Reduced :=
  let formulas := allConjuncts formulas
  takeOut formulas.length ⟨formulas, []⟩

end Engine

end SmtScript
