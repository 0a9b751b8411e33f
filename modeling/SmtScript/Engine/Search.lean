import SmtScript.Engine.Bounds
import SmtScript.Engine.Equation

/-!
Search for a model.

Symbols that formulas define are taken out first. The search gives values to missing locations of
the formulas that are left, one after the other, until every formula is known to hold. It goes on
with the location that has the fewest values to try; a location that can have one value only gets
it at once. Where all values fail, the formulas are held to be unsatisfiable: the search looks at
finitely many values only.
-/

namespace SmtScript

namespace Engine

/-- What a search ends with. -/
inductive Outcome where
  | model (model : Completion)
  | none
  /-- The search was cut short. -/
  | gaveUp

/-- What tells which of two locations goes first: the one with the smaller domain; of numbers and
truth values the one whose symbol is declared earlier; else the one that is met first. -/
def goesBefore (rank : Symbol → Nat) (next best : Location × Domain) : Bool :=
  let order (place : Location) : Nat := if place.sort.isUser then 0 else rank place.symbol
  next.2.size < best.2.size ||
    (next.2.size == best.2.size && order next.1 < order best.1)

/-- The location to go on with. -/
def smallest (rank : Symbol → Nat) :
    List (Location × Domain) → Option (Location × Domain)
  | [] => .none
  | first :: rest =>
    some (rest.foldl (fun best next => if goesBefore rank next best then next else best) first)

/-- Goes through values until one leads to something else than failure. -/
def firstOutcome (attempt : Value → Outcome) : List Value → Outcome
  | [] => .none
  | v :: rest =>
    match attempt v with
    | .none => firstOutcome attempt rest
    | outcome => outcome

/-- Looks for values of the missing locations under which formulas hold, which are given by their
positions in a graph. Gives values to no more than `steps` locations. -/
def assign (rank : Symbol → Nat) (plainElse : Bool) (graph : Graph) (formulas : List Nat) :
    Nat → Assignment → Outcome
  | 0, _ => .gaveUp
  | steps + 1, σ =>
    let values := graph.values σ
    match openGoals graph values formulas with
    | .none => .none
    | some [] => .model ⟨σ, plainElse⟩
    | some goals =>
      let bounds := goals.flatMap (Bounds.ofGoal graph values)
      let candidates := (needed graph values goals).map fun place =>
        (place, Domain.ofBounds σ place (Bounds.on place bounds))
      match smallest rank candidates with
      | .none => .gaveUp
      | some (place, domain) =>
        firstOutcome
          (fun v => assign rank plainElse graph formulas steps ((place, v) :: σ)) domain.values

/-- How many locations a search may give values to. -/
def searchSteps : Nat := 1000

/-- Adds the values of symbols that were taken out. -/
def withDefinitions (definitions : Substitution) (model : Completion) : Completion :=
  definitions.foldl (fun model (s, t) =>
    { model with
      assignment := (.constant s, t.valueIn model.interpretation) :: model.assignment }) model

/-- Replaces the symbols that are not told apart by one of them. -/
def withPlainSymbols (t : Term) : Term :=
  let renamed := (t.symbols.filter fun s => plain s ≠ s).map fun s => (s, .symbol (plain s))
  if renamed.isEmpty then t
  else match t.substituted renamed with
    | .ok t => t
    | .error _ => t

/-- Whether a sort has but finitely many values, made of bits. -/
def ofBits : SmtSort → Bool
  | .bool | .bitVec _ => true
  | .array index element => ofBits index && ofBits element
  | _ => false

/-- Whether formulas are about bits only, without quantifiers. -/
def aboutBits (formulas : List Term) : Bool :=
  (Graph.ofTerms formulas).2.all fun node =>
    ofBits node.sort && match node.root with
      | .quantified _ _ => false
      | _ => true

/-- Looks for a model of formulas. -/
def search (rank : Symbol → Nat) (formulas : List Term) : Outcome :=
  let reduced := reduce (formulas.map withPlainSymbols)
  let (positions, graph) := Graph.ofTerms reduced.formulas
  match assign rank (aboutBits formulas) graph positions searchSteps [] with
  | .model model => .model (withDefinitions reduced.definitions model)
  | outcome => outcome

/-- Leaves out formulas one after the other as long as the rest stays unsatisfiable. -/
def shrink (isUnsatisfiable : List Term → Bool) : List Term → List Term → List Term
  | kept, [] => kept.reverse
  | kept, t :: rest =>
    if isUnsatisfiable (kept.reverse ++ rest) then shrink isUnsatisfiable kept rest
    else shrink isUnsatisfiable (t :: kept) rest

/-- What a shrunken list keeps was there before. -/
theorem mem_of_mem_shrink {isUnsatisfiable : List Term → Bool} {kept rest : List Term}
    {t : Term} (h : t ∈ shrink isUnsatisfiable kept rest) : t ∈ kept ∨ t ∈ rest := by
  induction rest generalizing kept with
  | nil => simpa [shrink] using h
  | cons first rest ih =>
    simp only [shrink] at h
    split at h
    · exact (ih h).imp_right (List.mem_cons_of_mem _)
    · rcases ih h with h | h
      · rcases List.mem_cons.mp h with rfl | h
        · exact .inr List.mem_cons_self
        · exact .inl h
      · exact .inr (List.mem_cons_of_mem _ h)

end Engine

end SmtScript
