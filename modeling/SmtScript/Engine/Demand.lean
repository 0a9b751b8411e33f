import SmtScript.Engine.Partial

/-!
Demands.

That formulas have to hold demands truth values of their parts. Demands are handed down from each
node to its operands as far as they follow; a node at which this ends is a goal. From the goals one
gets the locations whose values are needed.
-/

namespace SmtScript

namespace Engine

/-- A node, given by its position, that has to have a truth value. -/
structure Goal where
  position : Nat
  truth : Bool
  deriving DecidableEq, Repr

/-- The truth values that are demanded of a node. -/
structure Want where
  isTrue : Bool
  isFalse : Bool
  deriving Inhabited

structure Demands where
  wants : Array Want
  goals : List Goal
  /-- Whether some demand cannot be met. -/
  failed : Bool

namespace Demands

/-- Demands a truth value of a node. -/
def want (demands : Demands) (truth : Bool) (position : Nat) : Demands :=
  let old := demands.wants.getD position default
  { demands with
    wants := demands.wants.setIfInBounds position
      ⟨old.isTrue || truth, old.isFalse || !truth⟩ }

def wantAll (demands : Demands) (truth : Bool) (positions : List Nat) : Demands :=
  positions.foldl (fun demands position => demands.want truth position) demands

def addGoal (demands : Demands) (goal : Goal) : Demands :=
  { demands with goals := goal :: demands.goals }

def fail (demands : Demands) : Demands := { demands with failed := true }

/-- Hands a demand down from a node whose value is not known. -/
def handDown (graph : Graph) (values : Array Partial) (demands : Demands) (goal : Goal) :
    Demands :=
  let node := graph.node goal.position
  let truth := goal.truth
  let isKnown (truth : Bool) (position : Nat) : Bool :=
    (values.getD position default).isKnown truth
  /- Of several operands at least one must have a truth value. -/
  let wantSome (truth : Bool) (positions : List Nat) : Demands :=
    match (positions.filter (!isKnown (!truth) ·)).eraseDups with
    | [position] => demands.want truth position
    | _ => demands.addGoal goal
  match node.root, node.operands with
  | .not, [a] => demands.want (!truth) a
  | .and, ps => if truth then demands.wantAll true ps else wantSome false ps
  | .or, ps => if truth then wantSome true ps else demands.wantAll false ps
  | .implies, [a, b] =>
    if !truth then (demands.want true a).want false b
    else if isKnown true a then demands.want true b
    else if isKnown false b then demands.want false a
    else demands.addGoal goal
  | .iff, [a, b] =>
    match (values.getD a default).known?, (values.getD b default).known? with
    | some v, _ => demands.want (truth == v.isTrue) b
    | _, some v => demands.want (truth == v.isTrue) a
    | _, _ => if a = b then (if truth then demands else demands.fail) else demands.addGoal goal
  | .ite, [c, a, b] =>
    match (values.getD c default).known? with
    | some v => if v.isTrue then demands.want truth a else demands.want truth b
    | none => demands.addGoal goal
  | .equal, [a, b] =>
    if a = b then (if truth then demands else demands.fail) else demands.addGoal goal
  | _, _ => demands.addGoal goal

/-- Looks at the demands on the node at a position. -/
def visit (graph : Graph) (values : Array Partial) (demands : Demands) (position : Nat) :
    Demands :=
  let meet (truth : Bool) : Demands :=
    match values.getD position default with
    | .known v => if v.isTrue == truth then demands else demands.fail
    | _ => handDown graph values demands ⟨position, truth⟩
  if demands.failed then demands
  else match demands.wants.getD position default with
    | ⟨true, true⟩ => demands.fail
    | ⟨true, false⟩ => meet true
    | ⟨false, true⟩ => meet false
    | ⟨false, false⟩ => demands

/-- What it takes that formulas, given by their positions, hold. -/
def ofFormulas (graph : Graph) (values : Array Partial) (formulas : List Nat) : Demands :=
  let start : Demands := ⟨.replicate graph.size ⟨false, false⟩, [], false⟩
  (List.range graph.size).reverse.foldl (visit graph values) (start.wantAll true formulas)

end Demands

/-- The goals that are left of formulas, or nothing if the formulas cannot all hold. -/
def openGoals (graph : Graph) (values : Array Partial) (formulas : List Nat) :
    Option (List Goal) :=
  let demands := Demands.ofFormulas graph values formulas
  if demands.failed then none else some demands.goals

/-- What is needed for goals: nodes that are to be looked at, and locations found so far. -/
structure Needs where
  live : Array Bool
  places : List Location
  /-- Locations that a quantifier waits for. They are looked at only if there are no others. -/
  late : List Location

namespace Needs

def look (needs : Needs) (positions : List Nat) : Needs :=
  { needs with
    live := positions.foldl (fun live position => live.setIfInBounds position true) needs.live }

/-- Looks at the node at a position, if it is needed. -/
def visit (graph : Graph) (values : Array Partial) (needs : Needs) (position : Nat) : Needs :=
  if !needs.live.getD position false then needs
  else
    let node := graph.node position
    match values.getD position default, node.root, node.operands with
    | .known _, _, _ => needs
    | .unknown place, _, _ => { needs with places := place :: needs.places }
    | p, .quantified _ _, _ => { needs with late := p.missing?.toList ++ needs.late }
    | p, .select, [_, i] =>
      { needs.look [i] with places := p.missing?.toList ++ needs.places }
    | _, _, operands => needs.look operands

end Needs

/-- The locations that goals need, each once, in the order in which the formulas name them. -/
def needed (graph : Graph) (values : Array Partial) (goals : List Goal) : List Location :=
  let start : Needs := ⟨.replicate graph.size false, [], []⟩
  let needs := (List.range graph.size).reverse.foldl (Needs.visit graph values)
    (start.look (goals.map Goal.position))
  if needs.places.isEmpty then needs.late.eraseDups else needs.places.eraseDups

end Engine

end SmtScript
