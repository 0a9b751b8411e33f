import SmtScript.Engine.Graph
import SmtScript.Engine.Linear
import SmtScript.Term.Eval

/-!
Evaluation under a partial assignment.

Where the assignment says enough, the value of a node is known. Else evaluation names a location
whose value is missing. An array may be known in parts, so that some of its elements are known
though the array as a whole is not, and a number may be known as a linear sum.
-/

namespace SmtScript

namespace Engine

/-- What an assignment says of the value of a term. -/
inductive Partial where
  | known (value : Value)
  /-- The value is that of a location which has none. -/
  | unknown (place : Location)
  /-- Nothing can be said before a location has a value. -/
  | blocked (place : Location)
  /-- An array with an update. -/
  | updated (array : Partial) (index : Value) (element : Partial)
  /-- The array with one element everywhere. -/
  | filled (element : Partial)
  /-- A number, Real or Int, that is a sum with some location in it. -/
  | linear (isReal : Bool) (form : Linear)
  deriving Inhabited, Repr

namespace Partial

def known? : Partial → Option Value
  | .known v => some v
  | _ => none

/-- A location whose value is missing. -/
def missing? : Partial → Option Location
  | .known _ => none
  | .unknown place | .blocked place => some place
  | .updated array _ element => array.missing?.or element.missing?
  | .filled element => element.missing?
  | .linear _ form => form.parts.head?.map Prod.fst

/-- Whether a truth value is known to be the given one. -/
def isKnown (truth : Bool) : Partial → Bool
  | .known v => v.isTrue == truth
  | _ => false

/-- What waits for the same location. -/
def waiting (p : Partial) : Partial :=
  match p.missing? with
  | some place => .blocked place
  | none => p

/-- The values of several terms, or a location that the first of them waits for. -/
def values : List Partial → Except Location (List Value)
  | [] => .ok []
  | p :: rest =>
    match p.known?, p.missing? with
    | some v, _ => (values rest).map (v :: ·)
    | none, some place => .error place
    | none, none => values rest

/-- What is made of the values of several terms. -/
def ofValues (ps : List Partial) (f : List Value → Partial) : Partial :=
  match values ps with
  | .ok vs => f vs
  | .error place => .blocked place

/-- A number as a sum, and whether it is Real. -/
def form? : Partial → Option (Bool × Linear)
  | .known (.int n) => some (false, .ofConstant n)
  | .known (.real q) => some (true, .ofConstant q)
  | .unknown place =>
    match place.sort with
    | .int => some (false, ⟨[(place, 1)], 0⟩)
    | .real => some (true, ⟨[(place, 1)], 0⟩)
    | _ => none
  | .linear isReal form => some (isReal, form)
  | _ => none

/-- The number that is a sum. -/
def ofForm (isReal : Bool) (l : Linear) : Partial :=
  match l.constant? with
  | some q => .known (if isReal then .real q else .int q.floor)
  | none => .linear isReal l.reduced

/-- The result of an arithmetic operation on sums, if it is a sum. -/
def ofArith (op : ArithOp) : Bool × Linear → Bool × Linear → Option Partial
  | (isReal, l), (_, m) =>
    match op with
    | .add => some (ofForm isReal (l.add m))
    | .sub => some (ofForm isReal (l.sub m))
    | .mul => (l.mul? m).map (ofForm isReal)
    | .div => if isReal then (l.div? m).map (ofForm isReal) else none

/-- What is known of a root from two numbers that are sums, though they depend on locations. -/
def ofForms (root : Term.Root) (a b : Bool × Linear) : Option Partial :=
  match root with
  | .arith op => ofArith op a b
  | .order op =>
    (a.2.sub b.2).constant?.map fun q => .known (.bool (Value.order op (.real q) (.real 0)))
  | .equal => (a.2.sub b.2).constant?.map fun q => .known (.bool (decide (q = 0)))
  | _ => none

def negation : Partial → Partial
  | .known v => .known (.bool (!v.isTrue))
  | p => p.waiting

/-- The conjunction of truth values: false as soon as one is. -/
def conjunction : List Partial → Partial
  | [] => .known (.bool true)
  | .known v :: rest => if v.isTrue then conjunction rest else .known (.bool false)
  | p :: rest => if (conjunction rest).isKnown false then .known (.bool false) else p.waiting

/-- The disjunction of truth values: true as soon as one is. -/
def disjunction (ps : List Partial) : Partial :=
  negation (conjunction (ps.map negation))

/-- The value of a location. -/
def ofLocation (σ : Assignment) (place : Location) : Partial :=
  match σ.value? place with
  | some v => .known v
  | none => .unknown place

/-- The element of an array at an index. -/
def elementAt (σ : Assignment) (index : Value) : Partial → Partial
  | .known array => .known (array.select index)
  | .unknown place => ofLocation σ (.element place (.ofValue index))
  | .blocked place => .blocked place
  | .updated array key element =>
    if index.equals key then element else array.elementAt σ index
  | .filled element => element
  | .linear isReal form => .linear isReal form

/-- An array with one more update. -/
def update (index : Value) (element array : Partial) : Partial :=
  match array, element with
  | .known array, .known v => .known (array.store index v)
  | array, element => .updated array index element

/-- The value of a node that is no quantifier from those of its operands. -/
def ofRoot (σ : Assignment) : Term.Root → List Partial → Partial
  | .symbol s, _ => ofLocation σ (.constant s)
  | .apply f, ps => ofValues ps fun vs => ofLocation σ (.result f (vs.map .ofValue))
  | .not, [a] => negation a
  | .and, ps => conjunction ps
  | .or, ps => disjunction ps
  | .implies, [a, b] => disjunction [negation a, b]
  | .ite, [c, a, b] =>
    match c with
    | .known v => if v.isTrue then a else b
    | c => c.waiting
  | .select, [a, i] =>
    match i with
    | .known index => a.elementAt σ index
    | i => i.waiting
  | .store, [a, i, v] =>
    match i with
    | .known index => update index v a
    | i => i.waiting
  | .constArray index, [v] =>
    match v with
    | .known v => .known (.constArray index v)
    | v => .filled v
  | .toReal, [a] =>
    match a.form? with
    | some (_, form) => ofForm true form
    | none => a.waiting
  | root, [a, b] =>
    match a.known?, b.known?, a.form?, b.form? with
    | some v, some w, _, _ => .known (Term.rootValue root [v, w])
    | _, _, some l, some m => (ofForms root l m).getD (ofValues [a, b] fun _ => a)
    | _, _, _, _ => ofValues [a, b] fun _ => a
  | root, ps => ofValues ps fun vs => .known (Term.rootValue root vs)

/-- Whether a statement is true of all values in a list. -/
def ofAll (statement : Value → Partial) : List Value → Partial
  | [] => .known (.bool true)
  | v :: rest =>
    match statement v with
    | .known w => if w.isTrue then ofAll statement rest else .known (.bool false)
    | p => if (ofAll statement rest).isKnown false then .known (.bool false) else p.waiting

end Partial

namespace Graph

/-- The numbers at which comparisons change when a location has them for its value. Only
comparisons of sums that depend on no other location count. -/
def turningPoints (graph : Graph) (values : Array Partial) (place : Location)
    (positions : List Nat) : List Rat :=
  positions.filterMap fun position =>
    let node := graph.node position
    match node.root, node.operands.map fun operand => (values.getD operand default).form? with
    | .order _, [some (_, l), some (_, m)] | .equal, [some (_, l), some (_, m)] =>
      match (l.sub m).single? with
      | some (other, factor) =>
        if other == place then some (-(l.sub m).constant / factor) else none
      | none => none
    | _, _ => none

def isQuantifier (graph : Graph) (position : Nat) : Bool :=
  match (graph.node position).root with
  | .quantified _ _ => true
  | _ => false

/-- The values that a variable ranges over: those around turning points come first. -/
def choices (graph : Graph) (σ : Assignment) (values : Array Partial) (isLast : Bool) (s : Symbol)
    (scope : List Nat) : List Value :=
  let points := (graph.turningPoints values (.constant s) scope).eraseDups
  let around : List Value :=
    match s.sort with
    | .int => points.flatMap fun q =>
        [.int q.floor, .int q.ceil, .int (q.floor + 1), .int (q.ceil - 1)]
    | .real => points.flatMap fun q =>
        .real (q - 1) :: .real (q + 1) :: points.map fun p => .real ((q + p) / 2)
    | _ => []
  around ++ σ.range (!isLast || scope.any graph.isQuantifier) s.sort

/-- Whether a statement has a truth value for all values of several variables. The statement is a
node; each variable comes with the nodes that depend on it, of which `update` finds the values. -/
def forAll (graph : Graph) (update : Assignment → List Nat → Array Partial → Array Partial)
    (statement : Nat) (truth : Bool) (σ : Assignment) (values : Array Partial) :
    List (Symbol × List Nat) → Partial
  | [] => holds
  | (s, scope) :: rest =>
    match holds with
    | .known v => .known v
    | _ =>
      .ofAll (fun v =>
        let τ : Assignment := (.constant s, v) :: σ
        forAll graph update statement truth τ (update τ scope values) rest)
        (graph.choices σ values rest.isEmpty s scope)
where
  holds : Partial :=
    let p := values.getD statement default
    if truth then p else p.negation

/-- The value of the node at a position from the values of the nodes before it. The nodes in the
scope of a quantifier are evaluated anew for each choice of its variables. -/
def nodeValue (graph : Graph) (position : Nat) (σ : Assignment) (values : Array Partial) :
    Partial :=
  let node := graph.node position
  let operands := node.operands.map fun operand => values.getD operand default
  match node.root with
  | .quantified q bound =>
    let update (τ : Assignment) (scope : List Nat) (values : Array Partial) : Array Partial :=
      scope.foldl (fun values inner =>
        if _ : inner < position then
          values.setIfInBounds inner (graph.nodeValue inner τ values)
        else values) values
    let body := node.operands.headD 0
    let holds (isTrue : Bool) : Partial :=
      graph.forAll update body isTrue σ values (bound.zip node.scopes)
    match q with
    | .universal => holds true
    | .existential => .negation (holds false)
  | root => .ofRoot σ root operands
termination_by position

/-- The values of all nodes. -/
def values (graph : Graph) (σ : Assignment) : Array Partial :=
  (List.range graph.size).foldl (fun values position =>
    values.push (graph.nodeValue position σ values)) #[]

end Graph

end Engine

end SmtScript
