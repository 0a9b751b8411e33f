import SmtScript.Engine.Demand

/-!
Bounds that goals put on a location.

A comparison or an equality of numbers in which a single location is missing bounds it. Values of
other sorts are bounded by equalities only.
-/

namespace SmtScript

namespace Engine

/-- What is known of the value of a location. Bounds are given with whether they are strict. -/
structure Bounds where
  lows : List (Rat × Bool)
  highs : List (Rat × Bool)
  /-- Values that the location is equal to. -/
  exact : List Value
  deriving Repr

/-- The bounds on one location. -/
abbrev LocationBounds := Location × Bounds

namespace Bounds

def none : Bounds := ⟨[], [], []⟩

def append (a b : Bounds) : Bounds :=
  ⟨a.lows ++ b.lows, a.highs ++ b.highs, a.exact ++ b.exact⟩

/-- The bounds from a linear form that is at most zero, or less than zero. -/
def ofLinear (strict : Bool) (l : Linear) : List LocationBounds :=
  match l.single? with
  | .none => []
  | some (place, factor) =>
    let bound := -l.constant / factor
    [(place, if 0 < factor then ⟨[], [(bound, strict)], []⟩ else ⟨[(bound, strict)], [], []⟩)]

/-- The value that a location must have for a node to have a given value, where it occurs under
operations that can be undone. -/
def undo (graph : Graph) (values : Array Partial) (position : Nat) (v : Value) :
    List LocationBounds :=
  let node := graph.node position
  let known? (operand : Nat) : Option Value := (values.getD operand default).known?
  let further (operand : Nat) (v : Value) : List LocationBounds :=
    if _ : operand < position then undo graph values operand v else []
  match values.getD position default, node.root, node.operands with
  | .unknown place, _, _ => [(place, ⟨[], [], [v]⟩)]
  | _, .bitUnary op, [a] => further a (Value.bitUnary op v)
  | _, .bitOp op, [a, b] =>
    match op, known? a, known? b with
    | .add, some w, _ => further b (Value.bitOp .sub v w)
    | .add, _, some w => further a (Value.bitOp .sub v w)
    | .sub, some w, _ => further b (Value.bitOp .sub w v)
    | .sub, _, some w => further a (Value.bitOp .add v w)
    | .xor, some w, _ => further b (Value.bitOp .xor v w)
    | .xor, _, some w => further a (Value.bitOp .xor v w)
    | _, _, _ => []
  | _, _, _ => []
termination_by position

/-- The bounds that a goal puts on locations. -/
def ofGoal (graph : Graph) (values : Array Partial) (goal : Goal) : List LocationBounds :=
  let node := graph.node goal.position
  let difference? (a b : Nat) : Option Linear :=
    match (values.getD a default).form?, (values.getD b default).form? with
    | some (_, l), some (_, m) => some (l.sub m)
    | _, _ => .none
  match values.getD goal.position default, node.root, node.operands, goal.truth with
  | .unknown place, _, _, truth => [(place, ⟨[], [], [.bool truth]⟩)]
  | _, .order op, [a, b], truth =>
    match difference? a b with
    | .none => []
    | some l =>
      let strict := op = .lt
      if truth then ofLinear strict l else ofLinear (!strict) (l.scale (-1))
  | _, .equal, [a, b], true =>
    match difference? a b, values.getD a default, values.getD b default with
    | some l, _, _ => ofLinear false l ++ ofLinear false (l.scale (-1))
    | .none, .known v, _ => undo graph values b v
    | .none, _, .known v => undo graph values a v
    | .none, _, _ => []
  | _, _, _, _ => []

/-- The bounds on a location among the bounds on several. -/
def on (place : Location) (found : List LocationBounds) : Bounds :=
  found.foldl (fun bounds (other, more) =>
    if other == place then bounds.append more else bounds) .none

/-- The greatest lower bound. -/
def low? (bounds : Bounds) : Option (Rat × Bool) :=
  bounds.lows.foldl (fun best (q, strict) =>
    match best with
    | .none => some (q, strict)
    | some (p, s) =>
      if p < q then some (q, strict) else if p = q then some (p, s || strict) else some (p, s))
    .none

/-- The least upper bound. -/
def high? (bounds : Bounds) : Option (Rat × Bool) :=
  bounds.highs.foldl (fun best (q, strict) =>
    match best with
    | .none => some (q, strict)
    | some (p, s) =>
      if q < p then some (q, strict) else if p = q then some (p, s || strict) else some (p, s))
    .none

end Bounds

/-- The least integer that a lower bound admits, after scaling. -/
def leastInt (scale : Nat) (bound : Rat × Bool) : Int :=
  let q := bound.1 * scale
  if bound.2 then q.floor + 1 else q.ceil

/-- The greatest integer that an upper bound admits, after scaling. -/
def greatestInt (scale : Nat) (bound : Rat × Bool) : Int :=
  let q := bound.1 * scale
  if bound.2 then q.ceil - 1 else q.floor

/-- The integers to look at between two bounds, as first and last one. Where a bound is missing,
or the two are far apart, the integers near zero or near the bound are looked at. -/
def window (reach : Int) (low high : Option Int) : Int × Int :=
  match low, high with
  | some l, some h =>
    if h - l ≤ 16 * reach then (l, h)
    else if reach < l then (l, l + 2 * reach)
    else if h < -reach then (h - 2 * reach, h)
    else (max l (-reach), min h reach)
  | some l, none => if reach < l then (l, l + 2 * reach) else (max l (-reach), reach)
  | none, some h => if h < -reach then (h - 2 * reach, h) else (-reach, min h reach)
  | none, none => (-reach, reach)

/-- Real numbers that fit between two bounds even if no quarter does. -/
def betweenBounds : Option (Rat × Bool) → Option (Rat × Bool) → List Rat
  | some (l, ls), some (h, hs) =>
    if l < h then
      (if ls then [] else [l]) ++ [(l + h) / 2] ++ (if hs then [] else [h])
    else if l = h && !ls && !hs then [l] else []
  | some (l, ls), none => if ls then [] else [l]
  | none, some (h, hs) => if hs then [] else [h]
  | none, none => []

/-- The values to try for a location. -/
inductive Domain where
  | listed (values : List Value)
  | ints (low high : Int)
  /-- Multiples of a quarter, and some other numbers. -/
  | quarters (low high : Int) (others : List Rat)
  /-- One value out of many, which agrees with what is known. -/
  | guess (value : Value)
  deriving Repr

namespace Domain

/-- The number of values. A guess counts as a large domain, so that it is made last. -/
def size : Domain → Nat
  | .listed vs => vs.length
  | .ints low high => (high + 1 - low).toNat
  | .quarters low high others => (high + 1 - low).toNat + others.length
  | .guess _ => 1000000

def values : Domain → List Value
  | .listed vs => vs
  | .ints low high => (intsFrom low high).map .int
  | .quarters low high others => (quartersFrom low high ++ others).map .real
  | .guess v => [v]

/-- The values to try for a location under the bounds that are known. -/
def ofBounds (σ : Assignment) (place : Location) (bounds : Bounds) : Domain :=
  match place.sort, bounds.exact with
  | .int, _ =>
    let (l, h) := window reach (bounds.low?.map (leastInt 1)) (bounds.high?.map (greatestInt 1))
    .ints l h
  | .real, _ =>
    let low := bounds.low?
    let high := bounds.high?
    let (l, h) := window (4 * reach) (low.map (leastInt 4)) (high.map (greatestInt 4))
    let others := betweenBounds low high
    let isQuarter (q : Rat) : Bool := decide (4 % q.den = 0)
    .quarters l h (others.filter (!isQuarter ·))
  | _, v :: _ => .listed [v]
  | .bool, [] => .listed [.bool false, .bool true]
  | .bitVec width, [] => .listed (σ.range false (.bitVec width))
  | .user name, [] => .listed ((List.range (σ.population name + 1)).map (.element name))
  | sort, [] => .guess (σ.build sort place)

end Domain

end Engine

end SmtScript
