import SmtScript.Engine.Assignment

/-!
Linear sums.

A number that depends on locations without values may still be known as a sum of multiples of
them and a constant.
-/

namespace SmtScript

namespace Engine

/-- A sum of multiples of locations and a constant. -/
structure Linear where
  parts : List (Location × Rat)
  constant : Rat
  deriving Repr

namespace Linear

def ofConstant (q : Rat) : Linear := ⟨[], q⟩

/-- Adds a multiple of a location to a sum. -/
def insertPart (place : Location) (factor : Rat) : List (Location × Rat) → List (Location × Rat)
  | [] => [(place, factor)]
  | (other, f) :: rest =>
    if other == place then (other, f + factor) :: rest
    else (other, f) :: insertPart place factor rest

def scale (q : Rat) (l : Linear) : Linear :=
  ⟨l.parts.map fun (place, factor) => (place, q * factor), q * l.constant⟩

def add (l m : Linear) : Linear :=
  ⟨m.parts.foldl (fun parts (place, factor) => insertPart place factor parts) l.parts,
    l.constant + m.constant⟩

def sub (l m : Linear) : Linear := l.add (m.scale (-1))

/-- The product, if one factor is constant. -/
def mul? (l m : Linear) : Option Linear :=
  if l.parts.isEmpty then some (m.scale l.constant)
  else if m.parts.isEmpty then some (l.scale m.constant)
  else none

/-- The quotient, if the divisor is constant. -/
def div? (l m : Linear) : Option Linear :=
  if m.parts.isEmpty && m.constant ≠ 0 then some (l.scale (1 / m.constant)) else none

/-- The same sum without parts that are zero. -/
def reduced (l : Linear) : Linear :=
  { l with parts := l.parts.filter fun (_, factor) => factor ≠ 0 }

/-- The single location with a factor other than zero, if there is just one. -/
def single? (l : Linear) : Option (Location × Rat) :=
  match l.reduced.parts with
  | [part] => some part
  | _ => none

/-- The number that a sum is, if it depends on no location. -/
def constant? (l : Linear) : Option Rat :=
  if l.reduced.parts.isEmpty then some l.constant else none

end Linear

end Engine

end SmtScript
