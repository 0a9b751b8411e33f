import Std.Data.HashMap
import SmtScript.Engine.Assignment
import SmtScript.Term.Root

/-!
Terms as graphs.

A search looks at the same terms again and again. It works on a graph in which each distinct part
of the terms is one node, which comes after its operands; so a single pass over the nodes tells
something of all parts. A quantifier comes after its body and lists the nodes of the body whose
values depend on each of its variables.
-/

namespace SmtScript

namespace Engine

structure Node where
  root : Term.Root
  /-- The positions of the operands. They are less than that of the node itself. -/
  operands : List Nat
  sort : SmtSort
  /-- For each variable of a quantifier, the positions of the nodes that depend on it, in order. -/
  scopes : List (List Nat)
  deriving Inhabited

/-- Nodes in an order in which each one comes after its operands. -/
abbrev Graph := Array Node

namespace Graph

def node (graph : Graph) (position : Nat) : Node :=
  graph.getD position default

/-- Which nodes depend on a symbol. -/
def dependent (graph : Graph) (symbol : Symbol) : Array Bool :=
  graph.foldl (fun found node =>
    found.push <| match node.root with
      | .symbol s => s == symbol
      | _ => node.operands.any fun operand => found.getD operand false) #[]

/-- The positions of the nodes that depend on a symbol, in order. -/
def scopeOf (graph : Graph) (symbol : Symbol) : List Nat :=
  let dependent := graph.dependent symbol
  (List.range graph.size).filter fun position => dependent.getD position false

end Graph

/-- A root in which symbols that are not told apart are the same. -/
def plainRoot : Term.Root → Term.Root
  | .symbol s => .symbol (plain s)
  | .apply f => .apply (plain f)
  | .quantified q bound => .quantified q (bound.map plain)
  | root => root

/-- A graph that is being built, and where in it terms are. -/
structure GraphBuilder where
  graph : Graph
  positions : Std.HashMap Term Nat
  deriving Inhabited

namespace GraphBuilder

/-- Adds a node for a term whose operands are in the graph already. -/
def addNode (builder : GraphBuilder) (t : Term) (operands : List Nat) : Nat × GraphBuilder :=
  let root := plainRoot t.root
  let scopes := match root with
    | .quantified _ bound => bound.map builder.graph.scopeOf
    | _ => []
  let position := builder.graph.size
  (position, ⟨builder.graph.push ⟨root, operands, t.sort, scopes⟩,
    builder.positions.insert t position⟩)

mutual

/-- Adds a term and gives its position. -/
def add (t : Term) (builder : GraphBuilder) : Nat × GraphBuilder :=
  match builder.positions[t]? with
  | some position => (position, builder)
  | none =>
    let (operands, builder) := addAll t.operands builder
    builder.addNode t operands
termination_by (sizeOf t, 0)
decreasing_by exact .left _ _ (Term.totalSize_operands_lt t)

/-- Adds several terms and gives their positions. -/
def addAll (ts : List Term) (builder : GraphBuilder) : List Nat × GraphBuilder :=
  match ts with
  | [] => ([], builder)
  | t :: rest =>
    let (position, builder) := add t builder
    let (positions, builder) := addAll rest builder
    (position :: positions, builder)
termination_by (Term.totalSize ts, ts.length)
decreasing_by
  all_goals simp [Term.totalSize, Prod.lex_def]
  all_goals have := Term.sizeOf_pos t; omega

end

end GraphBuilder

/-- The graph of some terms, and the positions of the terms in it. -/
def Graph.ofTerms (ts : List Term) : List Nat × Graph :=
  let (positions, builder) := GraphBuilder.addAll (ShareCommon.shareCommon' ts) ⟨#[], ∅⟩
  (positions, builder.graph)

end Engine

end SmtScript
