import PointsTo.Id
import PointsTo.Table

/-!
# Flow between pointers

An edge from one pointer to another says that the second holds whatever the first does. Edges are
added once and never removed.
-/

namespace PointsTo

structure FlowGraph where
  /-- The targets of each source, in order of arrival. -/
  targets : Std.HashMap PointerId (Array PointerId)
  /-- The pointers with an edge. -/
  nodes : Table PointerId
  edgeCount : Nat

namespace FlowGraph

def empty : FlowGraph := ⟨∅, .empty, 0⟩

instance : Inhabited FlowGraph := ⟨empty⟩

def hasEdge (g : FlowGraph) (p q : PointerId) : Bool := (g.targets.getD p #[]).contains q

/-- Adds an edge, and says whether it is new. -/
def addEdge : FlowGraph → PointerId → PointerId → Bool × FlowGraph
  | ⟨targets, nodes, edgeCount⟩, p, q =>
    if (targets.getD p #[]).contains q then (false, ⟨targets, nodes, edgeCount⟩)
    else
      (true, ⟨targets.alter p fun old => some ((old.getD #[]).push q),
        ((nodes.insert p).2.insert q).2, edgeCount + 1⟩)

/-- Where `p` flows to, in order of arrival. -/
def successors (g : FlowGraph) (p : PointerId) : List PointerId := (g.targets.getD p #[]).toList

def nodeCount (g : FlowGraph) : Nat := g.nodes.size

end FlowGraph

end PointsTo
