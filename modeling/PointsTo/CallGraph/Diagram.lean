import PointsTo.CallGraph.Basic

/-!
# Diagrams of call graphs

A diagram forgets the call sites: its nodes are methods, and between two methods there is one arrow
for each kind of call. `CallGraph.dot` writes it in the DOT language.
-/

namespace PointsTo

structure Diagram (μ : Type) [DecidableEq μ] [Hashable μ] where
  nodes : Table μ
  /-- Arrows between the places of nodes. -/
  arrows : List (Nat × Nat × EdgeKind)

namespace CallGraph
variable {σ μ : Type} [DecidableEq σ] [Hashable σ] [DecidableEq μ] [Hashable μ]

/-- The ends and the kind of each edge, repetitions left out. -/
def links (g : CallGraph σ μ) : List (μ × μ × EdgeKind) :=
  (Table.ofList (g.edges.toList.map fun e => (e.caller, e.callee, e.kind))).toList

/-- Reachable methods come first, then the ends of edges, callers before callees. -/
def diagram (g : CallGraph σ μ) : Diagram μ :=
  let nodes := g.links.foldl (fun nodes (a, b, _) => ((nodes.insert a).2.insert b).2) g.reachable
  { nodes
    arrows := g.links.map fun (a, b, kind) => ((nodes.find? a).getD 0, (nodes.find? b).getD 0, kind) }

/-- Quotes and backslashes get a backslash, and a line break ends a line of the label. -/
def escapeLabel (s : String) : String :=
  String.ofList (s.toList.flatMap fun c =>
    if c = '"' ∨ c = '\\' then ['\\', c] else if c = '\n' then ['\\', 'l'] else [c])

def dot (g : CallGraph σ μ) (label : μ → String) : String :=
  let d := g.diagram
  let nodes := d.nodes.toList.zipIdx.map fun (m, i) =>
    "    " ++ i.repr ++ " [ label = \"" ++ escapeLabel (label m) ++ "\" ]\n"
  let arrows := d.arrows.map fun (i, j, kind) =>
    "    " ++ i.repr ++ " -> " ++ j.repr ++ " [ label = \"" ++ kind.text ++ "\" ]\n"
  "digraph callgraph \x7b\n" ++ String.join (nodes ++ arrows) ++ "\x7d\n"

end CallGraph

end PointsTo
