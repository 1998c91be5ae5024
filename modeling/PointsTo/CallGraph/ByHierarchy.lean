import PointsTo.CallGraph.Basic
import PointsTo.World

/-!
# Call graphs from the class hierarchy

A rough call graph that asks no object: a call on an object may run the method of any subtype of the
class it names.
-/

namespace PointsTo

/-- The possible targets of a call, those of nearer subtypes first. -/
def Hierarchy.targets (h : Hierarchy) (call : Call) : List MethodId :=
  let target := call.target
  match call.kind with
  | .static => (h.declaredMethod? target.cls target.subsignature).toList
  | .special => (h.dispatch? target.cls target.subsignature).toList
  | .virtual | .interface | .dynamic =>
    if call.kind = .dynamic ∧ call.receiver = none then []
    else (Table.ofList ((h.subtypes target.cls).filterMap fun c => h.dispatch? c target.subsignature)).toList

namespace World
variable (w : World)

/-- The calls in the body of a method, with their places. -/
def calls (m : MethodId) : List (StmtId × Call) :=
  (w.program.body m).filterMap fun (site, stmt) => stmt.call?.map fun call => (site, call)

/-- The edges that the body of a method gives rise to. -/
def hierarchyEdges (m : MethodId) : List (Edge StmtId MethodId) :=
  (w.calls m).flatMap fun (site, call) =>
    (w.hierarchy.targets call).map fun callee => ⟨EdgeKind.ofCall call.kind, m, site, callee⟩

def hierarchyCalls : Walk.Graph MethodId where
  next m := (w.hierarchyEdges m).map (·.callee)
  finite := ⟨w.program.methodIds, fun m hm => by
    simp [hierarchyEdges, calls, Program.body_of_unknown hm]⟩

/-- The methods that the entry reaches, nearest first. -/
def hierarchyReachable : List MethodId := Walk.breadthFirst w.hierarchyCalls w.entry

def hierarchyGraph : CallGraph StmtId MethodId :=
  let g : CallGraph StmtId MethodId := CallGraph.empty.addEntry w.entry
  let g := w.hierarchyReachable.foldl (fun g m => (g.addReachable m).2) g
  (w.hierarchyReachable.flatMap w.hierarchyEdges).foldl (fun g e => (g.addEdge e).2) g

end World

end PointsTo
