import PointsTo.Analysis
import PointsTo.CallGraph.Diagram
import PointsTo.Json.Printer

/-!
# Reports

A summary of an outcome in names instead of numbers, without contexts.
-/

namespace PointsTo

structure ReportEdge where
  caller : String
  site : Nat
  kind : String
  callee : String
  deriving DecidableEq, Repr

/-- By caller, place of the call, kind and callee. -/
def ReportEdge.le (a b : ReportEdge) : Bool :=
  ((compare a.caller b.caller).then <| (compare a.site b.site).then <|
    (compare a.kind b.kind).then (compare a.callee b.callee)).isLE

structure Report where
  selector : String
  reachableMethods : List String
  /-- In ascending order. -/
  callEdges : List ReportEdge
  /-- The allocations that a variable may hold, by method and name, in ascending order. -/
  pointsTo : List (String × List String)
  stats : Stats

/-- Puts an entry at its place in an ascending list, over an entry of the same key. -/
def insertEntry {α : Type} (entries : List (String × α)) (key : String) (value : α) : List (String × α) :=
  match entries with
  | [] => [(key, value)]
  | (k, v) :: rest =>
    if key < k then (key, value) :: (k, v) :: rest
    else if key = k then (key, value) :: rest
    else (k, v) :: insertEntry rest key value

/-- The class and the place of an allocation. -/
def World.objText? (w : World) (o : ObjId) : Option String := do
  let obj ← w.heap.obj? o
  let cls ← w.program.class? obj.cls
  let signature ← w.program.signature? obj.site.method
  return "new " ++ cls.name ++ " @ " ++ signature ++ "[" ++ obj.site.index.repr ++ "]"

namespace Outcome

/-- Variables that point to nothing are left out. Of variables with the same text the last counts. -/
def reportPointsTo? (r : Outcome) (w : World) : Option (List (String × List String)) :=
  w.program.varIds.foldlM
    (fun entries v =>
      match r.pointsTo v with
      | [] => some entries
      | objs => do return insertEntry entries (← w.program.varText? v) (← objs.mapM w.objText?))
    []

def reportEdge? (w : World) (e : Edge StmtId MethodId) : Option ReportEdge := do
  return ⟨← w.program.signature? e.caller, e.site.index, e.kind.text, ← w.program.signature? e.callee⟩

/-- None if the outcome speaks of things that are not in the world. -/
def report? (r : Outcome) (w : World) : Option Report := do
  let g := r.callGraph
  return {
    selector := r.selector
    reachableMethods := ← g.reachable.toList.mapM w.program.signature?
    callEdges := (← g.edges.toList.mapM (reportEdge? w)).mergeSort ReportEdge.le
    pointsTo := ← r.reportPointsTo? w
    stats := r.stats }

end Outcome

/-- Signatures as labels. -/
def World.methodLabel (w : World) (m : MethodId) : String := (w.program.signature? m).getD ""

namespace Stats

def members (s : Stats) : List (String × Json) :=
  [("worklist_entries", .nat s.worklistEntries),
    ("effective_propagations", .nat s.effectivePropagations),
    ("reachable_methods", .nat s.reachableMethods),
    ("call_edges", .nat s.callEdges),
    ("pfg_edges", .nat s.flowEdges),
    ("pointers", .nat s.pointers),
    ("cs_objects", .nat s.csObjects),
    ("contexts", .nat s.contexts),
    ("unresolved_calls", .nat s.unresolvedCalls)]

end Stats

namespace ReportEdge

def toJson (e : ReportEdge) : Json :=
  .record [("caller", .text e.caller), ("call_site", .nat e.site), ("kind", .text e.kind),
    ("callee", .text e.callee)]

end ReportEdge

namespace Report

/-- `extra` is added to the statistics. -/
def toJson (r : Report) (extra : List (String × Json)) : Json :=
  .record [("selector", .text r.selector),
    ("reachable_methods", .arr (r.reachableMethods.map .text)),
    ("call_edges", .arr (r.callEdges.map ReportEdge.toJson)),
    ("points_to", .record (r.pointsTo.map fun (k, objs) => (k, .arr (objs.map .text)))),
    ("stats", .record (r.stats.members ++ extra))]

end Report

end PointsTo
