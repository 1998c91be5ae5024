import PointsTo.Program.Basic
import PointsTo.Table

/-!
# Call graphs

Which calls lead to which methods. Methods and call sites may be those of a program or their
context-qualified instances. A graph only grows; methods and edges keep the order of their first
arrival.
-/

namespace PointsTo

/-- How the target of a call was found. -/
inductive EdgeKind
  | static
  | special
  | virtual
  | interface
  | dynamic
  | other
  deriving DecidableEq, Hashable, Inhabited, Repr

namespace EdgeKind

def text : EdgeKind → String
  | .static => "STATIC"
  | .special => "SPECIAL"
  | .virtual => "VIRTUAL"
  | .interface => "INTERFACE"
  | .dynamic => "DYNAMIC"
  | .other => "OTHER"

def rank : EdgeKind → Nat
  | .static => 0
  | .special => 1
  | .virtual => 2
  | .interface => 3
  | .dynamic => 4
  | .other => 5

def ofCall : CallKind → EdgeKind
  | .static => .static
  | .special => .special
  | .virtual => .virtual
  | .interface => .interface
  | .dynamic => .dynamic

end EdgeKind

structure Edge (σ μ : Type) where
  kind : EdgeKind
  caller : μ
  site : σ
  callee : μ
  deriving DecidableEq, Hashable, Repr

/-- By kind, caller, call site and callee. -/
def Edge.le {σ μ : Type} [Ord σ] [Ord μ] (a b : Edge σ μ) : Bool :=
  ((compare a.kind.rank b.kind.rank).then <| (compare a.caller b.caller).then <|
    (compare a.site b.site).then (compare a.callee b.callee)).isLE

structure CallGraph (σ μ : Type) [DecidableEq σ] [Hashable σ] [DecidableEq μ] [Hashable μ] where
  entries : Table μ
  reachable : Table μ
  edges : Table (Edge σ μ)
  /-- The edges by call site, in order of arrival. -/
  out : Std.HashMap σ (Array (Edge σ μ))
  /-- The edges by callee, in order of arrival. -/
  into : Std.HashMap μ (Array (Edge σ μ))

namespace CallGraph
variable {σ μ : Type} [DecidableEq σ] [Hashable σ] [DecidableEq μ] [Hashable μ]

def empty : CallGraph σ μ := ⟨.empty, .empty, .empty, ∅, ∅⟩

instance : Inhabited (CallGraph σ μ) := ⟨empty⟩

def addEntry (g : CallGraph σ μ) (m : μ) : CallGraph σ μ := { g with entries := (g.entries.insert m).2 }

/-- Marks `m` as reachable, and says whether it is so only now. -/
def addReachable : CallGraph σ μ → μ → Bool × CallGraph σ μ
  | ⟨entries, reachable, edges, out, into⟩, m =>
    let (new, reachable) := reachable.insert m
    (new, ⟨entries, reachable, edges, out, into⟩)

/-- Adds an edge, and says whether it is new. -/
def addEdge : CallGraph σ μ → Edge σ μ → Bool × CallGraph σ μ
  | ⟨entries, reachable, edges, out, into⟩, e =>
    match edges.insert e with
    | (false, edges) => (false, ⟨entries, reachable, edges, out, into⟩)
    | (true, edges) =>
      (true, ⟨entries, reachable, edges,
        out.alter e.site fun old => some ((old.getD #[]).push e),
        into.alter e.callee fun old => some ((old.getD #[]).push e)⟩)

variable (g : CallGraph σ μ)

def isReachable (m : μ) : Bool := g.reachable.contains m

def hasEdge (e : Edge σ μ) : Bool := g.edges.contains e

def edgesOutOf (s : σ) : List (Edge σ μ) := (g.out.getD s #[]).toList

def edgesInto (m : μ) : List (Edge σ μ) := (g.into.getD m #[]).toList

def calleesOf (s : σ) : List μ := (g.edgesOutOf s).map (·.callee)

/-- The caller of each edge into `m`. -/
def callersOf (m : μ) : List μ := (g.edgesInto m).map (·.caller)

/-- The edges in ascending order. -/
def sortedEdges [Ord σ] [Ord μ] : List (Edge σ μ) := g.edges.toList.mergeSort Edge.le

/-- The same graph with other names for sites and methods. -/
def map {σ' μ' : Type} [DecidableEq σ'] [Hashable σ'] [DecidableEq μ'] [Hashable μ']
    (site : σ → σ') (method : μ → μ') : CallGraph σ' μ' :=
  let g' := g.entries.toList.foldl (fun g' m => g'.addEntry (method m)) empty
  let g' := g.reachable.toList.foldl (fun g' m => (g'.addReachable (method m)).2) g'
  g.edges.toList.foldl
    (fun g' e => (g'.addEdge ⟨e.kind, method e.caller, site e.site, method e.callee⟩).2) g'

end CallGraph

end PointsTo
