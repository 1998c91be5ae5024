import PointsTo.CallGraph.Basic
import PointsTo.Entities.Basic
import PointsTo.Error
import PointsTo.FlowGraph
import PointsTo.Worklist

/-!
# The state of a run

All that a run has found so far, and all that it still has to look at. Actions on the state may
fail; a failure leaves the state as it was at that moment.
-/

namespace PointsTo

structure State where
  entities : Entities
  flow : FlowGraph
  calls : CallGraph CSCallSiteId CSMethodId
  work : Worklist
  /-- Methods found reachable whose bodies have not been read. -/
  pending : Queue CSMethodId
  /-- Entries taken from the worklist. -/
  popped : Nat
  /-- Entries that told their pointer something new. -/
  effective : Nat
  /-- Calls without a target. -/
  unresolved : Nat
  /-- The entry method has been entered. -/
  started : Bool

namespace State

def initial (order : Order) : State where
  entities := .empty
  flow := .empty
  calls := .empty
  work := .empty order
  pending := .empty
  popped := 0
  effective := 0
  unresolved := 0
  started := false

instance : Inhabited State := ⟨initial .fifo⟩

end State

abbrev Solve := ExceptT Error (StateM State)

namespace Solve

/-- Runs an action: what it gives, and the state it leaves. -/
def apply {α : Type} (action : Solve α) (s : State) : Except Error α × State := action.run.run s

/-- Follows a reference. -/
def known {α : Type} : Option α → Solve α
  | some a => return a
  | none => throw .unknownId

def onEntities {α : Type} (f : Entities → α × Entities) : Solve α :=
  modifyGet fun ⟨entities, flow, calls, work, pending, popped, effective, unresolved, started⟩ =>
    let (a, entities) := f entities
    (a, ⟨entities, flow, calls, work, pending, popped, effective, unresolved, started⟩)

def onFlow {α : Type} (f : FlowGraph → α × FlowGraph) : Solve α :=
  modifyGet fun ⟨entities, flow, calls, work, pending, popped, effective, unresolved, started⟩ =>
    let (a, flow) := f flow
    (a, ⟨entities, flow, calls, work, pending, popped, effective, unresolved, started⟩)

def onCalls {α : Type} (f : CallGraph CSCallSiteId CSMethodId → α × CallGraph CSCallSiteId CSMethodId) :
    Solve α :=
  modifyGet fun ⟨entities, flow, calls, work, pending, popped, effective, unresolved, started⟩ =>
    let (a, calls) := f calls
    (a, ⟨entities, flow, calls, work, pending, popped, effective, unresolved, started⟩)

def push (p : PointerId) (set : ObjSet) : Solve Unit :=
  modify fun ⟨entities, flow, calls, work, pending, popped, effective, unresolved, started⟩ =>
    ⟨entities, flow, calls, work.push p set, pending, popped, effective, unresolved, started⟩

/-- Takes the next entry from the worklist and counts it. -/
def pop? : Solve (Option (PointerId × ObjSet)) :=
  modifyGet fun ⟨entities, flow, calls, work, pending, popped, effective, unresolved, started⟩ =>
    match work.pop? with
    | none => (none, ⟨entities, flow, calls, work, pending, popped, effective, unresolved, started⟩)
    | some (entry, work) =>
      (some entry, ⟨entities, flow, calls, work, pending, popped + 1, effective, unresolved, started⟩)

def enqueue (m : CSMethodId) : Solve Unit :=
  modify fun ⟨entities, flow, calls, work, pending, popped, effective, unresolved, started⟩ =>
    ⟨entities, flow, calls, work, pending.push m, popped, effective, unresolved, started⟩

def dequeue? : Solve (Option CSMethodId) :=
  modifyGet fun ⟨entities, flow, calls, work, pending, popped, effective, unresolved, started⟩ =>
    match pending.popOldest? with
    | none => (none, ⟨entities, flow, calls, work, pending, popped, effective, unresolved, started⟩)
    | some (m, pending) =>
      (some m, ⟨entities, flow, calls, work, pending, popped, effective, unresolved, started⟩)

def countEffective : Solve Unit := modify fun s => { s with effective := s.effective + 1 }

def countUnresolved : Solve Unit := modify fun s => { s with unresolved := s.unresolved + 1 }

/-- Notes that the run has started, and says whether it had. -/
def start : Solve Bool := modifyGet fun s => (s.started, { s with started := true })

/-! ## Handles -/

def internContext (c : Context) : Solve ContextId := onEntities (·.internContext c)

def internObj (heap : ContextId) (o : ObjId) : Solve CSObjId := onEntities (·.internObj ⟨heap, o⟩)

def internSite (c : ContextId) (s : StmtId) : Solve CSCallSiteId := onEntities (·.internSite ⟨c, s⟩)

def internMethod (c : ContextId) (m : MethodId) : Solve CSMethodId := onEntities (·.internMethod ⟨c, m⟩)

def varPointer (c : ContextId) (v : VarId) : Solve PointerId := onEntities (·.internPointer (.var c v))

def staticPointer (f : FieldId) : Solve PointerId := onEntities (·.internPointer (.staticField f))

def fieldPointer (o : CSObjId) (f : FieldId) : Solve PointerId :=
  onEntities (·.internPointer (.instanceField o f))

def arrayPointer (o : CSObjId) : Solve PointerId := onEntities (·.internPointer (.arrayIndex o))

def contextOf (c : ContextId) : Solve Context := do known ((← get).entities.context? c)

end Solve

end PointsTo
