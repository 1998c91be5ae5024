import PointsTo.AccessIndex
import PointsTo.Selector
import PointsTo.Solver.State
import PointsTo.World

/-!
# The rules of the analysis

What a statement adds to the state. Allocations, copies, static accesses and static calls take
effect once, when their method becomes reachable. Accesses and calls on a variable take effect for
each object that the variable comes to point to.
-/

namespace PointsTo

/-- What a run is given. `limit` bounds its loops, see `Iterate.exhaust`. -/
structure Task where
  world : World
  selector : Selector
  index : AccessIndex
  limit : Nat

namespace Task
open Solve

variable (t : Task)

/-! ## Flow -/

/-- Lets `p` flow into `q`; what `p` holds already is passed on at once. -/
def connect (p q : PointerId) : Solve Unit := do
  if ← onFlow (·.addEdge p q) then
    let set ← known ((← get).entities.pointsTo? p)
    if !set.isEmpty then push q set

/-- Adds `set` to what `p` holds. If `p` learns something, the whole set is passed on. Gives back
what was new. -/
def propagate (p : PointerId) (set : ObjSet) : Solve ObjSet := do
  let _ ← known ((← get).entities.pointsTo? p)
  let fresh ← onEntities (·.extend p set)
  if !fresh.isEmpty then
    countEffective
    ((← get).flow.successors p).forM (push · set)
  return fresh

/-! ## Calls -/

/-- Arguments flow to parameters, returned variables to the result. -/
def bindCall (caller : ContextId) (call : Call) (context : ContextId) (callee : MethodId) : Solve Unit := do
  let method ← known (t.world.program.method? callee)
  if call.args.length ≠ method.params.length then
    let signature ← known (t.world.program.signature? callee)
    throw (.malformed (.arity call.args.length signature method.params.length))
  (call.args.zip method.params).forM fun (arg, param) => do
    let source ← varPointer caller arg
    let target ← varPointer context param
    connect source target
  match call.result with
  | none => return
  | some result =>
    let target ← varPointer caller result
    method.returnVars.forM fun v => do
      let source ← varPointer context v
      connect source target

/-- Adds an edge of the call graph. Behind a new one the callee is reachable and bound. -/
def link (edge : Edge CSCallSiteId CSMethodId) (caller : ContextId) (call : Call) (context : ContextId)
    (callee : MethodId) : Solve Unit := do
  if ← onCalls (·.addEdge edge) then
    enqueue edge.callee
    t.bindCall caller call context callee

def staticCall (caller : CSMethodId) (context : ContextId) (site : StmtId) (call : Call) : Solve Unit := do
  match ← ofExcept (t.world.hierarchy.callee? none call) with
  | none => countUnresolved
  | some callee =>
    let calleeContext ← internContext (t.selector.static (← contextOf context) site callee)
    let csCallee ← internMethod calleeContext callee
    let csSite ← internSite context site
    t.link ⟨.static, caller, csSite, csCallee⟩ context call calleeContext callee

/-- The call at `site`, whose receiver has just learned of the object `o`. -/
def instanceCall (context : ContextId) (o : CSObjId) (site : StmtId) : Solve Unit := do
  let program := t.world.program
  let method ← known (program.method? site.method)
  let some call := method.body[site.index]?.bind Stmt.call? | throw (.broken (.notACall site))
  let receiver ← known ((← get).entities.obj? o)
  let obj ← known (t.world.heap.obj? receiver.obj)
  match ← ofExcept (t.world.hierarchy.callee? (some obj.cls) call) with
  | none => countUnresolved
  | some callee =>
    let callerContext ← contextOf context
    let heapContext ← contextOf receiver.heap
    let calleeContext ←
      internContext (t.selector.onObject callerContext site heapContext receiver.obj obj callee)
    let csCallee ← internMethod calleeContext callee
    let target ← known (program.method? callee)
    match target.thisVar with
    | none =>
      let signature ← known (program.signature? callee)
      throw (.malformed (.staticTarget call.kind site signature))
    | some this =>
      let this ← varPointer calleeContext this
      push this (.singleton o)
      let caller ← internMethod context site.method
      let csSite ← internSite context site
      t.link ⟨.ofCall call.kind, caller, csSite, csCallee⟩ context call calleeContext callee

/-! ## Statements -/

def alloc (context : ContextId) (site : StmtId) (lhs : VarId) : Solve Unit := do
  let some o := t.world.heap.objAt? site | throw (.broken (.noObject site))
  let obj ← known (t.world.heap.obj? o)
  let heap ← internContext (t.selector.heap (← contextOf context) site.method obj)
  let csObj ← internObj heap o
  let target ← varPointer context lhs
  push target (.singleton csObj)

def staticField (site : StmtId) : Solve FieldId :=
  match t.index.staticField? site with
  | some f => return f
  | none => throw (.broken (.notIndexed site))

/-- What a statement does as soon as its method is reachable. -/
def stmt (caller : CSMethodId) (context : ContextId) (site : StmtId) : Stmt → Solve Unit
  | .alloc lhs _ => t.alloc context site lhs
  | .copy lhs rhs => do
    let source ← varPointer context rhs
    let target ← varPointer context lhs
    connect source target
  | .loadField lhs none _ => do
    let source ← staticPointer (← t.staticField site)
    let target ← varPointer context lhs
    connect source target
  | .storeField none _ rhs => do
    let field ← t.staticField site
    let source ← varPointer context rhs
    let target ← staticPointer field
    connect source target
  | .invoke call =>
    if call.isStatic then t.staticCall caller context site call
    else if call.receiver.isNone then countUnresolved
    else return
  | .loadField _ (some _) _ | .storeField (some _) _ _ | .loadArray .. | .storeArray .. | .ret _ | .nop =>
    return

/-- Reads the body of a method that has become reachable. -/
def enter (m : CSMethodId) : Solve Unit := do
  let csMethod ← known ((← get).entities.method? m)
  let _ ← known (t.world.program.method? csMethod.method)
  (t.world.program.body csMethod.method).forM fun (site, s) => t.stmt m csMethod.context site s

/-- The accesses based on `v`, for an object that it has just learned of. -/
def accesses (context : ContextId) (a : Accesses) (o : CSObjId) : Solve Unit := do
  a.fieldStores.forM fun (field, rhs) => do
    let source ← varPointer context rhs
    let target ← fieldPointer o field
    connect source target
  a.fieldLoads.forM fun (lhs, field) => do
    let source ← fieldPointer o field
    let target ← varPointer context lhs
    connect source target
  a.arrayStores.forM fun rhs => do
    let source ← varPointer context rhs
    let target ← arrayPointer o
    connect source target
  a.arrayLoads.forM fun lhs => do
    let source ← arrayPointer o
    let target ← varPointer context lhs
    connect source target

/-- All that follows once a variable has learned of an object. -/
def learn (context : ContextId) (v : VarId) (o : CSObjId) : Solve Unit :=
  match t.index.accesses? v with
  | none => return
  | some a => do
    accesses context a o
    a.calls.forM (t.instanceCall context o)

end Task

end PointsTo
