import PointsTo.Solver.Run

/-!
# Outcomes

What a finished run knows, and the questions it answers: with contexts as they were found, or with
contexts forgotten.
-/

namespace PointsTo

/-- For each object the variables that may point to it, in ascending order. -/
abbrev AliasIndex := Std.HashMap ObjId (List VarId)

structure Stats where
  /-- Entries taken from the worklist. -/
  worklistEntries : Nat
  /-- Entries that told their pointer something new. -/
  effectivePropagations : Nat
  reachableMethods : Nat
  callEdges : Nat
  flowEdges : Nat
  pointers : Nat
  csObjects : Nat
  contexts : Nat
  /-- Calls without a target. -/
  unresolvedCalls : Nat
  deriving DecidableEq, Repr

def State.stats (s : State) : Stats where
  worklistEntries := s.popped
  effectivePropagations := s.effective
  reachableMethods := s.calls.reachable.size
  callEdges := s.calls.edges.size
  flowEdges := s.flow.edgeCount
  pointers := s.entities.pointers.size
  csObjects := s.entities.objs.size
  contexts := s.entities.contexts.size
  unresolvedCalls := s.unresolved

structure Outcome where
  /-- The name of the selector. -/
  selector : String
  entities : Entities
  flow : FlowGraph
  calls : CallGraph CSCallSiteId CSMethodId
  stats : Stats
  /-- The alias index, if it was made in advance. -/
  aliases? : Option AliasIndex

namespace Outcome

def ofState (selector : String) (s : State) : Outcome :=
  ⟨selector, s.entities, s.flow, s.calls, s.stats, none⟩

variable (r : Outcome)

/-! ## Objects of variables and fields -/

/-- The abstract object of a context-qualified one. -/
def objOf? (o : CSObjId) : Option ObjId := (r.entities.obj? o).map CSObj.obj

/-- What `v` may point to, over all its contexts. -/
def csPointsTo (v : VarId) : ObjSet :=
  (r.entities.pointersOf v).foldl (fun set p => set.union (r.entities.pointsTo p)) .empty

/-- The abstract objects that `v` may point to, in ascending order. -/
def pointsTo (v : VarId) : List ObjId := Ascending.ofList ((r.csPointsTo v).toList.filterMap r.objOf?)

/-- What `v` may point to under one context; none if `v` was never met there. -/
def pointsToUnder? (c : Context) (v : VarId) : Option ObjSet := do
  let c ← r.entities.findContext? c
  let p ← r.entities.findPointer? (.var c v)
  r.entities.pointsTo? p

/-- The contexts of `v` and what it may point to under each. -/
def byContext (v : VarId) : List (Context × ObjSet) :=
  (r.entities.pointersOf v).filterMap fun p => do
    let (c, _) ← (← r.entities.pointer? p).var?
    return (← r.entities.context? c, r.entities.pointsTo p)

/-- What a field of an object may hold. -/
def fieldPointsTo (o : CSObjId) (f : FieldId) : ObjSet :=
  match r.entities.findPointer? (.instanceField o f) with
  | some p => r.entities.pointsTo p
  | none => .empty

/-- The context-qualified instances of an abstract object. -/
def instancesOf (o : ObjId) : List CSObjId := r.entities.objIds.filter fun i => r.objOf? i = some o

/-! ## Aliases -/

/-- Some abstract object is pointed to by both. -/
def mayAlias (v w : VarId) : Bool := Ascending.meet (r.pointsTo v) (r.pointsTo w)

/-- Some object under one heap context is pointed to by both. -/
def csMayAlias (v w : VarId) : Bool := (r.csPointsTo v).intersects (r.csPointsTo w)

/-- The pairs of an item and itself or a later one whose second components are related. -/
def relatedPairs {α β : Type} (related : β → β → Bool) : List (α × β) → List (α × α)
  | [] => []
  | (a, x) :: rest =>
    (((a, x) :: rest).filter fun (_, y) => related x y).map (fun (b, _) => (a, b))
      ++ relatedPairs related rest

/-- The pairs of `vs` that may alias, each in the order of `vs`. -/
def aliasPairs (vs : List VarId) : List (VarId × VarId) :=
  relatedPairs Ascending.meet (vs.map fun v => (v, r.pointsTo v))

/-- The pairs of `vs` that may alias under one heap context. -/
def csAliasPairs (vs : List VarId) : List (VarId × VarId) :=
  relatedPairs ObjSet.intersects (vs.map fun v => (v, r.csPointsTo v))

/-- The variables of all pointers with the objects they point to. -/
def holdings : List (ObjId × VarId) :=
  r.entities.pointerIds.flatMap fun p =>
    match (r.entities.pointer? p).bind Pointer.var? with
    | none => []
    | some (_, v) => ((r.entities.pointsTo p).toList.filterMap r.objOf?).map fun o => (o, v)

/-- The variables of each object as they are met. -/
def holders : Std.HashMap ObjId (List VarId) :=
  r.holdings.foldl (fun index (o, v) => index.alter o fun old => some (v :: old.getD [])) ∅

def aliasIndex : AliasIndex :=
  match r.aliases? with
  | some index => index
  | none => r.holders.map fun _ vs => Ascending.ofList vs

/-- The outcome with its alias index made. -/
def withAliasIndex : Outcome := { r with aliases? := some r.aliasIndex }

/-- The other variables that may alias `v`, in ascending order. -/
def aliasesOf (v : VarId) : List VarId :=
  let index := r.aliasIndex
  ((r.pointsTo v).foldl (fun all o => Ascending.join all (index.getD o [])) []).filter (· ≠ v)

/-! ## Calls -/

/-- The call graph with contexts forgotten. -/
def callGraph : CallGraph StmtId MethodId :=
  r.calls.map (fun s => ((r.entities.site? s).map CSCallSite.site).getD default)
    fun m => ((r.entities.method? m).map CSMethod.method).getD default

def reachableMethods : List MethodId := r.callGraph.reachable.toList

end Outcome

end PointsTo
