import PointsTo.Context
import PointsTo.ObjSet
import PointsTo.Table

/-!
# Context-qualified entities

Objects, call sites, methods and pointers under a context. Each is known by a handle, given on its
first request and kept for good, so that equal contents have equal handles. Every pointer has the
set of objects that it may point to.
-/

namespace PointsTo

/-- An abstract object under a heap context. -/
structure CSObj where
  heap : ContextId
  obj : ObjId
  deriving DecidableEq, Hashable, Inhabited, Repr

/-- A call under the context of its caller. -/
structure CSCallSite where
  context : ContextId
  site : StmtId
  deriving DecidableEq, Hashable, Inhabited, Repr

structure CSMethod where
  context : ContextId
  method : MethodId
  deriving DecidableEq, Hashable, Inhabited, Repr

/-- What may hold objects. Static fields have no context, and the indices of an array are one. -/
inductive Pointer
  | var (context : ContextId) (var : VarId)
  | staticField (field : FieldId)
  | instanceField (base : CSObjId) (field : FieldId)
  | arrayIndex (base : CSObjId)
  deriving DecidableEq, Hashable, Inhabited, Repr

def Pointer.var? : Pointer → Option (ContextId × VarId)
  | .var c v => some (c, v)
  | _ => none

structure Entities where
  contexts : Table Context
  objs : Table CSObj
  sites : Table CSCallSite
  methods : Table CSMethod
  pointers : Table Pointer
  /-- The set of each pointer, by handle. -/
  sets : Array ObjSet
  /-- The pointers of each variable, in order of creation. -/
  varPointers : Std.HashMap VarId (Array PointerId)

namespace Entities

/-- The empty context has the first handle from the start. -/
def empty : Entities where
  contexts := (Table.empty.intern Context.empty).2
  objs := .empty
  sites := .empty
  methods := .empty
  pointers := .empty
  sets := #[]
  varPointers := ∅

instance : Inhabited Entities := ⟨empty⟩

def emptyContext : ContextId := ⟨0⟩

/-! ## Handles -/

def internContext : Entities → Context → ContextId × Entities
  | ⟨contexts, objs, sites, methods, pointers, sets, vars⟩, c =>
    let (i, contexts) := contexts.intern c
    (⟨i⟩, ⟨contexts, objs, sites, methods, pointers, sets, vars⟩)

def internObj : Entities → CSObj → CSObjId × Entities
  | ⟨contexts, objs, sites, methods, pointers, sets, vars⟩, o =>
    let (i, objs) := objs.intern o
    (⟨i⟩, ⟨contexts, objs, sites, methods, pointers, sets, vars⟩)

def internSite : Entities → CSCallSite → CSCallSiteId × Entities
  | ⟨contexts, objs, sites, methods, pointers, sets, vars⟩, s =>
    let (i, sites) := sites.intern s
    (⟨i⟩, ⟨contexts, objs, sites, methods, pointers, sets, vars⟩)

def internMethod : Entities → CSMethod → CSMethodId × Entities
  | ⟨contexts, objs, sites, methods, pointers, sets, vars⟩, m =>
    let (i, methods) := methods.intern m
    (⟨i⟩, ⟨contexts, objs, sites, methods, pointers, sets, vars⟩)

/-- A new pointer points to nothing. -/
def internPointer : Entities → Pointer → PointerId × Entities
  | ⟨contexts, objs, sites, methods, pointers, sets, vars⟩, p =>
    let count := pointers.size
    let (i, pointers) := pointers.intern p
    if i < count then (⟨i⟩, ⟨contexts, objs, sites, methods, pointers, sets, vars⟩)
    else
      let vars := match p with
        | .var _ v => vars.alter v fun old => some ((old.getD #[]).push ⟨i⟩)
        | _ => vars
      (⟨i⟩, ⟨contexts, objs, sites, methods, pointers, sets.push .empty, vars⟩)

/-! ## Contents -/

variable (e : Entities)

def context? (c : ContextId) : Option Context := e.contexts.get? c.idx

def obj? (o : CSObjId) : Option CSObj := e.objs.get? o.idx

def site? (s : CSCallSiteId) : Option CSCallSite := e.sites.get? s.idx

def method? (m : CSMethodId) : Option CSMethod := e.methods.get? m.idx

def pointer? (p : PointerId) : Option Pointer := e.pointers.get? p.idx

def findContext? (c : Context) : Option ContextId := (e.contexts.find? c).map Id.mk

def findPointer? (p : Pointer) : Option PointerId := (e.pointers.find? p).map Id.mk

def pointsTo? (p : PointerId) : Option ObjSet := e.sets[p.idx]?

/-- The objects that `p` points to; none for an unknown pointer. -/
def pointsTo (p : PointerId) : ObjSet := (e.pointsTo? p).getD .empty

def pointersOf (v : VarId) : List PointerId := (e.varPointers.getD v #[]).toList

def pointerIds : List PointerId := (List.range e.pointers.size).map Id.mk

def objIds : List CSObjId := (List.range e.objs.size).map Id.mk

/-- Lets `p` point to the objects of `set` as well, and gives back those that are new to it. -/
def extend : Entities → PointerId → ObjSet → ObjSet × Entities
  | ⟨contexts, objs, sites, methods, pointers, sets, vars⟩, p, set =>
    let (joined, fresh) := (sets[p.idx]?.getD .empty).addAll set
    (fresh, ⟨contexts, objs, sites, methods, pointers, sets.setIfInBounds p.idx joined, vars⟩)

end Entities

end PointsTo
