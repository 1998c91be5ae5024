import PointsTo.Program.Basic
import PointsTo.Table

/-!
# The abstract heap

Objects are told apart by where they are allocated, never by when. A heap model says which abstract
object an allocation makes.
-/

namespace PointsTo

/-- An abstract object: where it is allocated, its class, and the class whose method allocates it. -/
structure Obj where
  site : StmtId
  cls : ClassId
  container : ClassId
  deriving DecidableEq, Hashable, Inhabited, Repr

structure Heap where
  objects : Array Obj
  objectAt : Std.HashMap StmtId ObjId

namespace Heap

def obj? (h : Heap) (o : ObjId) : Option Obj := h.objects[o.idx]?

def objAt? (h : Heap) (s : StmtId) : Option ObjId := h.objectAt[s]?

def objIds (h : Heap) : List ObjId := (List.range h.objects.size).map Id.mk

/-- No allocation makes an object. -/
def none : Heap := ⟨#[], ∅⟩

/-- The allocations of a program as the objects they make, by method and place. -/
def allocations (p : Program) : List Obj :=
  p.stmts.filterMap fun (site, stmt) =>
    match stmt with
    | .alloc _ cls => (p.method? site.method).map fun m => ⟨site, cls, m.cls⟩
    | _ => Option.none

/-- One object for each allocation. -/
def perSite (p : Program) : Heap where
  objects := (allocations p).toArray
  objectAt := (allocations p).zipIdx.foldl (fun index (o, i) => index.insert o.site ⟨i⟩) ∅

/-- One object for each class that is allocated; its first allocation describes it. -/
def perClass (p : Program) : Heap :=
  let classes := Table.ofList ((allocations p).map Obj.cls)
  { objects := (classes.toList.filterMap fun c => (allocations p).find? (·.cls = c)).toArray
    objectAt := (allocations p).foldl
      (fun index o => index.insert o.site ⟨(classes.find? o.cls).getD 0⟩) ∅ }

end Heap

end PointsTo
