import PointsTo.Config.Basic
import PointsTo.ObjSet
import PointsTo.Queue

/-!
# Pending work

Entries say that a pointer is to hold some objects. Which entry is next depends on the order.
-/

namespace PointsTo

structure Worklist where
  order : Order
  entries : Queue (PointerId × ObjSet)

namespace Worklist

def empty (order : Order) : Worklist := ⟨order, .empty⟩

instance : Inhabited Worklist := ⟨empty .fifo⟩

def push : Worklist → PointerId → ObjSet → Worklist
  | ⟨order, entries⟩, p, set => ⟨order, entries.push (p, set)⟩

def pop? (w : Worklist) : Option ((PointerId × ObjSet) × Worklist) :=
  match w.order with
  | .fifo => w.entries.popOldest?.map fun (e, rest) => (e, ⟨w.order, rest⟩)
  | .lifo => w.entries.popNewest?.map fun (e, rest) => (e, ⟨w.order, rest⟩)

def length (w : Worklist) : Nat := w.entries.length

def isEmpty (w : Worklist) : Bool := w.entries.isEmpty

end Worklist

end PointsTo
