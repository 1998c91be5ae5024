import PointsTo.Heap
import PointsTo.Hierarchy
import PointsTo.Program.Format
import PointsTo.Program.Validity

/-!
# Worlds

What an analysis is given: a valid program, its class hierarchy, its heap and its entry method.
-/

namespace PointsTo

structure World where
  hierarchy : Hierarchy
  heap : Heap
  entry : MethodId

namespace World

def program (w : World) : Program := w.hierarchy.program

/-- Fails if the program is malformed. -/
def withHeap (p : Program) (heap : Heap) : Except Error World :=
  match p.check with
  | .ok entry => .ok ⟨.ofProgram p, heap, entry⟩
  | .error fault => .error (.malformed fault)

def ofProgram (p : Program) : Except Error World := withHeap p (.perSite p)

def read (text : String) : Except Error World := do ofProgram (← Program.read text)

/-- How many classes, methods and objects there are, and the entry. -/
def summary (w : World) : String :=
  "World \x7b classes: " ++ w.program.classes.size.repr ++ ", methods: " ++ w.program.methods.size.repr
    ++ ", objects: " ++ w.heap.objects.size.repr ++ ", entry: MethodId(" ++ w.entry.idx.repr ++ ") \x7d"

end World

end PointsTo
