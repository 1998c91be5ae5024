import PointsTo.Config.Sensitivity
import PointsTo.Context
import PointsTo.Heap

/-!
# Context selectors

A selector says under which context a callee is analysed and an object is allocated. The solver asks
nothing else of a sensitivity.

The object-flavoured selectors keep one element less for objects than for methods. Call strings do
not tell objects apart.
-/

namespace PointsTo

structure Selector where
  name : String
  /-- The context of the entry method. -/
  entry : Context
  /-- The context of a callee, by the caller's context and the call; for static calls. -/
  static : Context → StmtId → MethodId → Context
  /-- The context of a callee, by the caller's context, the call, and the receiver under its heap
  context. -/
  onObject : Context → StmtId → Context → ObjId → Obj → MethodId → Context
  /-- The heap context of an object, by the context of the method that allocates it. -/
  heap : Context → MethodId → Obj → Context

namespace Selector

/-- Every context is empty. -/
def insensitive : Selector where
  name := Sensitivity.insensitive.text
  entry := .empty
  static _ _ _ := .empty
  onObject _ _ _ _ _ _ := .empty
  heap _ _ _ := .empty

/-- The last `k` call sites. -/
def callSite (k : Nat) : Selector where
  name := (Sensitivity.mk .callSite k).text
  entry := .empty
  static c site _ := c.append (.callSite site) k
  onObject c site _ _ _ _ := c.append (.callSite site) k
  heap _ _ _ := .empty

/-- The receiver behind the context it was allocated in; a static call inherits. -/
def object (k : Nat) : Selector where
  name := (Sensitivity.mk .object k).text
  entry := .empty
  static c _ _ := c
  onObject _ _ heap o _ _ := heap.append (.object o) k
  heap c _ _ := c.suffix (k - 1)

/-- As `object`, with each object replaced by the class that allocates it. -/
def type (k : Nat) : Selector where
  name := (Sensitivity.mk .type k).text
  entry := .empty
  static c _ _ := c
  onObject _ _ heap _ obj _ := heap.append (.type obj.container) k
  heap c _ _ := c.suffix (k - 1)

/-- As `object`, but a static call adds its call site. -/
def hybrid (k : Nat) : Selector where
  name := (Sensitivity.mk .hybrid k).text
  entry := .empty
  static c site _ := c.append (.callSite site) k
  onObject _ _ heap o _ _ := heap.append (.object o) k
  heap c _ _ := c.suffix (k - 1)

def ofSensitivity (s : Sensitivity) : Selector :=
  match s.kind with
  | .insensitive => insensitive
  | .callSite => callSite s.depth
  | .object => object s.depth
  | .type => type s.depth
  | .hybrid => hybrid s.depth

end Selector

end PointsTo
