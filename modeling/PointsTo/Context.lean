import PointsTo.Id

/-!
# Contexts

A context is a short history under which a method or an object is analysed: call sites, abstract
objects, or the classes that allocated them. The oldest element comes first. Contexts are compared
by content.
-/

namespace PointsTo

inductive Element
  | callSite (site : StmtId)
  | object (obj : ObjId)
  | type (cls : ClassId)
  deriving DecidableEq, Hashable, Inhabited, Repr

namespace Element

def text : Element → String
  | .callSite s => s.text
  | .object o => o.text
  | .type c => c.text

/-- The sort of an element, then its numbers. -/
def key : Element → List Nat
  | .callSite s => [0, s.method.idx, s.index]
  | .object o => [1, o.idx]
  | .type c => [2, c.idx]

/-- Call sites come before objects and objects before classes. -/
protected def compare (a b : Element) : Ordering := List.compareLex compare a.key b.key

end Element

structure Context where
  elems : List Element
  deriving DecidableEq, Hashable, Inhabited, Repr

namespace Context

def empty : Context := ⟨[]⟩

def length (c : Context) : Nat := c.elems.length

def isEmpty (c : Context) : Bool := c.elems.isEmpty

/-- The most recent element. -/
def last? (c : Context) : Option Element := c.elems.getLast?

/-- The last `n` elements, or all of a shorter context. -/
def suffix (c : Context) (n : Nat) : Context := ⟨c.elems.drop (c.length - n)⟩

/-- Adds `e` and keeps the last `k` elements. -/
def append (c : Context) (e : Element) (k : Nat) : Context :=
  match k with
  | 0 => empty
  | k + 1 => ⟨(c.suffix k).elems ++ [e]⟩

/-- Element by element; a context comes before its extensions. -/
protected def compare (a b : Context) : Ordering := List.compareLex Element.compare a.elems b.elems

def text (c : Context) : String := "[" ++ ", ".intercalate (c.elems.map Element.text) ++ "]"

end Context

end PointsTo
