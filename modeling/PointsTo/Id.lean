/-!
# Identifiers

Every part of a program, and every entity of an analysis, is known by a number. What the number
counts is part of its type, so a method is never taken for a class.

Numbers are given by counting, and kept in 32 bits: after `2 ^ 32` things the count starts again at
zero. The numbers here have no bound. As long as they fit, that makes no difference.
-/

namespace PointsTo

def FitsWord (n : Nat) : Prop := n < UInt32.size

theorem FitsWord.toNat_toUInt32 {n : Nat} (h : FitsWord n) : n.toUInt32.toNat = n := Nat.mod_eq_of_lt h

/-- What an identifier counts. -/
inductive Entity
  | cls
  | method
  | field
  | var
  | obj
  | context
  | csObj
  | csCallSite
  | csMethod
  | pointer

/-- What stands before the number in the text form. -/
def Entity.tag : Entity → String
  | .cls => "c"
  | .method => "m"
  | .field => "f"
  | .var => "v"
  | .obj => "o"
  | .context => "ctx#"
  | .csObj => "obj#"
  | .csCallSite => "cs#"
  | .csMethod => "method#"
  | .pointer => "ptr#"

structure Id (e : Entity) where
  idx : Nat
  deriving DecidableEq, Hashable, Inhabited, Repr

namespace Id
variable {e : Entity}

instance : LT (Id e) := ⟨fun a b => a.idx < b.idx⟩

instance (a b : Id e) : Decidable (a < b) := inferInstanceAs (Decidable (a.idx < b.idx))

theorem lt_def {a b : Id e} : a < b ↔ a.idx < b.idx := Iff.rfl

@[simp] theorem eta (a : Id e) : (⟨a.idx⟩ : Id e) = a := rfl

theorem ext_idx {a b : Id e} (h : a.idx = b.idx) : a = b := by
  cases a; cases b; simp_all

def text (a : Id e) : String := e.tag ++ Nat.repr a.idx

end Id

abbrev ClassId := Id .cls
abbrev MethodId := Id .method
abbrev FieldId := Id .field
abbrev VarId := Id .var
abbrev ObjId := Id .obj
abbrev ContextId := Id .context
abbrev CSObjId := Id .csObj
abbrev CSCallSiteId := Id .csCallSite
abbrev CSMethodId := Id .csMethod
abbrev PointerId := Id .pointer

/-- A statement, by its place in the body of its method. -/
structure StmtId where
  method : MethodId
  index : Nat
  deriving DecidableEq, Hashable, Inhabited, Repr

def StmtId.text (s : StmtId) : String := s.method.text ++ "@" ++ Nat.repr s.index

end PointsTo
