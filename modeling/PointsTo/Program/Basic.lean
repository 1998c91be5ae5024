import PointsTo.Id

/-!
# Programs

A whole program of an object-oriented language: classes, methods, fields and local variables in
flat tables, and for each method the list of its statements. All references are identifiers, and
nothing here says that they lead anywhere: see `PointsTo.Program.Validity`.
-/

namespace PointsTo

/-- Name and parameter types of a method, without its class. -/
abbrev Subsignature := String

structure FieldRef where
  cls : ClassId
  name : String
  deriving DecidableEq, Inhabited, Repr

structure MethodRef where
  cls : ClassId
  subsignature : Subsignature
  deriving DecidableEq, Inhabited, Repr

inductive CallKind
  | static
  | special
  | virtual
  | interface
  | dynamic
  deriving DecidableEq, Inhabited, Repr

/-- The instruction that makes a call of this kind. -/
def CallKind.instruction : CallKind → String
  | .static => "invokestatic"
  | .special => "invokespecial"
  | .virtual => "invokevirtual"
  | .interface => "invokeinterface"
  | .dynamic => "invokedynamic"

structure Call where
  kind : CallKind
  target : MethodRef
  receiver : Option VarId
  args : List VarId
  result : Option VarId
  deriving DecidableEq, Inhabited, Repr

def Call.isStatic (c : Call) : Bool := c.kind = .static

/-- A field access without a base reads or writes a static field. -/
inductive Stmt
  | alloc (lhs : VarId) (cls : ClassId)
  | copy (lhs rhs : VarId)
  | loadField (lhs : VarId) (base : Option VarId) (field : FieldRef)
  | storeField (base : Option VarId) (field : FieldRef) (rhs : VarId)
  | loadArray (lhs base : VarId)
  | storeArray (base rhs : VarId)
  | invoke (call : Call)
  | ret (value : Option VarId)
  | nop
  deriving DecidableEq, Inhabited, Repr

namespace Stmt

/-- The variable that the statement assigns. -/
def defined : Stmt → Option VarId
  | .alloc lhs _ | .copy lhs _ | .loadField lhs _ _ | .loadArray lhs _ => some lhs
  | .invoke call => call.result
  | .storeField .. | .storeArray .. | .ret _ | .nop => none

/-- The variables that the statement reads, from left to right. -/
def used : Stmt → List VarId
  | .alloc .. | .nop => []
  | .copy _ rhs => [rhs]
  | .loadField _ base _ => base.toList
  | .storeField base _ rhs => base.toList ++ [rhs]
  | .loadArray _ base => [base]
  | .storeArray base rhs => [base, rhs]
  | .invoke call => call.receiver.toList ++ call.args
  | .ret value => value.toList

def call? : Stmt → Option Call
  | .invoke call => some call
  | _ => none

end Stmt

structure Class where
  name : String
  superclass : Option ClassId
  interfaces : List ClassId
  isInterface : Bool
  isAbstract : Bool
  methods : List MethodId
  fields : List FieldId
  deriving DecidableEq, Inhabited, Repr

/-- The supertypes that the class names, its superclass first. -/
def Class.supertypes (c : Class) : List ClassId := c.superclass.toList ++ c.interfaces

structure Method where
  name : String
  cls : ClassId
  subsignature : Subsignature
  isStatic : Bool
  isAbstract : Bool
  thisVar : Option VarId
  params : List VarId
  body : Array Stmt
  deriving DecidableEq, Inhabited, Repr

/-- The variables that `return` statements give back. -/
def Method.returnVars (m : Method) : List VarId :=
  m.body.toList.filterMap fun
    | .ret value => value
    | _ => none

structure Field where
  name : String
  cls : ClassId
  isStatic : Bool
  deriving DecidableEq, Inhabited, Repr

structure Var where
  name : String
  method : MethodId
  deriving DecidableEq, Inhabited, Repr

structure Program where
  classes : Array Class
  methods : Array Method
  fields : Array Field
  vars : Array Var
  entry : Option MethodId
  deriving DecidableEq, Inhabited, Repr

namespace Program
variable (p : Program)

def empty : Program := ⟨#[], #[], #[], #[], none⟩

def class? (c : ClassId) : Option Class := p.classes[c.idx]?

def method? (m : MethodId) : Option Method := p.methods[m.idx]?

def field? (f : FieldId) : Option Field := p.fields[f.idx]?

def var? (v : VarId) : Option Var := p.vars[v.idx]?

def classIds : List ClassId := (List.range p.classes.size).map Id.mk

def methodIds : List MethodId := (List.range p.methods.size).map Id.mk

def varIds : List VarId := (List.range p.vars.size).map Id.mk

def fieldIds : List FieldId := (List.range p.fields.size).map Id.mk

/-- The statements of a method, in order. -/
def body (m : MethodId) : List (StmtId × Stmt) :=
  match p.method? m with
  | none => []
  | some method => method.body.toList.zipIdx.map fun (s, i) => (⟨m, i⟩, s)

/-- All statements, by method and place. -/
def stmts : List (StmtId × Stmt) := p.methodIds.flatMap p.body

def stmt? (s : StmtId) : Option Stmt := (p.method? s.method).bind (·.body[s.index]?)

def supertypes (c : ClassId) : List ClassId := ((p.class? c).map Class.supertypes).getD []

/-- The first class of that name. -/
def classNamed? (name : String) : Option ClassId :=
  (p.classes.findIdx? (·.name = name)).map Id.mk

/-- The first variable of `m` with that name. -/
def varNamed? (m : MethodId) (name : String) : Option VarId :=
  (p.vars.findIdx? fun v => v.method = m ∧ v.name = name).map Id.mk

/-- Of the methods that the first class of that name lists, the first with the given name. -/
def methodNamed? (cls name : String) : Option MethodId := do
  let c ← p.classNamed? cls
  let c ← p.class? c
  c.methods.find? fun m => (p.method? m).any (·.name = name)

/-- The class and the subsignature of a method. -/
def signature? (m : MethodId) : Option String := do
  let method ← p.method? m
  let c ← p.class? method.cls
  return "<" ++ c.name ++ ": " ++ method.subsignature ++ ">"

/-- The method and the name of a variable. -/
def varText? (v : VarId) : Option String := do
  let var ← p.var? v
  let method ← p.method? var.method
  return method.name ++ "/" ++ var.name

variable {p}

theorem supertypes_of_unknown {c : ClassId} (hc : p.class? c = none) : p.supertypes c = [] := by
  simp [supertypes, hc]

theorem mem_ids {e : Entity} {α : Type} {a : Array α} {i : Id e} :
    i ∈ (List.range a.size).map Id.mk ↔ ∃ x, a[i.idx]? = some x := by
  rw [List.mem_map]
  constructor
  · intro h
    obtain ⟨n, hn, rfl⟩ := h
    exact ⟨_, Array.getElem?_eq_getElem (List.mem_range.mp hn)⟩
  · intro h
    obtain ⟨x, hx⟩ := h
    exact ⟨i.idx, List.mem_range.mpr (Array.getElem?_eq_some_iff.mp hx).1, rfl⟩

theorem mem_classIds {c : ClassId} : c ∈ p.classIds ↔ ∃ cls, p.class? c = some cls := mem_ids

theorem mem_methodIds {m : MethodId} : m ∈ p.methodIds ↔ ∃ method, p.method? m = some method := mem_ids

theorem body_of_unknown {m : MethodId} (hm : m ∉ p.methodIds) : p.body m = [] := by
  unfold body
  cases h : p.method? m with
  | none => rfl
  | some method => exact absurd (mem_methodIds.mpr ⟨method, h⟩) hm

end Program

end PointsTo
