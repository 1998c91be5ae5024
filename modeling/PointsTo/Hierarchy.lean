import PointsTo.Error
import PointsTo.Walk

/-!
# The class hierarchy

An index of a program: which methods and fields a class declares, what it extends and what extends
it. Of two members of one class with the same key the later one counts.
-/

namespace PointsTo

structure Hierarchy where
  program : Program
  methodAt : Std.HashMap (ClassId × Subsignature) MethodId
  fieldAt : Std.HashMap (ClassId × String) FieldId
  /-- Classes by their superclass. -/
  subclasses : Std.HashMap ClassId (List ClassId)
  /-- Interfaces by the interfaces they extend. -/
  subinterfaces : Std.HashMap ClassId (List ClassId)
  /-- Classes by the interfaces they implement. -/
  implementors : Std.HashMap ClassId (List ClassId)

namespace Hierarchy

/-- Lists the second components of `pairs` under the first, in order. -/
def group (pairs : List (ClassId × ClassId)) : Std.HashMap ClassId (List ClassId) :=
  pairs.foldr (fun (k, v) groups => groups.insert k (v :: groups.getD k [])) ∅

/-- The classes with their interfaces, for each interface of each class. -/
def interfacePairs (p : Program) (isInterface : Bool) : List (ClassId × ClassId) :=
  p.classes.toList.zipIdx.flatMap fun (c, i) =>
    if c.isInterface = isInterface then c.interfaces.map fun s => (s, ⟨i⟩) else []

def ofProgram (p : Program) : Hierarchy where
  program := p
  methodAt :=
    p.methods.toList.zipIdx.foldl (fun index (m, i) => index.insert (m.cls, m.subsignature) ⟨i⟩) ∅
  fieldAt := p.fields.toList.zipIdx.foldl (fun index (f, i) => index.insert (f.cls, f.name) ⟨i⟩) ∅
  subclasses :=
    group (p.classes.toList.zipIdx.flatMap fun (c, i) => c.superclass.toList.map fun s => (s, ⟨i⟩))
  subinterfaces := group (interfacePairs p true)
  implementors := group (interfacePairs p false)

variable (h : Hierarchy)

def declaredMethod? (c : ClassId) (s : Subsignature) : Option MethodId := h.methodAt[(c, s)]?

def declaredField? (c : ClassId) (name : String) : Option FieldId := h.fieldAt[(c, name)]?

def superclass? (c : ClassId) : Option ClassId := (h.program.class? c).bind (·.superclass)

def className? (c : ClassId) : Option String := (h.program.class? c).map (·.name)

def isInterface? (c : ClassId) : Option Bool := (h.program.class? c).map (·.isInterface)

def isAbstract? (m : MethodId) : Option Bool := (h.program.method? m).map (·.isAbstract)

def directSubclasses (c : ClassId) : List ClassId := h.subclasses.getD c []

def directSubinterfaces (c : ClassId) : List ClassId := h.subinterfaces.getD c []

def directImplementors (c : ClassId) : List ClassId := h.implementors.getD c []

def directSubtypes (c : ClassId) : List ClassId :=
  h.directSubclasses c ++ h.directSubinterfaces c ++ h.directImplementors c

/-! ## Walks -/

def upward : Walk.Graph ClassId where
  next := h.program.supertypes
  finite := ⟨h.program.classIds, fun c hc => by
    refine Program.supertypes_of_unknown (Option.eq_none_iff_forall_ne_some.mpr fun cls hcls => ?_)
    exact hc (Program.mem_classIds.mpr ⟨cls, hcls⟩)⟩

def downward : Walk.Graph ClassId where
  next := h.directSubtypes
  finite := ⟨h.subclasses.keys ++ h.subinterfaces.keys ++ h.implementors.keys, fun c hc => by
    simp only [List.mem_append, Std.HashMap.mem_keys, not_or] at hc
    obtain ⟨⟨hsub, hext⟩, himp⟩ := hc
    simp [directSubtypes, directSubclasses, directSubinterfaces, directImplementors,
      Std.HashMap.getD_eq_fallback hsub, Std.HashMap.getD_eq_fallback hext,
      Std.HashMap.getD_eq_fallback himp]⟩

/-- `c` and its supertypes: each class before its superclass, that before its interfaces. -/
def supertypes (c : ClassId) : List ClassId := Walk.depthFirst h.upward c

/-- The first `n` of `c` and its superclasses, from below. -/
def superclassesUpTo : (n : Nat) → (c : ClassId) → List ClassId
  | 0, _ => []
  | n + 1, c => c :: ((h.superclass? c).map (superclassesUpTo n)).getD []

/-- `c` and its superclasses, from below. Without a cycle there are no more of them than classes. -/
def superclasses (c : ClassId) : List ClassId := h.superclassesUpTo (h.program.classes.size + 1) c

/-- `c` and its subtypes, nearest first. -/
def subtypes (c : ClassId) : List ClassId := Walk.breadthFirst h.downward c

/-- Whether `c` is `d` or extends it; the supertypes of an unknown class are not known. -/
def isSubtype? (c d : ClassId) : Option Bool :=
  if c = d then some true
  else if c.idx < h.program.classes.size then some (decide (d ∈ h.supertypes c)) else none

/-- The field that a reference means: declared in the class itself, else in a superclass, else in an
interface. -/
def resolveField (f : FieldRef) : Except Error FieldId :=
  match h.className? f.cls with
  | none => .error .unknownId
  | some name =>
    match (h.supertypes f.cls).findSome? fun c => h.declaredField? c f.name with
    | some field => .ok field
    | none => .error (.unresolvedField name f.name)

/-! ## Dispatch -/

/-- The method that `c` declares for a subsignature, unless it is abstract. -/
def concreteMethod? (c : ClassId) (s : Subsignature) : Option MethodId :=
  (h.declaredMethod? c s).filter fun m => h.isAbstract? m = some false

/-- The method that runs for a subsignature on an object of class `c`: a concrete one, declared as
low as possible. -/
def dispatch? (c : ClassId) (s : Subsignature) : Option MethodId :=
  (h.superclasses c).findSome? fun c => h.concreteMethod? c s

/-- The target of a call on an object of the given class; the class does not matter to static and
special calls. -/
def callee? (type : Option ClassId) (call : Call) : Except Error (Option MethodId) :=
  let target := call.target
  match call.kind with
  | .static => .ok (h.declaredMethod? target.cls target.subsignature)
  | .special => .ok (h.dispatch? target.cls target.subsignature)
  | .virtual | .interface | .dynamic =>
    match type with
    | some c => .ok (h.dispatch? c target.subsignature)
    | none => .error (.broken (.noReceiverType call.kind target.subsignature))

end Hierarchy

end PointsTo
