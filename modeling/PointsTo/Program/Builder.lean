import PointsTo.Program.Validity

/-!
# Building programs

A program grown part by part. Each operation gives back the program and the identifier of what it
added; one that names a class or method that is not there gives nothing. References inside
statements are not looked at before `Program.check`.
-/

namespace PointsTo

namespace Stmt

def staticCall (target : MethodRef) (args : List VarId) (result : Option VarId) : Stmt :=
  .invoke ⟨.static, target, none, args, result⟩

/-- A call on a receiver. -/
def instanceCall (kind : CallKind) (receiver : VarId) (target : MethodRef) (args : List VarId)
    (result : Option VarId) : Stmt :=
  .invoke ⟨kind, target, some receiver, args, result⟩

/-- A call bound at run time; alone of the calls that are not static it may lack a receiver. -/
def dynamicCall (receiver : Option VarId) (target : MethodRef) (args : List VarId)
    (result : Option VarId) : Stmt :=
  .invoke ⟨.dynamic, target, receiver, args, result⟩

end Stmt

namespace Program
variable (p : Program)

/-! ## Classes and members -/

def pushClass (c : Class) : ClassId × Program :=
  (⟨p.classes.size⟩, { p with classes := p.classes.push c })

def addClass (name : String) (superclass : Option ClassId) : ClassId × Program :=
  p.pushClass ⟨name, superclass, [], false, false, [], []⟩

def addAbstractClass (name : String) (superclass : Option ClassId) : ClassId × Program :=
  p.pushClass ⟨name, superclass, [], false, true, [], []⟩

def addInterface (name : String) (extended : List ClassId) : ClassId × Program :=
  p.pushClass ⟨name, none, extended, true, true, [], []⟩

def modifyClass? (c : ClassId) (f : Class → Class) : Option Program :=
  if c.idx < p.classes.size then some { p with classes := p.classes.modify c.idx f } else none

def modifyMethod? (m : MethodId) (f : Method → Method) : Option Program :=
  if m.idx < p.methods.size then some { p with methods := p.methods.modify m.idx f } else none

def implement (c iface : ClassId) : Option Program :=
  p.modifyClass? c fun cls => { cls with interfaces := cls.interfaces ++ [iface] }

def addField (c : ClassId) (name : String) (isStatic : Bool) : Option (FieldId × Program) := do
  let f : FieldId := ⟨p.fields.size⟩
  let p := { p with fields := p.fields.push ⟨name, c, isStatic⟩ }
  let p ← p.modifyClass? c fun cls => { cls with fields := cls.fields ++ [f] }
  return (f, p)

def addVar (m : MethodId) (name : String) : VarId × Program :=
  (⟨p.vars.size⟩, { p with vars := p.vars.push ⟨name, m⟩ })

inductive MethodKind
  | static
  | concrete
  | abstract

/-- A method that is not static gets its `this`; the parameters come after it. -/
def addMethod (kind : MethodKind) (c : ClassId) (name : String) (subsignature : Subsignature)
    (params : List String) : Option (MethodId × Program) := do
  let m : MethodId := ⟨p.methods.size⟩
  let (isStatic, isAbstract) := match kind with
    | .static => (true, false)
    | .concrete => (false, false)
    | .abstract => (false, true)
  let names := if isStatic then params else "this" :: params
  let vars : List VarId := (List.range' p.vars.size names.length).map Id.mk
  let method : Method := {
    name, cls := c, subsignature, isStatic, isAbstract
    thisVar := if isStatic then none else vars.head?
    params := if isStatic then vars else vars.tail
    body := #[] }
  let p := { p with
    methods := p.methods.push method
    vars := p.vars ++ (names.map fun n => Var.mk n m).toArray }
  let p ← p.modifyClass? c fun cls => { cls with methods := cls.methods ++ [m] }
  return (m, p)

def thisOf? (m : MethodId) : Option (Option VarId) := (p.method? m).map (·.thisVar)

def paramOf? (m : MethodId) (i : Nat) : Option (Option VarId) := (p.method? m).map (·.params[i]?)

def setEntry (m : MethodId) : Program := { p with entry := some m }

/-! ## Statements -/

def addStmt (m : MethodId) (s : Stmt) : Option (StmtId × Program) := do
  let method ← p.method? m
  let p ← p.modifyMethod? m fun method => { method with body := method.body.push s }
  return (⟨m, method.body.size⟩, p)

/-- The program, if it is valid. -/
def build : Except Malformed Program := p.check.map fun _ => p

end Program

end PointsTo
