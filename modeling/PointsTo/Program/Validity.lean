import PointsTo.Error

/-!
# Validity of programs

`Program.check` accepts a program whose references lead somewhere, whose statements keep to the
variables of their method, whose class hierarchy has no cycle, and that starts in a concrete static
method. The first fault in the order of the tables is reported.
-/

namespace PointsTo.Program
variable (p : Program)

def checkClassRef (owner : String) (c : ClassId) : Except Malformed Unit :=
  if c.idx < p.classes.size then .ok () else .error (.unknownClass owner c)

def checkListedMethod (c : ClassId) (cls : Class) (m : MethodId) : Except Malformed Unit :=
  match p.method? m with
  | none => .error (.unknownMethod cls.name m)
  | some method => if method.cls = c then .ok () else .error (.methodElsewhere cls.name m)

def checkListedField (cls : Class) (f : FieldId) : Except Malformed Unit :=
  if f.idx < p.fields.size then .ok () else .error (.unknownField cls.name f)

def checkClass (c : ClassId) (cls : Class) : Except Malformed Unit := do
  cls.supertypes.forM (p.checkClassRef ("class '" ++ cls.name ++ "'"))
  cls.methods.forM (p.checkListedMethod c cls)
  cls.fields.forM (p.checkListedField cls)

/-! ## Cycles -/

inductive Mark
  | unvisited
  | onPath
  | done
  deriving DecidableEq, Inhabited

abbrev Marks := Array Mark

/-- A class outside the table has no supertypes and needs no visit. -/
def Marks.of (marks : Marks) (c : ClassId) : Mark := marks[c.idx]?.getD .done

/-- What ends a search early. -/
inductive Halt
  /-- The step from `c` to its supertype `s` leads back onto the path. -/
  | cycle (c s : ClassId)
  | tooDeep
  deriving DecidableEq

/-- Visits `c` and what it extends, with at most `depth` classes on the path. -/
def visit : (depth : Nat) → ClassId → Marks → Except Halt Marks
  | 0, _, _ => .error .tooDeep
  | depth + 1, c, marks => do
    let enter (marks : Marks) (s : ClassId) : Except Halt Marks :=
      match marks.of s with
      | .onPath => .error (.cycle c s)
      | .unvisited => visit depth s marks
      | .done => .ok marks
    let marks ← (p.supertypes c).foldlM enter (marks.setIfInBounds c.idx .onPath)
    return marks.setIfInBounds c.idx .done

def noMarks : Marks := Array.replicate p.classes.size .unvisited

def findCycleWithin (depth : Nat) : Except Halt Marks :=
  p.classIds.foldlM
    (fun marks c => if marks.of c = .unvisited then p.visit depth c marks else .ok marks) p.noMarks

/-- Fails with a step of the class hierarchy that closes a cycle. A path holds each class once, so
it is never longer than the table. -/
def findCycle : Except Halt Marks := p.findCycleWithin p.classes.size

def checkAcyclic : Except Malformed Unit :=
  match p.findCycle with
  | .ok _ => .ok ()
  | .error (.cycle c s) =>
    .error (.cycle (((p.class? c).map Class.name).getD "") (((p.class? s).map Class.name).getD ""))
  | .error .tooDeep => .error .tooDeep

/-! ## Members -/

def checkField (f : Field) : Except Malformed Unit :=
  p.checkClassRef ("field '" ++ f.name ++ "'") f.cls

def checkVar (m : MethodId) (method : Method) (v : VarId) : Except Malformed Unit :=
  match p.var? v with
  | none => .error (.unknownVar method.name v)
  | some var => if var.method = m then .ok () else .error (.foreignVar method.name v)

/-- A dynamic call may lack a receiver. -/
def receiverFits (call : Call) : Bool :=
  match call.kind with
  | .static => call.receiver.isNone
  | .dynamic => true
  | .special | .virtual | .interface => call.receiver.isSome

def checkTarget (method : Method) (stmt : Stmt) : Except Malformed Unit :=
  let owner := "method " ++ method.name
  match stmt with
  | .alloc _ c => p.checkClassRef owner c
  | .loadField _ _ field | .storeField _ field _ => p.checkClassRef owner field.cls
  | .invoke call => do
    p.checkClassRef owner call.target.cls
    if receiverFits call then .ok ()
    else .error (.wrongReceiver method.name call.kind call.receiver.isSome)
  | .copy .. | .loadArray .. | .storeArray .. | .ret _ | .nop => .ok ()

def checkStmt (m : MethodId) (method : Method) (stmt : Stmt) : Except Malformed Unit := do
  stmt.defined.toList.forM (p.checkVar m method)
  stmt.used.forM (p.checkVar m method)
  p.checkTarget method stmt

def checkThis (method : Method) : Except Malformed Unit :=
  if method.isStatic = method.thisVar.isSome then .error (.wrongThis method.name) else .ok ()

def checkMethod (m : MethodId) (method : Method) : Except Malformed Unit := do
  p.checkClassRef ("method " ++ method.name) method.cls
  checkThis method
  method.thisVar.toList.forM (p.checkVar m method)
  method.params.forM (p.checkVar m method)
  method.body.toList.forM (p.checkStmt m method)

def checkEntry : Except Malformed MethodId :=
  match p.entry with
  | none => .error .noEntry
  | some m =>
    match p.method? m with
    | none => .error (.unknownEntry m)
    | some main =>
      if main.isStatic && !main.isAbstract then .ok m else .error (.entryNotRunnable main.name)

/-- The entry method of a valid program, or the first fault. -/
def check : Except Malformed MethodId := do
  p.classes.toList.zipIdx.forM fun (cls, i) => p.checkClass ⟨i⟩ cls
  p.checkAcyclic
  p.fields.toList.forM p.checkField
  p.methods.toList.zipIdx.forM fun (method, i) => p.checkMethod ⟨i⟩ method
  p.checkEntry

end PointsTo.Program
