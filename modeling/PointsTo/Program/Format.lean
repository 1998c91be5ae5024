import PointsTo.Error
import PointsTo.Json.Printer
import PointsTo.Json.Reader
import PointsTo.Json.Shape

/-!
# Programs as JSON

Each part of a program has a reader `ofJson?` and a writer `toJson`. A writer gives every field, in
the order in which the fields of an array are read.
-/

namespace PointsTo
open Json

namespace StmtId

def ofJson? (j : Json) : Option StmtId := do
  let [method, index] ← j.fields? ["method", "index"] | none
  return { method := ← required id? method, index := ← required index? index }

def toJson (s : StmtId) : Json := record [("method", Json.id s.method), ("index", .nat s.index)]

end StmtId

namespace FieldRef

def ofJson? (j : Json) : Option FieldRef := do
  let [cls, name] ← j.fields? ["class", "name"] | none
  return { cls := ← required id? cls, name := ← required text? name }

def toJson (f : FieldRef) : Json := record [("class", Json.id f.cls), ("name", text f.name)]

end FieldRef

namespace MethodRef

def ofJson? (j : Json) : Option MethodRef := do
  let [cls, subsignature] ← j.fields? ["class", "subsignature"] | none
  return { cls := ← required id? cls, subsignature := ← required text? subsignature }

def toJson (m : MethodRef) : Json :=
  record [("class", Json.id m.cls), ("subsignature", text m.subsignature)]

end MethodRef

namespace CallKind

def name : CallKind → String
  | .static => "static"
  | .special => "special"
  | .virtual => "virtual"
  | .interface => "interface"
  | .dynamic => "dynamic"

def ofName? : String → Option CallKind
  | "static" => some .static
  | "special" => some .special
  | "virtual" => some .virtual
  | "interface" => some .interface
  | "dynamic" => some .dynamic
  | _ => none

def ofJson? (inContent : Bool) (j : Json) : Option CallKind := do ofName? (← j.name? inContent)

def toJson (k : CallKind) : Json := text k.name

end CallKind

namespace Call

def ofJson? (inContent : Bool) (j : Json) : Option Call := do
  let [kind, target, receiver, args, result] ←
    j.fields? ["kind", "method_ref", "receiver", "args", "result"] | none
  return {
    kind := ← required (CallKind.ofJson? inContent) kind
    target := ← required MethodRef.ofJson? target
    receiver := ← defaulted none (optional? id?) receiver
    args := ← defaulted [] (list? id?) args
    result := ← defaulted none (optional? id?) result }

def members (c : Call) : List (String × Json) :=
  [("kind", c.kind.toJson), ("method_ref", c.target.toJson), ("receiver", optional Json.id c.receiver),
    ("args", list Json.id c.args), ("result", optional Json.id c.result)]

def toJson (c : Call) : Json := record c.members

end Call

namespace Stmt

def ofContent? : String → Json → Option Stmt
  | "new", j => do
    let [lhs, cls] ← j.fields? ["lhs", "class"] | none
    return .alloc (← required id? lhs) (← required id? cls)
  | "copy", j => do
    let [lhs, rhs] ← j.fields? ["lhs", "rhs"] | none
    return .copy (← required id? lhs) (← required id? rhs)
  | "load_field", j => do
    let [lhs, base, field] ← j.fields? ["lhs", "base", "field"] | none
    return .loadField (← required id? lhs) (← defaulted none (optional? id?) base)
      (← required FieldRef.ofJson? field)
  | "store_field", j => do
    let [base, field, rhs] ← j.fields? ["base", "field", "rhs"] | none
    return .storeField (← defaulted none (optional? id?) base) (← required FieldRef.ofJson? field)
      (← required id? rhs)
  | "load_array", j => do
    let [lhs, base] ← j.fields? ["lhs", "base"] | none
    return .loadArray (← required id? lhs) (← required id? base)
  | "store_array", j => do
    let [base, rhs] ← j.fields? ["base", "rhs"] | none
    return .storeArray (← required id? base) (← required id? rhs)
  | "invoke", j => return .invoke (← Call.ofJson? true j)
  | "return", j => do
    let [value] ← j.fields? ["value"] | none
    return .ret (← defaulted none (optional? id?) value)
  | "nop", j => do
    let [] ← j.fields? [] | none
    return .nop
  | _, _ => none

/-- Reads a statement that is nested `depth` levels deep. -/
def ofJson? (depth : Nat) (j : Json) : Option Stmt := do
  let (op, content) ← j.tagged? "op" depth
  ofContent? op content

def members : Stmt → List (String × Json)
  | .alloc lhs cls => [("op", text "new"), ("lhs", Json.id lhs), ("class", Json.id cls)]
  | .copy lhs rhs => [("op", text "copy"), ("lhs", Json.id lhs), ("rhs", Json.id rhs)]
  | .loadField lhs base field =>
    [("op", text "load_field"), ("lhs", Json.id lhs), ("base", optional Json.id base),
      ("field", field.toJson)]
  | .storeField base field rhs =>
    [("op", text "store_field"), ("base", optional Json.id base), ("field", field.toJson),
      ("rhs", Json.id rhs)]
  | .loadArray lhs base => [("op", text "load_array"), ("lhs", Json.id lhs), ("base", Json.id base)]
  | .storeArray base rhs => [("op", text "store_array"), ("base", Json.id base), ("rhs", Json.id rhs)]
  | .invoke call => ("op", text "invoke") :: call.members
  | .ret value => [("op", text "return"), ("value", optional Json.id value)]
  | .nop => [("op", text "nop")]

def toJson (s : Stmt) : Json := record s.members

end Stmt

namespace Class

def ofJson? (j : Json) : Option Class := do
  let [name, superclass, interfaces, isInterface, isAbstract, methods, fields] ←
    j.fields? ["name", "superclass", "interfaces", "is_interface", "is_abstract", "methods", "fields"]
    | none
  return {
    name := ← required text? name
    superclass := ← defaulted none (optional? id?) superclass
    interfaces := ← defaulted [] (list? id?) interfaces
    isInterface := ← defaulted false bool? isInterface
    isAbstract := ← defaulted false bool? isAbstract
    methods := ← defaulted [] (list? id?) methods
    fields := ← defaulted [] (list? id?) fields }

def toJson (c : Class) : Json :=
  record [("name", text c.name), ("superclass", optional Json.id c.superclass),
    ("interfaces", list Json.id c.interfaces), ("is_interface", .bool c.isInterface),
    ("is_abstract", .bool c.isAbstract), ("methods", list Json.id c.methods),
    ("fields", list Json.id c.fields)]

end Class

namespace Method

/-- Reads a method that is nested `depth` levels deep. -/
def ofJson? (depth : Nat) (j : Json) : Option Method := do
  let [name, cls, subsignature, isStatic, isAbstract, thisVar, params, body] ←
    j.fields? ["name", "declaring_class", "subsignature", "is_static", "is_abstract", "this", "params",
      "body"]
    | none
  return {
    name := ← required text? name
    cls := ← required id? cls
    subsignature := ← required text? subsignature
    isStatic := ← defaulted false bool? isStatic
    isAbstract := ← defaulted false bool? isAbstract
    thisVar := ← defaulted none (optional? id?) thisVar
    params := ← defaulted [] (list? id?) params
    body := (← defaulted [] (list? (Stmt.ofJson? (depth + 2))) body).toArray }

def toJson (m : Method) : Json :=
  record [("name", text m.name), ("declaring_class", Json.id m.cls),
    ("subsignature", text m.subsignature), ("is_static", .bool m.isStatic),
    ("is_abstract", .bool m.isAbstract), ("this", optional Json.id m.thisVar),
    ("params", list Json.id m.params), ("body", list Stmt.toJson m.body.toList)]

end Method

namespace Field

def ofJson? (j : Json) : Option Field := do
  let [name, cls, isStatic] ← j.fields? ["name", "declaring_class", "is_static"] | none
  return {
    name := ← required text? name
    cls := ← required id? cls
    isStatic := ← defaulted false bool? isStatic }

def toJson (f : Field) : Json :=
  record [("name", text f.name), ("declaring_class", Json.id f.cls), ("is_static", .bool f.isStatic)]

end Field

namespace Var

def ofJson? (j : Json) : Option Var := do
  let [name, method] ← j.fields? ["name", "method"] | none
  return { name := ← required text? name, method := ← required id? method }

def toJson (v : Var) : Json := record [("name", text v.name), ("method", Json.id v.method)]

end Var

namespace Program

/-- The entry may be left out of an object, but not of an array. -/
def entryGiven : Json → Bool
  | .arr items => items.length = 5
  | _ => true

def ofJson? (j : Json) : Option Program := do
  let [classes, methods, fields, vars, entry] ←
    j.fields? ["classes", "methods", "fields", "vars", "entry"] | none
  if !entryGiven j then none
  return {
    classes := (← required (list? Class.ofJson?) classes).toArray
    methods := (← required (list? (Method.ofJson? 3)) methods).toArray
    fields := (← defaulted [] (list? Field.ofJson?) fields).toArray
    vars := (← required (list? Var.ofJson?) vars).toArray
    entry := ← defaulted none (optional? id?) entry }

def toJson (p : Program) : Json :=
  record [("classes", list Class.toJson p.classes.toList), ("methods", list Method.toJson p.methods.toList),
    ("fields", list Field.toJson p.fields.toList), ("vars", list Var.toJson p.vars.toList),
    ("entry", optional Json.id p.entry)]

def write (p : Program) : String := p.toJson.compact

def read (text : String) : Except Error Program :=
  match (Json.read? text).bind ofJson? with
  | some p => .ok p
  | none => .error .unreadable

end Program

end PointsTo
