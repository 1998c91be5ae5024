import PointsTo.CallGraph.Basic
import PointsTo.Entities.Basic
import PointsTo.Heap
import PointsTo.Program.Format

/-!
# Contexts, entities and call edges as JSON
-/

namespace PointsTo
open Json

namespace Element

def ofContent? : String → Json → Option Element
  | "call_site", j => (StmtId.ofJson? j).map .callSite
  | "object", j => (id? j).map .object
  | "type", j => (id? j).map .type
  | _, _ => none

/-- The tag and the content may come in either order, but content that comes first is tagged content.
In an array the tag is a text. The element is nested `depth` levels deep. -/
def ofJson? (depth : Nat) : Json → Option Element
  | .obj members => do
    let [some kind, some content] ← (Json.obj members).fields? ["kind", "id"] | none
    let first := members.find? fun m => m.1 = some "kind" ∨ m.1 = some "id"
    let contentFirst := first.any fun m => m.1 = some "id"
    if contentFirst && !content.plain (maxNesting - depth) then none
    ofContent? (← kind.name? false) content
  | .arr [kind, content] => do ofContent? (← kind.text?) content
  | _ => none

def toJson : Element → Json
  | .callSite s => record [("kind", Json.text "call_site"), ("id", s.toJson)]
  | .object o => record [("kind", Json.text "object"), ("id", Json.id o)]
  | .type c => record [("kind", Json.text "type"), ("id", Json.id c)]

end Element

namespace Context

/-- Reads a context that is nested `depth` levels deep. -/
def ofJson? (depth : Nat) (j : Json) : Option Context :=
  (list? (Element.ofJson? (depth + 1)) j).map Context.mk

def toJson (c : Context) : Json := list Element.toJson c.elems

end Context

namespace ObjSet

def ofJson? (j : Json) : Option ObjSet := (list? id? j).map ofList

def toJson (s : ObjSet) : Json := list Json.id s.toList

end ObjSet

namespace Obj

def ofJson? (j : Json) : Option Obj := do
  let [site, cls, container] ← j.fields? ["site", "class", "container"] | none
  return {
    site := ← required StmtId.ofJson? site
    cls := ← required id? cls
    container := ← required id? container }

def toJson (o : Obj) : Json :=
  record [("site", o.site.toJson), ("class", Json.id o.cls), ("container", Json.id o.container)]

end Obj

namespace CSObj

def ofJson? (j : Json) : Option CSObj := do
  let [heap, obj] ← j.fields? ["heap_context", "obj"] | none
  return { heap := ← required id? heap, obj := ← required id? obj }

def toJson (o : CSObj) : Json := record [("heap_context", Json.id o.heap), ("obj", Json.id o.obj)]

end CSObj

namespace CSCallSite

def ofJson? (j : Json) : Option CSCallSite := do
  let [context, site] ← j.fields? ["context", "site"] | none
  return { context := ← required id? context, site := ← required StmtId.ofJson? site }

def toJson (s : CSCallSite) : Json := record [("context", Json.id s.context), ("site", s.site.toJson)]

end CSCallSite

namespace CSMethod

def ofJson? (j : Json) : Option CSMethod := do
  let [context, method] ← j.fields? ["context", "method"] | none
  return { context := ← required id? context, method := ← required id? method }

def toJson (m : CSMethod) : Json := record [("context", Json.id m.context), ("method", Json.id m.method)]

end CSMethod

namespace Pointer

def ofContent? : String → Json → Option Pointer
  | "var", j => do
    let [context, v] ← j.fields? ["context", "var"] | none
    return .var (← required id? context) (← required id? v)
  | "static_field", j => do
    let [field] ← j.fields? ["field"] | none
    return .staticField (← required id? field)
  | "instance_field", j => do
    let [base, field] ← j.fields? ["base", "field"] | none
    return .instanceField (← required id? base) (← required id? field)
  | "array_index", j => do
    let [base] ← j.fields? ["base"] | none
    return .arrayIndex (← required id? base)
  | _, _ => none

/-- Reads a pointer that is nested `depth` levels deep. -/
def ofJson? (depth : Nat) (j : Json) : Option Pointer := do
  let (kind, content) ← j.tagged? "kind" depth
  ofContent? kind content

def members : Pointer → List (String × Json)
  | .var context v => [("kind", text "var"), ("context", Json.id context), ("var", Json.id v)]
  | .staticField field => [("kind", text "static_field"), ("field", Json.id field)]
  | .instanceField base field =>
    [("kind", text "instance_field"), ("base", Json.id base), ("field", Json.id field)]
  | .arrayIndex base => [("kind", text "array_index"), ("base", Json.id base)]

def toJson (p : Pointer) : Json := record p.members

end Pointer

namespace EdgeKind

def ofName? : String → Option EdgeKind
  | "STATIC" => some .static
  | "SPECIAL" => some .special
  | "VIRTUAL" => some .virtual
  | "INTERFACE" => some .interface
  | "DYNAMIC" => some .dynamic
  | "OTHER" => some .other
  | _ => none

def ofJson? (j : Json) : Option EdgeKind := do ofName? (← j.name? false)

def toJson (k : EdgeKind) : Json := Json.text k.text

end EdgeKind

namespace Edge

def ofJson? {σ μ : Type} (site? : Json → Option σ) (method? : Json → Option μ) (j : Json) :
    Option (Edge σ μ) := do
  let [kind, caller, site, callee] ← j.fields? ["kind", "caller", "call_site", "callee"] | none
  return {
    kind := ← required EdgeKind.ofJson? kind
    caller := ← required method? caller
    site := ← required site? site
    callee := ← required method? callee }

def toJson {σ μ : Type} (site : σ → Json) (method : μ → Json) (e : Edge σ μ) : Json :=
  record [("kind", e.kind.toJson), ("caller", method e.caller), ("call_site", site e.site),
    ("callee", method e.callee)]

end Edge

end PointsTo
