import PointsTo.Config.Basic
import PointsTo.Json.Reader
import PointsTo.Json.Shape
import PointsTo.Yaml.Node

/-!
# Configurations as JSON and YAML

All fields have defaults, and fields of other names are skipped.
-/

namespace PointsTo
open Json

namespace SelectorKind

def ofJson? (j : Json) : Option SelectorKind := do ofName? (← j.name? false)

def toJson (k : SelectorKind) : Json := text k.name

end SelectorKind

namespace Sensitivity

def ofText? (s : String) : Option Sensitivity := (parse s).toOption

def ofJson? (j : Json) : Option Sensitivity := do ofText? (← j.text?)

def toJson (s : Sensitivity) : Json := Json.text s.text

end Sensitivity

namespace Order

def ofJson? (j : Json) : Option Order := do ofName? (← j.name? false)

def toJson (o : Order) : Json := text o.name

end Order

namespace Preset

def ofJson? (j : Json) : Option Preset := do ofName? (← j.name? false)

def toJson (p : Preset) : Json := text p.name

end Preset

namespace Config

def ofJson? (j : Json) : Option Config := do
  let [sensitivity, order, aliasIndex] ←
    j.fields? ["context_sensitivity", "worklist_order", "build_alias_index"] | none
  return {
    sensitivity := ← defaulted standard.sensitivity Sensitivity.ofJson? sensitivity
    order := ← defaulted standard.order Order.ofJson? order
    aliasIndex := ← defaulted standard.aliasIndex bool? aliasIndex }

def toJson (c : Config) : Json :=
  record [("context_sensitivity", c.sensitivity.toJson), ("worklist_order", c.order.toJson),
    ("build_alias_index", .bool c.aliasIndex)]

/-! ## YAML -/

def scalarText? : Yaml.Node → Option String
  | .scalar _ s => some s
  | _ => none

/-- Only a plain scalar is a truth value. -/
def truth? : Yaml.Node → Option Bool
  | .scalar true s =>
    if ["true", "True", "TRUE"].contains s then some true
    else if ["false", "False", "FALSE"].contains s then some false
    else none
  | _ => none

/-- The value of a key; the default if the key is missing. No key may come twice. -/
def entry? {α : Type} (entries : List (Yaml.Node × Yaml.Node)) (key : String) (default : α)
    (value : Yaml.Node → Option α) : Option α :=
  match entries.filter fun e => scalarText? e.1 = some key with
  | [] => some default
  | [(_, v)] => value v
  | _ => none

/-- A mapping whose keys are scalars, or nothing at all. -/
def ofNode? : Yaml.Node → Option Config
  | .mapping entries => do
    if entries.any fun e => (scalarText? e.1).isNone then none
    return {
      sensitivity := ← entry? entries "context_sensitivity" standard.sensitivity fun v => do
        Sensitivity.ofText? (← scalarText? v)
      order := ← entry? entries "worklist_order" standard.order fun v => do
        Order.ofName? (← scalarText? v)
      aliasIndex := ← entry? entries "build_alias_index" standard.aliasIndex truth? }
  | .scalar true "" => some standard
  | _ => none

def readYaml (text : String) : Except Error Config :=
  match (Yaml.Node.read? text).bind ofNode? with
  | some c => .ok c
  | none => .error .unreadableConfig

def yaml (c : Config) : String :=
  "context_sensitivity: " ++ c.sensitivity.text ++ "\nworklist_order: " ++ c.order.name
    ++ "\nbuild_alias_index: " ++ (if c.aliasIndex then "true" else "false") ++ "\n"

end Config

end PointsTo
