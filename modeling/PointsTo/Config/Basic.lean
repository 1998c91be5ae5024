import PointsTo.Config.Sensitivity

/-!
# Configurations

What a user chooses: the context sensitivity, the order in which pending work is done, and whether
the alias index is made at once. Three presets name common choices.
-/

namespace PointsTo

inductive Order
  /-- The oldest entry first. -/
  | fifo
  /-- The newest entry first. -/
  | lifo
  deriving DecidableEq, Inhabited, Repr

namespace Order

def name : Order → String
  | .fifo => "fifo"
  | .lifo => "lifo"

def ofName? : String → Option Order
  | "fifo" => some .fifo
  | "lifo" => some .lifo
  | _ => none

def parse (s : String) : Except ConfigError Order :=
  let t := String.ofList (Text.lower (Text.trim s.toList))
  match ofName? t with
  | some order => .ok order
  | none => .error (.unknownOrder t)

end Order

inductive Preset
  | fast
  | balanced
  | precise
  deriving DecidableEq, Inhabited, Repr

namespace Preset

def name : Preset → String
  | .fast => "fast"
  | .balanced => "balanced"
  | .precise => "precise"

def ofName? : String → Option Preset
  | "fast" => some .fast
  | "balanced" => some .balanced
  | "precise" => some .precise
  | _ => none

def parse (s : String) : Except ConfigError Preset :=
  let t := String.ofList (Text.lower (Text.trim s.toList))
  match ofName? t with
  | some preset => .ok preset
  | none => .error (.unknownPreset t)

end Preset

structure Config where
  sensitivity : Sensitivity
  order : Order
  aliasIndex : Bool
  deriving DecidableEq, Inhabited, Repr

namespace Config

def ofPreset : Preset → Config
  | .fast => ⟨.insensitive, .fifo, false⟩
  | .balanced => ⟨⟨.object, 1⟩, .fifo, false⟩
  | .precise => ⟨⟨.object, 2⟩, .fifo, false⟩

def standard : Config := ofPreset .fast

def check (c : Config) : Except ConfigError Unit := c.sensitivity.check

end Config

end PointsTo
