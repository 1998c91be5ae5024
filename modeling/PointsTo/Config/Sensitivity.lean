import PointsTo.Error
import PointsTo.Text.Blank

/-!
# Context sensitivity

Which history tells the contexts of a method apart, and how much of it is kept. Written `ci` for
none at all, or as a depth and a kind: `2-obj`.
-/

namespace PointsTo

inductive SelectorKind
  | insensitive
  | callSite
  | object
  | type
  | hybrid
  deriving DecidableEq, Inhabited, Repr

namespace SelectorKind

def short : SelectorKind → String
  | .insensitive => "ci"
  | .callSite => "call"
  | .object => "obj"
  | .type => "type"
  | .hybrid => "hybrid"

def name : SelectorKind → String
  | .insensitive => "insensitive"
  | .callSite => "call_site"
  | .object => "object"
  | .type => "type"
  | .hybrid => "hybrid"

def ofName? : String → Option SelectorKind
  | "insensitive" => some .insensitive
  | "call_site" => some .callSite
  | "object" => some .object
  | "type" => some .type
  | "hybrid" => some .hybrid
  | _ => none

/-- The kind that is written behind a depth. -/
def ofShort? : String → Option SelectorKind
  | "obj" | "object" => some .object
  | "call" | "cfa" => some .callSite
  | "type" => some .type
  | "hybrid" => some .hybrid
  | _ => none

end SelectorKind

structure Sensitivity where
  kind : SelectorKind
  depth : Nat
  deriving DecidableEq, Inhabited, Repr

namespace Sensitivity

def maxDepth : Nat := 8

def insensitive : Sensitivity := ⟨.insensitive, 0⟩

def text (s : Sensitivity) : String :=
  match s.kind with
  | .insensitive => "ci"
  | kind => s.depth.repr ++ "-" ++ kind.short

/-- Only a sensitive analysis has a depth, from 1 to `maxDepth`. -/
def check (s : Sensitivity) : Except ConfigError Unit :=
  match s.kind with
  | .insensitive => if s.depth = 0 then .ok () else .error (.depthOutOfRange s.depth 0 0)
  | _ =>
    if 1 ≤ s.depth ∧ s.depth ≤ maxDepth then .ok () else .error (.depthOutOfRange s.depth 1 maxDepth)

/-- A depth: digits after at most one plus sign, and a value below `2 ^ 64`. -/
def depth? (cs : List Char) : Option Nat :=
  let ds := match cs with
    | '+' :: ds => ds
    | ds => ds
  if ds ≠ [] ∧ ds.all Char.isDigit then
    let n := ds.foldl (fun n d => 10 * n + (d.toNat - '0'.toNat)) 0
    if n < Nat.pow 2 64 then some n else none
  else none

/-- The depth and the kind in front of and behind the first hyphen. -/
def ofTrimmed (cs : List Char) : Except SensitivityFault Sensitivity :=
  if cs.head? = some '-' then .error .negativeDepth
  else
    match cs.span (· ≠ '-') with
    | (_, []) => .error .noSeparator
    | (depth, _ :: kind) =>
      match depth? depth with
      | none => .error .depthNotANumber
      | some depth =>
        let kind := String.ofList (Text.lower kind)
        match SelectorKind.ofShort? kind with
        | none => .error (.unknownKind kind)
        | some kind => .ok ⟨kind, depth⟩

/-- Reads a sensitivity; blanks around it and the case of its letters do not matter. -/
def parse (s : String) : Except ConfigError Sensitivity :=
  let cs := Text.trim s.toList
  if Text.lower cs = ['c', 'i'] then .ok insensitive
  else
    match ofTrimmed cs with
    | .error fault => .error (.invalidSensitivity s fault)
    | .ok sensitivity => do
      sensitivity.check
      return sensitivity

end Sensitivity

end PointsTo
