import PointsTo.Id
import PointsTo.Json.Double

/-!
# Shapes of JSON values

How numbers, lists, records and alternatives are spelled. A record is an object, or an array of its
fields in order. An alternative with content is an object that names its tag among its fields, or an
array that starts with the tag.

Members that no field asks for are skipped without a look at them. The content of a tagged value is
not: there strings must be texts, numbers must be doubles, and the nesting is limited.
-/

namespace PointsTo.Json

/-- Identifiers are 32-bit numbers. -/
def maxId : Nat := 4294967295

def id? {e : Entity} : Json → Option (Id e)
  | .num n => do
    let k ← n.toNat?
    if k ≤ maxId then some ⟨k⟩ else none
  | _ => none

def index? : Json → Option Nat
  | .num n => do
    let k ← n.toNat?
    if k ≤ maxId then some k else none
  | _ => none

def bool? : Json → Option Bool
  | .bool b => some b
  | _ => none

def text? : Json → Option String
  | .str s => s
  | _ => none

def list? {α : Type} (item : Json → Option α) : Json → Option (List α)
  | .arr items => items.mapM item
  | _ => none

/-- `null` stands for a missing value. -/
def optional? {α : Type} (item : Json → Option α) : Json → Option (Option α)
  | .null => some none
  | j => (item j).map some

/-! ## Records -/

def lookup (members : List (Option String × Json)) (name : String) : Option Json :=
  (members.find? fun m => m.1 = some name).map (·.2)

/-- All keys are texts, and none of `names` is given twice. -/
def keysFit (names : List String) (members : List (Option String × Json)) : Bool :=
  members.all (fun m => m.1.isSome)
    && names.all fun n => (members.filter fun m => m.1 = some n).length ≤ 1

/-- The fields called `names`, in that order; `none` for one that is not given. -/
def fields? (names : List String) : Json → Option (List (Option Json))
  | .obj members => if keysFit names members then some (names.map (lookup members)) else none
  | .arr items =>
    if items.length ≤ names.length then
      some (items.map some ++ List.replicate (names.length - items.length) none)
    else none
  | _ => none

def required {α : Type} (value : Json → Option α) (field : Option Json) : Option α :=
  field.bind value

def defaulted {α : Type} (d : α) (value : Json → Option α) : Option Json → Option α
  | none => some d
  | some j => value j

/-! ## Alternatives -/

/-- How deep arrays and objects may be nested in tagged content, counted from the root. -/
def maxNesting : Nat := 127

mutual
/-- Strings are texts, numbers are doubles, and at most `room` levels are nested. -/
def plain : (room : Nat) → Json → Bool
  | _, .null | _, .bool _ => true
  | _, .num n => n.fitsDouble
  | _, .str s => s.isSome
  | 0, .arr _ | 0, .obj _ => false
  | room + 1, .arr items => plainItems room items
  | room + 1, .obj members => plainMembers room members

def plainItems : (room : Nat) → List Json → Bool
  | _, [] => true
  | room, x :: xs => plain room x && plainItems room xs

def plainMembers : (room : Nat) → List (Option String × Json) → Bool
  | _, [] => true
  | room, (k, v) :: ms => k.isSome && plain room v && plainMembers room ms
end

/-- The tag of an alternative and its content without the tag; the alternative itself is nested
`depth` levels deep. -/
def tagged? (tag : String) (depth : Nat) : Json → Option (String × Json)
  | .obj members => do
    let (tags, content) := members.partition fun m => m.1 = some tag
    let [(_, t)] := tags | none
    if plainMembers (maxNesting - depth) content then some (← t.text?, .obj content) else none
  | .arr (t :: content) => do
    if plainItems (maxNesting - depth) content then some (← t.text?, .arr content) else none
  | _ => none

/-- The name of an alternative without content: the name itself, or an object that maps the name to
nothing. In tagged content an empty object is nothing, too. -/
def name? (inContent : Bool) : Json → Option String
  | .str s => s
  | .obj [(some s, .null)] => some s
  | .obj [(some s, .obj [])] => if inContent then some s else none
  | _ => none

/-! ## Writing -/

def id {e : Entity} (i : Id e) : Json := .nat i.idx

def list {α : Type} (item : α → Json) (xs : List α) : Json := .arr (xs.map item)

def optional {α : Type} (item : α → Json) : Option α → Json
  | none => .null
  | some x => item x

end PointsTo.Json
