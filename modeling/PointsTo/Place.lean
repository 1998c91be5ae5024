/-!
# Where a path leads

Paths are relative to one directory, which holds files and no directories. Of what lies outside, only
some devices are known. A path is a row of steps with slashes between them: an empty
step or a dot stays, two dots go up, and any other step is a name.
-/

namespace PointsTo

inductive Place
  /-- A file of the directory, by name. -/
  | file (name : String)
  /-- Always empty, whatever is written there. -/
  | nowhere
  /-- The standard output. -/
  | output
  /-- Takes any text, and cannot be read. -/
  | sink
  deriving DecidableEq, Repr

namespace Place

def stays (step : String) : Bool := step.isEmpty || step = "."

/-- Names are at most 255 bytes long. Nothing lies below a file, so the name is the last step. -/
def fromHere? (steps : List String) : Option Place :=
  match steps.dropWhile stays with
  | [name] => if name = ".." ∨ 255 < name.utf8ByteSize then none else some (.file name)
  | _ => none

/-- The standard input is empty. -/
def device? : String → Option Place
  | "null" | "stdin" => some .nowhere
  | "stdout" => some .output
  | "stderr" => some .sink
  | _ => none

/-- From the root, or from the directory of devices; nothing lies above the root. -/
def fromRoot? : (inDevices : Bool) → (steps : List String) → Option Place
  | _, [] => none
  | inDevices, step :: rest =>
    if stays step then fromRoot? inDevices rest
    else if step = ".." then fromRoot? false rest
    else if inDevices then if rest.isEmpty then device? step else none
    else if step = "dev" then fromRoot? true rest
    else none

/-- Where a path leads, if that is known. No path is longer than 4095 bytes. -/
def ofPath? (path : String) : Option Place :=
  if 4095 < path.utf8ByteSize then none
  else
    match path.splitOn "/" with
    | "" :: steps => fromRoot? false steps
    | steps => fromHere? steps

end Place

end PointsTo
