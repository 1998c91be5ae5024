import PointsTo.Command

/-!
# The program
-/

namespace PointsTo

def usage : String :=
  "usage: analyze --program FILE [--config FILE] [--preset NAME] [--cs SPEC] [--order ORDER] [--dot FILE]\n"
    ++ "       cha --program FILE [--dot FILE]"

/-- The files among `paths` that can be read, with their texts. -/
def readAll (paths : List String) : IO (List (String × String)) :=
  paths.filterMapM fun (path : String) => do
    try
      let text ← IO.FS.readFile path
      return some (path, text)
    catch _ => return none

end PointsTo

open PointsTo in
def main (args : List String) : IO UInt32 := do
  match Command.parse? args with
  | none =>
    IO.eprintln usage
    return 2
  | some command =>
    let files ← readAll command.inputs
    let begun ← IO.monoMsNow
    match command.run (files.lookup ·) with
    | .error e =>
      IO.eprintln ("Error: " ++ e.message)
      return 1
    | .ok printout =>
      let taken := (← IO.monoMsNow) - begun
      try
        match printout.dot with
        | some (path, text) => IO.FS.writeFile path text
        | none => pure ()
      catch e =>
        IO.eprintln ("Error: " ++ toString e)
        return 1
      IO.print (printout.text (.nat taken))
      return 0
