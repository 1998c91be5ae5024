import PointsTo.CallGraph.ByHierarchy
import PointsTo.Config.Format
import PointsTo.Place
import PointsTo.Report

/-!
# The command line

`analyze` prints the report of a run, `cha` a summary of the call graph from the class hierarchy.
Both can write the call graph as a DOT file. What a command does is a function of its arguments and
of the files that it reads.
-/

namespace PointsTo

inductive Command
  | analyze (program : String) (config : Option String) (preset : Option Preset)
    (sensitivity : Option Sensitivity) (order : Option Order) (dot : Option String)
  | cha (program : String) (dot : Option String)

namespace Command

/-! ## Arguments -/

inductive Opt
  | program
  | config
  | preset
  | sensitivity
  | order
  | dot
  deriving DecidableEq, Repr

def Opt.ofLong? : String → Option Opt
  | "program" => some .program
  | "config" => some .config
  | "preset" => some .preset
  | "cs" => some .sensitivity
  | "order" => some .order
  | "dot" => some .dot
  | _ => none

def Opt.ofShort? : Char → Option Opt
  | 'p' => some .program
  | 'c' => some .config
  | _ => none

/-- A lone hyphen is a value. -/
def looksLikeOption : List Char → Bool
  | '-' :: _ :: _ => true
  | _ => false

/-- Options with their values: `--name value`, `--name=value`, `-n value`, `-nvalue` or `-n=value`. -/
def options? : List (List Char) → Option (List (Opt × String))
  | [] => some []
  | [['-', '-']] => some []
  | ('-' :: '-' :: arg) :: args => do
    match arg.span (· ≠ '=') with
    | (name, _ :: value) =>
      let opt ← Opt.ofLong? (String.ofList name)
      return (opt, String.ofList value) :: (← options? args)
    | (name, []) =>
      let opt ← Opt.ofLong? (String.ofList name)
      match args with
      | value :: args =>
        if looksLikeOption value then none else return (opt, String.ofList value) :: (← options? args)
      | [] => none
  | ('-' :: short :: arg) :: args => do
    let opt ← Opt.ofShort? short
    match arg with
    | '=' :: value | value@(_ :: _) => return (opt, String.ofList value) :: (← options? args)
    | [] =>
      match args with
      | value :: args =>
        if looksLikeOption value then none else return (opt, String.ofList value) :: (← options? args)
      | [] => none
  | _ => none

/-- The value of an option that comes once at most. -/
def value? {α : Type} (opts : List (Opt × String)) (opt : Opt) (parse : String → Option α) :
    Option (Option α) :=
  match opts.filter fun o => o.1 = opt with
  | [] => some none
  | [(_, v)] => (parse v).map some
  | _ => none

/-- The name of a file is not empty. -/
def path? (s : String) : Option String := if s.isEmpty then none else some s

/-- The command that the arguments spell; none if they are not used as they should be. -/
def parse? (args : List String) : Option Command := do
  match args with
  | "analyze" :: args =>
    let opts ← options? (args.map String.toList)
    return .analyze (← (← value? opts .program path?)) (← value? opts .config path?)
      (← value? opts .preset fun s => (Preset.parse s).toOption)
      (← value? opts .sensitivity Sensitivity.ofText?)
      (← value? opts .order fun s => (Order.parse s).toOption) (← value? opts .dot path?)
  | "cha" :: args =>
    let opts ← options? (args.map String.toList)
    if opts.any fun o => o.1 ≠ .program ∧ o.1 ≠ .dot then none
    return .cha (← (← value? opts .program path?)) (← value? opts .dot path?)
  | _ => none

/-- The files that a command reads. -/
def inputs : Command → List String
  | .analyze program config .. => program :: config.toList
  | .cha program _ => [program]

end Command

/-! ## Files -/

/-- The files of one directory by name. -/
abbrev Directory := List (String × String)

namespace Directory

def read? (d : Directory) (path : String) : Option String :=
  match Place.ofPath? path with
  | some (.file name) => d.lookup name
  | some .nowhere => some ""
  | _ => none

/-- What writing prints on standard output, and the files after it. Fails if it is not known where the
path leads. -/
def write? (d : Directory) (path text : String) : Option (String × Directory) :=
  (Place.ofPath? path).map fun
    | .file name => ("", (name, text) :: d.filter fun f => f.1 ≠ name)
    | .nowhere | .sink => ("", d)
    | .output => (text, d)

end Directory

/-! ## Execution -/

inductive CommandError
  | noFile (path : String)
  | failed (cause : Error)

def CommandError.message : CommandError → String
  | .noFile path => "cannot read " ++ path
  | .failed cause => cause.message

/-- What a command leaves behind: a file, if one was asked for, and then the text it prints, which
gives the time that the command took. -/
structure Printout where
  dot : Option (String × String)
  text : (duration : Json) → String

namespace Command

def load (read? : String → Option String) (path : String) : Except CommandError String :=
  match read? path with
  | some text => .ok text
  | none => .error (.noFile path)

def orFail {α : Type} : Except Error α → Except CommandError α
  | .ok a => .ok a
  | .error e => .error (.failed e)

/-- A configuration file counts more than a preset, and single options more than both. -/
def configuration (read? : String → Option String) (config : Option String) (preset : Option Preset)
    (sensitivity : Option Sensitivity) (order : Option Order) : Except CommandError Config := do
  let c ← match config with
    | some path => do orFail (Config.readYaml (← load read? path))
    | none => .ok (Config.ofPreset (preset.getD .fast))
  let c := { c with
    sensitivity := sensitivity.getD c.sensitivity
    order := order.getD c.order }
  orFail c.validate

/-- Runs a command; `read?` gives the texts of files by their paths. -/
def run (read? : String → Option String) : Command → Except CommandError Printout
  | .analyze program config preset sensitivity order dot => do
    let c ← configuration read? config preset sensitivity order
    let w ← orFail (World.read (← load read? program))
    let outcome ← orFail (PointsTo.analyze w c)
    match outcome.report? w with
    | none => .error (.failed .unknownId)
    | some report =>
      return {
        dot := dot.map fun path => (path, outcome.callGraph.dot w.methodLabel)
        text := fun duration => (report.toJson [("duration_ms", duration)]).pretty ++ "\n" }
  | .cha program dot => do
    let w ← orFail (World.read (← load read? program))
    let g := w.hierarchyGraph
    let summary : Json := .record
      [("reachable_methods", .arr (g.reachable.toList.map fun m => .text (w.methodLabel m))),
        ("call_edges", .nat g.edges.size)]
    return {
      dot := dot.map fun path => (path, g.dot w.methodLabel)
      text := fun _ => summary.pretty ++ "\n" }

/-- What is left after a command: the exit code, the text on standard output, and the files. -/
structure Result where
  exit : Nat
  stdout : String
  files : Directory

/-- Runs the command that the arguments spell. Misused arguments exit with 2 before any file is read;
any other failure exits with 1 and prints nothing. -/
def execute (d : Directory) (duration : Json) (args : List String) : Result :=
  match parse? args with
  | none => ⟨2, "", d⟩
  | some command =>
    match command.run d.read? with
    | .error _ => ⟨1, "", d⟩
    | .ok ⟨none, text⟩ => ⟨0, text duration, d⟩
    | .ok ⟨some (path, dot), text⟩ =>
      match d.write? path dot with
      | none => ⟨1, "", d⟩
      | some (printed, d) => ⟨0, printed ++ text duration, d⟩

end Command

end PointsTo
