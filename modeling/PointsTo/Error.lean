import PointsTo.Program.Basic

/-!
# What can go wrong

Each failure is a value that names its cause. The wording is in the `message` functions.
-/

namespace PointsTo

/-- What a malformed program says of itself. -/
inductive Malformed
  | unknownClass (owner : String) (cls : ClassId)
  | unknownMethod (cls : String) (method : MethodId)
  | methodElsewhere (cls : String) (method : MethodId)
  | unknownField (cls : String) (field : FieldId)
  | cycle (cls supertype : String)
  | tooDeep
  | wrongThis (method : String)
  | foreignVar (method : String) (var : VarId)
  | unknownVar (method : String) (var : VarId)
  | wrongReceiver (method : String) (kind : CallKind) (given : Bool)
  | noEntry
  | unknownEntry (method : MethodId)
  | entryNotRunnable (method : String)
  | wrongAccess (cls field : String) (isStatic : Bool)
  | staticTarget (kind : CallKind) (site : StmtId) (callee : String)
  | arity (given : Nat) (callee : String) (taken : Nat)
  deriving DecidableEq, Repr

def Malformed.message : Malformed → String
  | .unknownClass owner c => owner ++ " refers to unknown class " ++ c.text
  | .unknownMethod c m => "class '" ++ c ++ "' lists unknown method " ++ m.text
  | .methodElsewhere c m => "class '" ++ c ++ "' lists method " ++ m.text ++ " declared elsewhere"
  | .unknownField c f => "class '" ++ c ++ "' lists unknown field " ++ f.text
  | .cycle c s => "class hierarchy cycle through '" ++ c ++ "' and '" ++ s ++ "'"
  | .tooDeep => "class hierarchy is too deep"
  | .wrongThis m => "method " ++ m ++ ": static methods have no 'this', instance methods need one"
  | .foreignVar m v => "method " ++ m ++ " uses variable " ++ v.text ++ " of another method"
  | .unknownVar m v => "method " ++ m ++ " uses unknown variable " ++ v.text
  | .wrongReceiver m kind given =>
    "method " ++ m ++ ": " ++ kind.instruction ++ (if given then " call with" else " call without")
      ++ " receiver"
  | .noEntry => "program has no entry method"
  | .unknownEntry m => "unknown entry method " ++ m.text
  | .entryNotRunnable m => "entry method '" ++ m ++ "' must be a concrete static method"
  | .wrongAccess c f isStatic =>
    "field '" ++ c ++ "." ++ f ++ (if isStatic then "' is static but accessed as an instance field"
      else "' is not static but accessed as a static field")
  | .staticTarget kind site callee =>
    kind.instruction ++ " at " ++ site.text ++ " targets static method " ++ callee
  | .arity given callee taken =>
    "call passes " ++ given.repr ++ " argument(s) but " ++ callee ++ " takes " ++ taken.repr

/-- What a run relies on and does not find. -/
inductive Broken
  | noReceiverType (kind : CallKind) (subsignature : Subsignature)
  | noObject (site : StmtId)
  | notACall (site : StmtId)
  | notIndexed (site : StmtId)
  deriving DecidableEq, Repr

def Broken.message : Broken → String
  | .noReceiverType kind s => kind.instruction ++ " of '" ++ s ++ "' dispatched without a receiver type"
  | .noObject site => "no abstract object for allocation " ++ site.text
  | .notACall site => "indexed call " ++ site.text ++ " is not a call"
  | .notIndexed site => "static field access " ++ site.text ++ " was not indexed"

/-- Why a text is no sensitivity. -/
inductive SensitivityFault
  | negativeDepth
  | noSeparator
  | depthNotANumber
  | unknownKind (kind : String)
  deriving DecidableEq, Repr

def SensitivityFault.message : SensitivityFault → String
  | .negativeDepth => "depth must not be negative"
  | .noSeparator => "missing '-' separator"
  | .depthNotANumber => "depth is not a number"
  | .unknownKind kind => "unknown selector kind '" ++ kind ++ "'"

inductive ConfigError
  | depthOutOfRange (depth low high : Nat)
  | invalidSensitivity (text : String) (fault : SensitivityFault)
  | unknownOrder (text : String)
  | unknownPreset (text : String)
  deriving DecidableEq, Repr

def ConfigError.message : ConfigError → String
  | .depthOutOfRange depth low high =>
    "Invalid range for field 'context_sensitivity.depth': " ++ depth.repr ++ " not in " ++ low.repr
      ++ "..=" ++ high.repr ++ ". "
      ++ (if high = 0 then "Context-insensitive analysis has no depth"
        else "Use 'ci' for context-insensitive analysis")
  | .invalidSensitivity text fault =>
    "Invalid context sensitivity '" ++ text ++ "': " ++ fault.message
      ++ ". Expected 'ci' or '<k>-obj|call|type|hybrid'"
  | .unknownOrder text => "Unknown worklist order '" ++ text ++ "'. Valid orders: fifo, lifo"
  | .unknownPreset text => "Unknown preset '" ++ text ++ "'. Valid presets: fast, balanced, precise"

inductive Error
  | config (cause : ConfigError)
  | unresolvedField (cls name : String)
  | malformed (cause : Malformed)
  | broken (cause : Broken)
  /-- An identifier that names nothing was followed. -/
  | unknownId
  /-- A run was given too few turns to come to its end. -/
  | unfinished
  /-- A text is not the JSON form of what was asked for. -/
  | unreadable
  /-- A text is not the YAML form of a configuration. -/
  | unreadableConfig
  deriving DecidableEq, Repr

def Error.message : Error → String
  | .config cause => "Configuration error: " ++ cause.message
  | .unresolvedField cls name =>
    "Unresolved field '" ++ name ++ "' referenced from class '" ++ cls ++ "'"
  | .malformed cause => "Malformed IR: " ++ cause.message
  | .broken cause => "Internal invariant violated: " ++ cause.message
  | .unknownId => "unknown identifier"
  | .unfinished => "the run did not end within its limit"
  | .unreadable => "not a program in JSON form"
  | .unreadableConfig => "not a configuration in YAML form"

end PointsTo
