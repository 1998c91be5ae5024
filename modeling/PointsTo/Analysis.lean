import PointsTo.Outcome

/-!
# The analysis

Runs a task to its end under a configuration.
-/

namespace PointsTo

/-- A run with the given selector; `limit` bounds its loops. -/
def analyzeWith (w : World) (c : Config) (selector : Selector) (limit : Nat) : Except Error Outcome := do
  let task ← Task.new w selector limit
  let state ← task.solve c.order
  let outcome := Outcome.ofState selector.name state
  return if c.aliasIndex then outcome.withAliasIndex else outcome

/-- A configuration that can be run. -/
def Config.validate (c : Config) : Except Error Config :=
  match c.check with
  | .ok _ => .ok c
  | .error e => .error (.config e)

/-- A run with the configured sensitivity; fails at once if the configuration is not valid. -/
def analyze (w : World) (c : Config) : Except Error Outcome := do
  let c ← c.validate
  analyzeWith w c (.ofSensitivity c.sensitivity) (Task.limitFor w c.sensitivity.depth)

end PointsTo
