import PointsTo.Iterate
import PointsTo.Solver.Rules

/-!
# Runs

A step takes one entry from the worklist and does all that follows from it. A run takes steps until
the worklist is empty.
-/

namespace PointsTo.Task
open Solve

variable (t : Task)

/-- Takes the next pending method, and enters it if it was not reachable before. -/
def drainOne : Solve Bool := do
  match ← dequeue? with
  | none => return false
  | some m =>
    if ← onCalls (·.addReachable m) then t.enter m
    return true

/-- Takes turns to the end, or fails at the limit. -/
def toEnd (turn : Solve Bool) : Solve Unit := do
  if ← Iterate.exhaust t.limit turn then throw .unfinished

/-- Enters all pending methods. -/
def drain : Solve Unit := t.toEnd t.drainOne

/-- Enters the entry method, on the first call only. -/
def launch : Solve Unit := do
  if ← start then return
  let context ← internContext t.selector.entry
  let entry ← internMethod context t.world.entry
  onCalls fun g => ((), g.addEntry entry)
  enqueue entry
  t.drain

/-- Works off one entry; `false` once there is none. -/
def step : Solve Bool := do
  t.launch
  match ← pop? with
  | none => return false
  | some (p, set) =>
    let fresh ← propagate p set
    if !fresh.isEmpty then
      let pointer ← known ((← get).entities.pointer? p)
      match pointer with
      | .var context v => fresh.toList.forM (t.learn context v)
      | _ => pure ()
    t.drain
    return true

/-- Steps to the end. -/
def run : Solve Unit := do
  t.launch
  t.toEnd t.step

/-- Enough for any selector with contexts of length `depth` at most over the statements, objects and
classes of the world: there are fewer than `2 ^ (size * (depth + 1))` contexts, and the number of
steps is a polynomial of small degree in the number of contexts and the size. -/
def limitFor (w : World) (depth : Nat) : Nat :=
  let p := w.program
  let size := p.classes.size + p.methods.size + p.fields.size + p.vars.size + p.stmts.length
    + w.heap.objects.size + 1
  32 * size * (depth + 1)

/-- Fails if a field access of the program does not resolve. -/
def new (w : World) (selector : Selector) (limit : Nat) : Except Error Task := do
  let index ← AccessIndex.ofHierarchy w.hierarchy
  return ⟨w, selector, index, limit⟩

def ofSensitivity (w : World) (s : Sensitivity) : Except Error Task :=
  new w (.ofSensitivity s) (limitFor w s.depth)

/-- The state at the end of a run, whose worklist is empty. -/
def solve (order : Order) : Except Error State :=
  match t.run.apply (.initial order) with
  | (.ok _, s) => .ok s
  | (.error e, _) => .error e

end PointsTo.Task
