/-!
# Bounded repetition

Repeats an action until it says that nothing is left to do. `limit` bounds the number of turns by
`2 ^ limit - 1`, so a bound that is far too large to count to is a small number here: the turns come
in bursts that double in length.
-/

namespace PointsTo.Iterate
variable {m : Type → Type} [Monad m]

/-- At most `2 ^ j` turns; says whether there is more to do. -/
@[specialize] def burst (turn : m Bool) : (j : Nat) → m Bool
  | 0 => turn
  | j + 1 => do
    if ← burst turn j then burst turn j else return false

/-- Bursts of `2 ^ j`, `2 ^ (j + 1)`, … turns, `limit` of them at most. -/
@[specialize] def bursts (turn : m Bool) : (limit j : Nat) → m Bool
  | 0, _ => return true
  | limit + 1, j => do
    if ← burst turn j then bursts turn limit (j + 1) else return false

/-- Takes turns as long as they give `true`; gives `true` itself only at the limit. -/
@[inline] def exhaust (limit : Nat) (turn : m Bool) : m Bool := bursts turn limit 0

end PointsTo.Iterate
