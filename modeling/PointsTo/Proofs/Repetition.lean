import Mathlib.Tactic.Ring
import PointsTo.Proofs.Actions
import PointsTo.Solver.Run

/-!
# Repeated turns

What a bounded repetition comes to: turns that asked for more, and then one
that failed or found nothing left to do, unless the limit was reached.
-/

namespace PointsTo
open Solve

inductive Turns (turn : Solve Bool) : Nat → State → State → Prop
  | none {s : State} : Turns turn 0 s s
  | more {n : Nat} {s s₁ s' : State} : turn.apply s = (.ok true, s₁) → Turns turn n s₁ s' →
      Turns turn (n + 1) s s'

namespace Turns
variable {turn : Solve Bool} {n k : Nat} {s s₁ s' : State}

theorem append (h : Turns turn n s s₁) (h' : Turns turn k s₁ s') : Turns turn (n + k) s s' := by
  induction h with
  | none => rwa [Nat.zero_add]
  | more ht _ ih =>
    rw [Nat.add_right_comm]
    exact .more ht (ih h')

/-- What every turn keeps, a row of turns keeps. -/
theorem keeps {P : State → Prop} (hP : ∀ s s', P s → turn.apply s = (.ok true, s') → P s')
    (h : Turns turn n s s') (hs : P s) : P s' := by
  induction h with
  | none => exact hs
  | more ht _ ih => exact ih (hP _ _ hs ht)

end Turns

/-- A row of turns and a last one that ends with `r`. -/
def Stops (turn : Solve Bool) (s : State) (r : Except Error Bool) (s' : State) : Prop :=
  ∃ n s₁, Turns turn n s s₁ ∧ turn.apply s₁ = (r, s')

theorem Stops.after {turn : Solve Bool} {n : Nat} {s s₁ s' : State} {r : Except Error Bool}
    (h : Turns turn n s s₁) (h' : Stops turn s₁ r s') : Stops turn s r s' := by
  obtain ⟨k, s₂, hk, hr⟩ := h'
  exact ⟨n + k, s₂, h.append hk, hr⟩

section
variable {turn : Solve Bool}

/-- The outcome of at most `n` turns, as a burst reports it. -/
def Rounds (turn : Solve Bool) (n : Nat) (a : Solve Bool) (s : State) : Prop :=
  Ends a s (fun more s' => if more then Turns turn n s s' else Stops turn s (.ok false) s')
    fun e s' => Stops turn s (.error e) s'

/-- Rounds go on where the rounds before them stopped. -/
theorem Rounds.followed {n k : Nat} {a b : Solve Bool} {s : State} (ha : Rounds turn n a s)
    (hb : ∀ s₁, Rounds turn k b s₁) :
    Rounds turn (n + k) (do if ← a then b else return false) s := by
  unfold Rounds
  rw [ends_bind]
  refine ha.mono (fun more s₁ hs₁ => ?_) fun _ _ h => h
  cases more with
  | false => exact hs₁
  | true =>
    refine (hb s₁).mono (fun more s' hs' => ?_) fun _ _ h => h.after hs₁
    cases more with
    | false => exact hs'.after hs₁
    | true => exact Turns.append hs₁ hs'

theorem rounds_burst : ∀ (j : Nat) (s : State), Rounds turn (2 ^ j) (Iterate.burst turn j) s
  | 0, s => by
    unfold Rounds Ends Iterate.burst
    rcases ht : turn.apply s with ⟨_ | more, s'⟩
    · exact ⟨0, s, .none, ht⟩
    · cases more with
      | false => exact ⟨0, s, .none, ht⟩
      | true => exact .more ht .none
  | j + 1, s => by
    rw [pow_succ, Nat.mul_two]
    exact (rounds_burst j s).followed (rounds_burst j)

theorem rounds_bursts : ∀ (limit j : Nat) (s : State),
    Rounds turn (2 ^ j * (2 ^ limit - 1)) (Iterate.bursts turn limit j) s
  | 0, j, s => Turns.none
  | limit + 1, j, s => by
    have hn : 2 ^ j * (2 ^ (limit + 1) - 1) = 2 ^ j + 2 ^ (j + 1) * (2 ^ limit - 1) := by
      have hp : 1 ≤ 2 ^ limit := Nat.one_le_two_pow
      obtain ⟨x, hx⟩ := Nat.exists_eq_add_of_le hp
      have : 2 ^ (limit + 1) - 1 = 1 + 2 * x := by rw [pow_succ, hx]; omega
      rw [this, hx, pow_succ, Nat.add_sub_cancel_left]
      ring
    rw [hn]
    exact (rounds_burst j s).followed (rounds_bursts limit (j + 1))

/-- Repetition to the end: only a turn fails it, or the limit. -/
theorem ends_toEnd (t : Task) (s : State) : Ends (t.toEnd turn) s
    (fun _ s' => Stops turn s (.ok false) s')
    fun e s' => Stops turn s (.error e) s' ∨ e = .unfinished ∧ Turns turn (2 ^ t.limit - 1) s s' := by
  have h : Rounds turn (2 ^ t.limit - 1) (Iterate.exhaust t.limit turn) s := by
    have hall : Rounds turn (2 ^ 0 * (2 ^ t.limit - 1)) (Iterate.exhaust t.limit turn) s :=
      rounds_bursts t.limit 0 s
    rwa [pow_zero, Nat.one_mul] at hall
  unfold Task.toEnd
  rw [ends_bind]
  refine h.mono (fun more s' hs' => ?_) fun _ _ he => Or.inl he
  cases more with
  | false => exact hs'
  | true => exact Or.inr ⟨rfl, hs'⟩

end

end PointsTo
