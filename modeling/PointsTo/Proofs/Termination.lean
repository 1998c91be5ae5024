import PointsTo.Proofs.Success

/-!
# Termination

An analysis does not step forever: after finitely many steps the worklist is
empty or a step fails, and it never fails for want of time.
-/

namespace PointsTo
open Solve

theorem Fault.ne_unfinished {w : World} {X : Fact → Prop} {e : Error} (h : Fault w X e) :
    e ≠ .unfinished := by
  cases h <;> exact fun he => (by cases he)

section
variable {t : Task} {X : Nat} {s : State}

/-- A row of turns can go on until a turn does not ask for more. -/
theorem Turns.exists_stop {turn : Solve Bool} {bound : Nat}
    (hbound : ∀ n s', Turns turn n s s' → n ≤ bound) :
    ∃ n s₁, Turns turn n s s₁ ∧ (turn.apply s₁).1 ≠ .ok true := by
  by_contra hno
  -- otherwise every row could be made longer by one
  have hall : ∀ n, ∃ s₁, Turns turn n s s₁ := by
    intro n
    induction n with
    | zero => exact ⟨s, .none⟩
    | succ n ih =>
      obtain ⟨s₁, hn⟩ := ih
      rcases hr : turn.apply s₁ with ⟨r, s₂⟩
      by_cases hok : r = .ok true
      · subst hok
        exact ⟨s₂, hn.append (.more hr .none)⟩
      · exact absurd ⟨n, s₁, hn, by rw [hr]; exact hok⟩ hno
  obtain ⟨s₁, hn⟩ := hall (bound + 1)
  exact absurd (hbound _ _ hn) (by omega)

theorem turns_of_sequence {turn : Solve Bool} {f : Nat → State}
    (hf : ∀ n, turn.apply (f n) = (.ok true, f (n + 1))) : ∀ n, Turns turn n (f 0) (f n)
  | 0 => .none
  | n + 1 => (turns_of_sequence hf n).append (.more (hf n) .none)

theorem Task.Spans.no_sequence (ht : t.Spans X) (hs : s.Invariant t) :
    ¬ ∃ f : Nat → State, f 0 = s ∧ ∀ n, t.step.apply (f n) = (.ok true, f (n + 1)) := by
  rintro ⟨f, rfl, hf⟩
  have := (turns_of_sequence hf ((f 0).work.toList.length + ceiling X + 1)).length_le ht hs
  omega

/-- A step either asks for more, or finds the worklist empty, or fails at a fault. -/
theorem Task.Ample.step_cases (ht : t.Ample X) (hs : s.Invariant t) :
    (t.step.apply s).1 = .ok true ∨
    (t.step.apply s).1 = .ok false ∧ (t.step.apply s).2.work.toList = [] ∨
    ∃ e, (t.step.apply s).1 = .error e ∧ e ≠ .unfinished := by
  have hend := ends_step ht.valid hs
  rcases hr : t.step.apply s with ⟨e | more, s'⟩
  · obtain ⟨_, hfault | ⟨_, hover⟩⟩ := hend.of_error hr
    · exact Or.inr (Or.inr ⟨e, rfl, hfault.ne_unfinished⟩)
    · exact absurd hover ht.not_overruns
  · cases more with
    | true => exact Or.inl rfl
    | false =>
      obtain ⟨s₁, _, rfl, hw⟩ := hend.of_ok hr
      exact Or.inr (Or.inl ⟨rfl, hw⟩)

end

/-- **Termination.** From no state that an analysis comes to is there an infinite row of steps that
ask for more. From the start, some number of them leads to a step that finds the worklist empty or
fails, and neither a step nor the whole run ever fails at its limit. -/
theorem steps_terminate {p : Program} {heap : Heap} {w : World} {sens : Sensitivity} {t : Task}
    {order : Order} (hw : World.withHeap p heap = .ok w) (ht : Task.ofSensitivity w sens = .ok t) :
    (∀ s, Reached t order s →
      ¬ ∃ f : Nat → State, f 0 = s ∧ ∀ n, t.step.apply (f n) = (.ok true, f (n + 1))) ∧
    (∃ n s, Turns t.step n (.initial order) s ∧
      ((t.step.apply s).1 = .ok false ∧ (t.step.apply s).2.work.toList = [] ∨
        ∃ e, (t.step.apply s).1 = .error e ∧ e ≠ .unfinished)) ∧
    (∀ s, Reached t order s → (t.step.apply s).1 ≠ .error .unfinished) ∧
    t.solve order ≠ .error .unfinished := by
  have hample := Task.ample_of_sensitivity (World.valid_of_withHeap hw) ht
  refine ⟨fun s hs => ?_, ?_, fun s hs hr => ?_, fun he => ?_⟩
  · exact hample.no_sequence (hs.invariant hample.valid)
  · have hs := State.invariant_initial t order
    obtain ⟨n, s, hn, hstop⟩ := Turns.exists_stop fun n s' hn => by
      have := hn.length_le hample.toSpans hs
      exact Nat.le_trans (Nat.le_add_right _ _) this
    have hstep := hample.step_cases (invariant_of_stepTurns hample.valid hn hs)
    exact ⟨n, s, hn, hstep.resolve_left hstop⟩
  · rcases hample.step_cases (hs.invariant hample.valid) with h | h | ⟨e, h, hne⟩
    · rw [hr] at h; cases h
    · rw [hr] at h; cases h.1
    · rw [hr] at h
      exact hne (Except.error.inj h).symm
  · exact (hample.solve_error he).ne_unfinished rfl

/-- The boxes under the deepest contexts. -/
theorem steps_terminate_sample : ∃ t, Task.ofSensitivity Sample.world ⟨.hybrid, 8⟩ = .ok t ∧
    (¬ ∃ f : Nat → State, f 0 = .initial .fifo ∧
      ∀ n, t.step.apply (f n) = (.ok true, f (n + 1))) ∧
    t.solve .fifo ≠ .error .unfinished := by
  obtain ⟨t, ht, _⟩ := Sample.exists_solution ⟨.hybrid, 8⟩
  obtain ⟨hnone, _, _, hsolve⟩ := @steps_terminate _ _ _ _ _ .fifo Sample.world_eq ht
  exact ⟨t, ht, hnone _ .initial, hsolve⟩

end PointsTo
