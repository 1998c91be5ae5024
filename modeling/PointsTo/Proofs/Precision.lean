import PointsTo.Proofs.Success

/-!
# Precision

No state that an analysis comes to, finished or not, failed or not, holds a
fact that could not be derived.
-/

namespace PointsTo

/-- Each handle of a state stands for contents, and each of its facts is in the least set that is
closed under the rules. -/
structure State.Precise (w : World) (sel : Selector) (s : State) : Prop where
  points : ∀ i, ∀ j ∈ s.entities.pointsTo i, ∃ p o, s.entities.cellOf? i = some p ∧
    s.entities.objectOf? j = some o ∧ Derives w sel (.points p o)
  work : ∀ x ∈ s.work.toList, ∀ j ∈ x.2, ∃ p o, s.entities.cellOf? x.1 = some p ∧
    s.entities.objectOf? j = some o ∧ Derives w sel (.points p o)
  flows : ∀ i, ∀ j ∈ s.flow.successors i, ∃ p q, s.entities.cellOf? i = some p ∧
    s.entities.cellOf? j = some q ∧ Derives w sel (.flows p q)
  calls : ∀ i ∈ s.calls.edges.toList, ∃ e, s.entities.linkOf? i = some e ∧ Derives w sel (.calls e)
  reachable : ∀ i ∈ s.calls.reachable.toList, ∃ m, s.entities.frameOf? i = some m ∧
    Derives w sel (.reaches m)
  pending : ∀ i ∈ s.pending.toList, ∃ m, s.entities.frameOf? i = some m ∧ Derives w sel (.reaches m)

theorem State.Justified.precise {t : Task} {s : State} (h : s.Justified t) :
    s.Precise t.world t.selector :=
  ⟨h.points, fun x hx => (h.work x hx).1, h.flows, h.calls, h.reachable, h.pending⟩

/-- **Precision.** Whatever the selector and the order, however often an analysis is started and
stepped, and whether or not it has failed, it holds derivable facts only. -/
theorem reached_precise {p : Program} {heap : Heap} {w : World} {sel : Selector} {limit : Nat} {t : Task}
    {order : Order} {s : State} (hw : World.withHeap p heap = .ok w) (ht : Task.new w sel limit = .ok t)
    (hs : Reached t order s) : s.Precise w sel := by
  have hvalid := Task.valid_of_new ht (World.valid_of_withHeap hw)
  obtain ⟨rfl, rfl, _, _⟩ := Task.new_eq ht
  exact (hs.invariant hvalid).justified.precise

/-- The boxes after two steps, newest entry first, with calls told apart by their site. -/
theorem reached_precise_sample : ∃ t s, Task.new Sample.world (.callSite 1) 8 = .ok t ∧
    s = (t.step.apply (t.step.apply (.initial .lifo)).2).2 ∧ Reached t .lifo s ∧
    s.Precise Sample.world (.callSite 1) := by
  obtain ⟨t, ht⟩ := Sample.exists_task (.callSite 1) 8
  have hs : Reached t .lifo (t.step.apply (t.step.apply (.initial .lifo)).2).2 := .step (.step .initial)
  exact ⟨t, _, ht, rfl, hs, reached_precise Sample.world_eq ht hs⟩

end PointsTo
