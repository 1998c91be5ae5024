import PointsTo.Proofs.Success

/-!
# Between steps

Starts and steps, failed ones included, leave two accounts in order. An object
that an edge has not passed on is on its way: an entry of the worklist has it.
And each entry that told its pointer something new has made one set larger, so
there are at most as many such entries as the sets have members.
-/

namespace PointsTo

/-! ## What is on its way -/

structure Entities.Entry (e : Entities) (p : PointerId) (set : ObjSet) : Prop where
  pointer : ∃ x, e.pointer? p = some x
  nonempty : set.toList ≠ []
  ascending : set.toList.Pairwise (· < ·)
  objects : ∀ o ∈ set.toList, ∃ x, e.obj? o = some x

theorem State.Justified.entry {t : Task} {s : State} (h : s.Justified t) {x : PointerId × ObjSet}
    (hx : x ∈ s.work.toList) : s.entities.Entry x.1 x.2 := by
  obtain ⟨hsup, j, hj⟩ := h.work x hx
  obtain ⟨p, _, hp, _, _⟩ := hsup j hj
  obtain ⟨a, ha, _⟩ := Entities.cellOf?_eq_some.mp hp
  refine ⟨⟨a, ha⟩, List.ne_nil_of_mem hj, x.2.ascending, fun o ho => ?_⟩
  obtain ⟨_, _, _, ho, _⟩ := hsup o ho
  obtain ⟨_, ho, _⟩ := Entities.objectOf?_eq_some.mp ho
  exact ⟨_, ho⟩

/-- **Nothing is lost on the way.** Whatever the selector and the order, and whether or not a step has
failed, an object at the source of an edge is at its target or in an entry for the target, and all
entries are in order. -/
theorem flow_pending {p : Program} {heap : Heap} {w : World} {sel : Selector} {limit : Nat} {t : Task}
    {order : Order} {s : State} (hw : World.withHeap p heap = .ok w) (ht : Task.new w sel limit = .ok t)
    (hs : Reached t order s) :
    (∀ u, ∀ v ∈ s.flow.successors u, ∀ o ∈ s.entities.pointsTo u,
      o ∈ s.entities.pointsTo v ∨ ∃ set, (v, set) ∈ s.work.toList ∧ o ∈ set) ∧
    ∀ x ∈ s.work.toList, s.entities.Entry x.1 x.2 := by
  have hinv := hs.invariant (Task.valid_of_new ht (World.valid_of_withHeap hw))
  exact ⟨hinv.waits.flow, fun x hx => hinv.justified.entry hx⟩

/-- The boxes after a start and a step, with calls told apart by their site. -/
theorem flow_pending_sample : ∃ t s, Task.new Sample.world (.callSite 1) 8 = .ok t ∧
    s = (t.step.apply (t.launch.apply (.initial .fifo)).2).2 ∧ Reached t .fifo s ∧
    (∀ u, ∀ v ∈ s.flow.successors u, ∀ o ∈ s.entities.pointsTo u,
      o ∈ s.entities.pointsTo v ∨ ∃ set, (v, set) ∈ s.work.toList ∧ o ∈ set) ∧
    ∀ x ∈ s.work.toList, s.entities.Entry x.1 x.2 := by
  obtain ⟨t, ht⟩ := Sample.exists_task (.callSite 1) 8
  have hs : Reached t .fifo (t.step.apply (t.launch.apply (.initial .fifo)).2).2 := .step (.launch .initial)
  exact ⟨t, _, ht, rfl, hs, flow_pending Sample.world_eq ht hs⟩

/-! ## Entries that told something new -/

/-- Each entry that told its pointer something new has added an object at least, and all objects at
most, to what the pointers hold. -/
structure State.Tallied (s : State) : Prop where
  grown : ∀ n, s.entities.pointers.size ≤ n → s.effective ≤ s.volume n
  limited : ∀ n, s.entities.pointers.size ≤ n → s.volume n ≤ s.effective * s.entities.objs.size
  popped : s.effective ≤ s.popped

theorem State.tallied_initial (order : Order) : (initial order).Tallied where
  grown _ _ := Nat.zero_le _
  limited n _ := by
    have : (initial order).volume n = 0 := by
      unfold volume
      refine List.sum_eq_zero fun k hk => ?_
      obtain ⟨p, _, rfl⟩ := List.mem_map.mp hk
      rfl
    rw [this]; exact Nat.zero_le _
  popped := Nat.le_refl _

section
variable {t : Task} {s s' : State}

theorem Grows.tallied (h : Grows s s') (hs : s.Tallied) : s'.Tallied := by
  have hpointers : s.entities.pointers.size ≤ s'.entities.pointers.size := by
    rw [Table.size_eq, Table.size_eq]
    exact h.entities.pointers.length_le
  have hobjs : s.entities.objs.size ≤ s'.entities.objs.size := by
    rw [Table.size_eq, Table.size_eq]
    exact h.entities.objs.length_le
  constructor
  case grown =>
    intro n hn
    rw [h.effective, h.volume]
    exact hs.grown n (Nat.le_trans hpointers hn)
  case limited =>
    intro n hn
    rw [h.effective, h.volume]
    exact Nat.le_trans (hs.limited n (Nat.le_trans hpointers hn)) (Nat.mul_le_mul_left _ hobjs)
  case popped => rw [h.effective, h.popped]; exact hs.popped

/-- A pointer cannot learn of more objects than there are. -/
theorem State.Justified.size_missing_le (h : s.Justified t) {p : PointerId} {set : ObjSet} {w : Worklist}
    (hpop : s.work.toList.Perm ((p, set) :: w.toList)) :
    ((s.entities.pointsTo p).missing set).size ≤ s.entities.objs.size := by
  have hle := (h.absorbed hpop).size_pointsTo_le p
  rw [h.pointsTo_absorbed hpop, if_pos rfl, ObjSet.size, (ObjSet.perm_union _ _).length_eq,
    List.length_append] at hle
  exact Nat.le_trans (Nat.le_add_left _ _) hle

theorem State.Tallied.absorbed (hs : s.Tallied) (h : s.Justified t) {p : PointerId} {set : ObjSet}
    {w : Worklist} (hpop : s.work.toList.Perm ((p, set) :: w.toList)) : (s.absorbed p set w).Tallied := by
  have hvolume := fun n => h.volume_absorbed hpop (n := n)
  have hle := h.size_missing_le hpop
  have heffective : (s.absorbed p set w).effective = if ((s.entities.pointsTo p).missing set).isEmpty
    then s.effective else s.effective + 1 := rfl
  have hempty : ((s.entities.pointsTo p).missing set).isEmpty = true ↔
      ((s.entities.pointsTo p).missing set).size = 0 := by
    rw [ObjSet.isEmpty, List.isEmpty_iff, ObjSet.size, List.length_eq_zero_iff]
  generalize (s.entities.pointsTo p).missing set = fresh at *
  constructor
  case grown =>
    intro n hn
    have := hs.grown n hn
    rw [hvolume n hn, heffective]
    split
    · omega
    · rename_i hf
      rw [hempty] at hf
      omega
  case limited =>
    intro n hn
    have := hs.limited n hn
    rw [hvolume n hn, heffective]
    show _ ≤ _ * s.entities.objs.size
    split
    · rename_i hf
      rw [hempty.mp hf]
      exact this
    · rw [Nat.succ_mul]
      exact Nat.add_le_add this hle
  case popped =>
    have := hs.popped
    rw [heffective]
    show _ ≤ s.popped + 1
    split <;> omega

theorem Change.tallied (h : Change t s s') (hs : s.Invariant t) (hc : s.Tallied) : s'.Tallied := by
  cases h with
  | move m => exact m.grows.tallied hc
  | absorb hpop => exact hc.absorbed hs.justified hpop
  | reach _ => exact ⟨hc.grown, hc.limited, hc.popped⟩
  | launch _ =>
    have hc' := (Path.launched t s).grows.tallied hc
    exact ⟨hc'.grown, hc'.limited, hc'.popped⟩

theorem Evolves.tallied (h : Evolves t s s') (hs : s.Invariant t) (hc : s.Tallied) : s'.Tallied := by
  induction h with
  | refl => exact hc
  | tail h c ih => exact c.tallied (h.invariant hs) ih

end

/-- **Propagations are bounded.** Entries that told something new are at most as many as the members of
all sets, hence at most pointers times objects, and at most as many as were taken at all. If a set has a
member, there was such an entry. -/
theorem propagations_bounded {p : Program} {heap : Heap} {w : World} {sel : Selector} {limit : Nat} {t : Task}
    {order : Order} {s : State} (hw : World.withHeap p heap = .ok w) (ht : Task.new w sel limit = .ok t)
    (hs : Reached t order s) :
    s.effective ≤ (s.entities.pointerIds.map fun q => (s.entities.pointsTo q).size).sum ∧
    (s.entities.pointerIds.map fun q => (s.entities.pointsTo q).size).sum ≤
      s.entities.pointers.size * s.entities.objs.size ∧
    (s.entities.pointerIds.map fun q => (s.entities.pointsTo q).size).sum ≤
      s.effective * s.entities.objs.size ∧
    s.effective ≤ s.popped := by
  have hvalid := Task.valid_of_new ht (World.valid_of_withHeap hw)
  have htallied := (hs.evolves hvalid).tallied (State.invariant_initial t order) (State.tallied_initial order)
  refine ⟨htallied.grown _ (Nat.le_refl _), ?_, htallied.limited _ (Nat.le_refl _), htallied.popped⟩
  refine Nat.le_trans (sum_map_le fun q _ => (hs.invariant hvalid).justified.size_pointsTo_le q) ?_
  exact Nat.le_of_eq (congrArg (· * _) (length_idsBelow _))

theorem Sample.derives_box (sel : Selector) :
    ∃ o, Derives Sample.world sel (.points (.var sel.entry ⟨0⟩) o) := by
  have hs : Sample.program.stmt? ⟨⟨0⟩, 0⟩ = some (.alloc ⟨0⟩ ⟨1⟩) := rfl
  obtain ⟨o, obj, ho, hobj, _⟩ := Heap.perSite_object hs
  exact ⟨_, .rule (.alloc (.rule .entry) hs ho hobj)⟩

/-- The boxes at the end of a run. The first variable has learned of a box, so something was told. -/
theorem propagations_bounded_sample : ∃ t s, Task.ofSensitivity Sample.world ⟨.object, 2⟩ = .ok t ∧
    t.solve .lifo = .ok s ∧ Reached t .lifo s ∧ 0 < s.effective ∧
    s.effective ≤ s.entities.pointers.size * s.entities.objs.size ∧ s.effective ≤ s.popped := by
  obtain ⟨t, ht, hsolve⟩ := Sample.exists_solution ⟨.object, 2⟩
  obtain ⟨s, hs⟩ := hsolve .lifo
  have hreached := Task.reached_of_solve hs
  have hvalid := Task.valid_of_new ht (World.valid_of_withHeap Sample.world_eq)
  obtain ⟨hle, hsize, hmax, hpopped⟩ := propagations_bounded Sample.world_eq ht hreached
  refine ⟨t, s, ht, hs, hreached, Nat.pos_of_ne_zero fun hzero => ?_, Nat.le_trans hle hsize, hpopped⟩
  obtain ⟨o, hd⟩ := Sample.derives_box t.selector
  rw [← (Task.new_eq ht).1] at hd
  obtain ⟨i, j, hi, _, hj⟩ : s.Points _ _ := ((Task.final_of_solve hvalid hs).has_iff hvalid _).mpr hd
  have hmem : i ∈ s.entities.pointerIds := mem_idsBelow.mpr (Entities.Justified.lt_of_cell hi)
  have hone := List.single_le_sum (fun _ _ => Nat.zero_le _) _ (List.mem_map_of_mem
    (f := fun q => (s.entities.pointsTo q).size) hmem)
  have hpos : 0 < (s.entities.pointsTo i).size := List.length_pos_of_mem hj
  rw [hzero, Nat.zero_mul] at hmax
  omega

end PointsTo
