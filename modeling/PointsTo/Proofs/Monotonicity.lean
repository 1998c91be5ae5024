import PointsTo.Proofs.Success

/-!
# Monotonicity

A start or a step takes nothing back, however it ends: handles keep their
meaning, sets and lists only grow, and lists grow at their end. Once a run has
succeeded, a further step changes nothing.
-/

namespace PointsTo
open Solve

structure State.Precedes (s s' : State) : Prop where
  /-- Contexts, objects, call sites, methods and pointers. -/
  entities : s.entities.Extends s'.entities
  pointsTo : ∀ p, ∀ o ∈ s.entities.pointsTo p, o ∈ s'.entities.pointsTo p
  pointersOf : ∀ v, s.entities.pointersOf v <+: s'.entities.pointersOf v
  successors : ∀ p, s.flow.successors p <+: s'.flow.successors p
  nodes : s.flow.nodes.toList <+: s'.flow.nodes.toList
  entries : s.calls.entries.toList <+: s'.calls.entries.toList
  reachable : s.calls.reachable.toList <+: s'.calls.reachable.toList
  edges : s.calls.edges.toList <+: s'.calls.edges.toList
  edgesOutOf : ∀ site, s.calls.edgesOutOf site <+: s'.calls.edgesOutOf site
  edgesInto : ∀ m, s.calls.edgesInto m <+: s'.calls.edgesInto m
  popped : s.popped ≤ s'.popped
  effective : s.effective ≤ s'.effective
  unresolved : s.unresolved ≤ s'.unresolved
  started : s.started = true → s'.started = true

namespace State.Precedes
variable {s s' s'' : State}

theorem refl (s : State) : s.Precedes s := by
  constructor
  case entities => exact .refl _
  all_goals simp

theorem trans (h : s.Precedes s') (h' : s'.Precedes s'') : s.Precedes s'' where
  entities := h.entities.trans h'.entities
  pointsTo p o ho := h'.pointsTo p o (h.pointsTo p o ho)
  pointersOf v := (h.pointersOf v).trans (h'.pointersOf v)
  successors p := (h.successors p).trans (h'.successors p)
  nodes := h.nodes.trans h'.nodes
  entries := h.entries.trans h'.entries
  reachable := h.reachable.trans h'.reachable
  edges := h.edges.trans h'.edges
  edgesOutOf site := (h.edgesOutOf site).trans (h'.edgesOutOf site)
  edgesInto m := (h.edgesInto m).trans (h'.edgesInto m)
  popped := Nat.le_trans h.popped h'.popped
  effective := Nat.le_trans h.effective h'.effective
  unresolved := Nat.le_trans h.unresolved h'.unresolved
  started hs := h'.started (h.started hs)

theorem of_entities {e : Entities} (he : s.entities.Extends e)
    (hp : ∀ p, ∀ o ∈ s.entities.pointsTo p, o ∈ e.pointsTo p)
    (hv : ∀ v, s.entities.pointersOf v <+: e.pointersOf v) : s.Precedes { s with entities := e } :=
  { refl s with entities := he, pointsTo := hp, pointersOf := hv }

end State.Precedes

section
variable {t : Task} {s s' : State}

theorem Move.precedes (m : Move t s s') : s.Precedes s' := by
  have hg := m.grows
  have hp : ∀ p, ∀ o ∈ s.entities.pointsTo p, o ∈ s'.entities.pointsTo p := by
    intro p o ho
    rw [hg.pointsTo]; exact ho
  cases m with
  | pointer _ _ => exact .of_entities hg.entities hp (Entities.prefix_pointersOf_internPointer _)
  | connect _ _ _ =>
    exact { State.Precedes.refl s with
      successors := hg.successors
      nodes := FlowGraph.prefix_nodes_addEdge }
  | seed _ _ _ => exact { State.Precedes.refl s with }
  | link _ _ =>
    refine { State.Precedes.refl s with
      entries := ?_, reachable := ?_, edges := hg.edges, edgesOutOf := ?_, edgesInto := ?_ }
    · simp [State.linked, CallGraph.addEdge_entries]
    · simp [hg.reachable]
    · exact CallGraph.prefix_edgesOutOf_addEdge _ _
    · exact CallGraph.prefix_edgesInto_addEdge _ _
  | miss => exact { State.Precedes.refl s with unresolved := Nat.le_succ _ }
  | _ => exact .of_entities hg.entities hp fun _ => List.prefix_rfl

theorem Path.precedes (h : Path t s s') : s.Precedes s' := by
  induction h with
  | refl => exact .refl s
  | tail _ m ih => exact ih.trans m.precedes

theorem State.Justified.precedes_absorbed (hs : s.Justified t) {p : PointerId} {set : ObjSet}
    {w : Worklist} (hpop : s.work.toList.Perm ((p, set) :: w.toList)) : s.Precedes (s.absorbed p set w) := by
  refine { Precedes.refl s with
    entities := Entities.extends_extend, pointsTo := ?_, popped := Nat.le_succ _, effective := ?_ }
  · intro q o ho
    exact (hs.mem_pointsTo_absorbed hpop).mpr (Or.inl ho)
  · unfold State.absorbed
    dsimp only
    split
    · exact Nat.le_refl _
    · exact Nat.le_succ _

theorem State.precedes_admitted (m : CSMethodId) (q : Queue CSMethodId) : s.Precedes (s.admitted m q) :=
  { Precedes.refl s with reachable := Table.prefix_insert _ _ }

theorem State.precedes_launched (t : Task) (s : State) : s.Precedes (s.launched t) :=
  { (Path.launched t s).precedes with entries := Table.prefix_insert _ _, started := fun _ => rfl }

theorem Change.precedes (h : Change t s s') (hs : s.Invariant t) : s.Precedes s' := by
  cases h with
  | move m => exact m.precedes
  | absorb hpop => exact hs.justified.precedes_absorbed hpop
  | reach _ => exact State.precedes_admitted _ _
  | launch _ => exact s.precedes_launched t

theorem Evolves.precedes (h : Evolves t s s') (hs : s.Invariant t) : s.Precedes s' := by
  induction h with
  | refl => exact .refl s
  | tail h c ih => exact ih.trans (c.precedes (h.invariant hs))

/-! ## At the end -/

theorem Launches.started (h : Launches t s s') : s'.started = true := by
  cases h with
  | before hs => exact hs
  | now _ hd => exact hd.started

theorem apply_launch_of_started (hs : s.started = true) : t.launch.apply s = (.ok (), s) := by
  rw [apply_launch, if_pos hs]

theorem apply_step_of_idle (hs : s.started = true) (hw : s.work.toList = []) :
    t.step.apply s = (.ok false, s) := by
  have hpop : s.work.pop? = none := Worklist.pop?_eq_none.mpr hw
  rw [Task.step_eq, apply_bind, apply_launch_of_started hs]
  show (pop? >>= fun r => _).apply s = _
  rw [apply_bind, apply_pop?, hpop]
  rfl

theorem apply_step_of_false (ht : t.Valid) (hs : s.Invariant t) (h : t.step.apply s = (.ok false, s')) :
    t.step.apply s' = (.ok false, s') := by
  obtain ⟨s₁, hl, rfl, hw⟩ : StepEnds t s false s' := (ends_step ht hs).of_ok h
  exact apply_step_of_idle hl.started hw

end

/-- **Monotonicity.** Whatever the heap, the selector and the order, however often an analysis was
started and stepped before and whether or not it failed, one more start or step takes nothing back.
A step that has found the worklist empty, and one after a successful run, change nothing at all. -/
theorem calls_only_extend {p : Program} {heap : Heap} {w : World} {sel : Selector} {limit : Nat} {t : Task}
    {order : Order} {s : State} (hw : World.withHeap p heap = .ok w) (ht : Task.new w sel limit = .ok t)
    (hs : Reached t order s) :
    s.Precedes (t.launch.apply s).2 ∧ s.Precedes (t.step.apply s).2 ∧
    (∀ s', t.step.apply s = (.ok false, s') → t.step.apply s' = (.ok false, s')) ∧
    ∀ s', t.solve order = .ok s' → s'.work.toList = [] ∧ t.step.apply s' = (.ok false, s') ∧
      t.launch.apply s' = (.ok (), s') := by
  have hvalid := Task.valid_of_new ht (World.valid_of_withHeap hw)
  have hinv := hs.invariant hvalid
  refine ⟨(evolves_launch hvalid hinv).precedes hinv, (evolves_step hvalid hinv).precedes hinv, ?_, ?_⟩
  · intro s' h
    exact apply_step_of_false hvalid hinv h
  · intro s' hsolve
    have hfinal := Task.final_of_solve hvalid hsolve
    exact ⟨hfinal.work, apply_step_of_idle hfinal.started hfinal.work,
      apply_launch_of_started hfinal.started⟩

/-- The boxes after their first step, oldest entry first, with calls told apart by their site. -/
theorem calls_only_extend_sample : ∃ t s s', Task.ofSensitivity Sample.world ⟨.callSite, 1⟩ = .ok t ∧
    s = (t.step.apply (.initial .fifo)).2 ∧ Reached t .fifo s ∧ s.Precedes (t.step.apply s).2 ∧
    t.solve .fifo = .ok s' ∧ t.step.apply s' = (.ok false, s') := by
  obtain ⟨t, ht, hsolve⟩ := Sample.exists_solution ⟨.callSite, 1⟩
  obtain ⟨s', hs'⟩ := hsolve .fifo
  have hs : Reached t .fifo (t.step.apply (.initial .fifo)).2 := .step .initial
  have hall := calls_only_extend Sample.world_eq ht hs
  exact ⟨t, _, s', ht, rfl, hs, hall.2.1, hs', (hall.2.2.2 s' hs').2.1⟩

end PointsTo
