import PointsTo.Proofs.Bounds
import PointsTo.Proofs.Runs

/-!
# Runs come to an end

Every entry of the worklist is paid for: by the entry that was taken, by a new
edge, by an object that is new to a pointer or by a method that was entered.
There are only so many of them, so the number of steps is bounded, and the
limit of a run is beyond that bound.
-/

namespace PointsTo
open Solve

/-! ## What has been gained -/

namespace State

def volume (n : Nat) (s : State) : Nat :=
  ((idsBelow n).map fun p => (s.entities.pointsTo p).size).sum

/-- The edges, objects and methods found so far, each with the entries it may give rise to. -/
def gain (X : Nat) (s : State) : Nat :=
  s.flow.edgeCount + (4 * X ^ 2 + X) * s.volume (4 * X ^ 2) + X * s.calls.reachable.size

def Pays (X n : Nat) (s s' : State) : Prop :=
  s'.work.toList.length + n + s.gain X ≤ s.work.toList.length + s'.gain X

theorem Pays.trans {X n m : Nat} {s s₁ s' : State} (h : Pays X n s s₁) (h' : Pays X m s₁ s') :
    Pays X (n + m) s s' := by
  unfold Pays at *
  omega

theorem Pays.refl (X : Nat) (s : State) : Pays X 0 s s := Nat.le_refl _

end State

def ceiling (X : Nat) : Nat := (4 * X ^ 2) ^ 2 + (4 * X ^ 2 + X) * (4 * X ^ 2 * X) + X * X

theorem sum_map_le {α : Type} {f : α → Nat} {l : List α} {b : Nat} (h : ∀ a ∈ l, f a ≤ b) :
    (l.map f).sum ≤ l.length * b := by
  have := List.sum_le_card_nsmul (l.map f) b fun x hx => by
    obtain ⟨a, ha, rfl⟩ := List.mem_map.mp hx
    exact h a ha
  rwa [List.length_map] at this

section
variable {t : Task} {s s' : State} {X : Nat}

/-- The gain of a state is limited. -/
theorem State.Invariant.gain_le (h : s.Invariant t) (hf : s.Fits X) : s.gain X ≤ ceiling X := by
  have hedges : s.flow.edgeCount ≤ (4 * X ^ 2) ^ 2 := by
    rw [h.justified.edgeCount_eq h.counted, pow_two]
    refine Nat.le_trans (sum_map_le fun p _ => h.justified.length_successors_le h.counted p) ?_
    rw [length_idsBelow]
    exact Nat.mul_le_mul hf.pointers hf.pointers
  have hvolume : s.volume (4 * X ^ 2) ≤ 4 * X ^ 2 * X := by
    refine Nat.le_trans (sum_map_le fun p _ => h.justified.size_pointsTo_le p) ?_
    rw [length_idsBelow]
    exact Nat.mul_le_mul_left _ hf.objs
  exact Nat.add_le_add (Nat.add_le_add hedges (Nat.mul_le_mul_left _ hvolume))
    (Nat.mul_le_mul_left X hf.reachable)

/-! ## Every entry is paid for -/

theorem Grows.volume (h : Grows s s') (n : Nat) : s'.volume n = s.volume n := by
  unfold State.volume
  refine congrArg List.sum (List.map_congr_left fun p _ => ?_)
  rw [h.pointsTo]

theorem Drains.pays (hX : t.world.program.stmts.length ≤ X) (h : Drains t s s') : State.Pays X 0 s s' := by
  cases h with
  | @again m q hq hm =>
    have hr : (s.admitted m q).calls.reachable.size = s.calls.reachable.size := by
      rw [Table.size_eq, Table.size_eq, State.reachable_admitted, if_pos hm]
    unfold State.Pays State.gain
    rw [hr]
    exact Nat.le_refl _
  | @enter m q f _ hq hm hf hp _ =>
    have hr : s'.calls.reachable.size = s.calls.reachable.size + 1 := by
      rw [hp.path.grows.reachable, Table.size_eq, Table.size_eq, State.reachable_admitted, if_neg hm,
        List.length_append, List.length_singleton]
    have hv : s'.volume (4 * X ^ 2) = s.volume (4 * X ^ 2) := hp.path.grows.volume _
    have hcost := hp.cost
    have hbody := Nat.le_trans (t.world.program.length_body_le f.method) hX
    have hw : (s.admitted m q).work = s.work := rfl
    have he : (s.admitted m q).flow = s.flow := rfl
    rw [hw, he] at hcost
    unfold State.Pays State.gain
    rw [hv, hr, Nat.mul_succ]
    omega

theorem Drained.pays (hX : t.world.program.stmts.length ≤ X) (h : Drained t s s') :
    State.Pays X 0 s s' := by
  induction h with
  | done _ => exact .refl X _
  | turn hd _ ih => exact (hd.pays hX).trans ih

theorem Launches.pays (hX : t.world.program.stmts.length ≤ X) (h : Launches t s s') :
    State.Pays X 0 s s' := by
  cases h with
  | before _ => exact .refl X s
  | now _ hd =>
    have hv : (s.launched t).volume (4 * X ^ 2) = s.volume (4 * X ^ 2) :=
      (Path.launched t s).grows.volume _
    have hl : State.Pays X 0 s (s.launched t) := by
      unfold State.Pays State.gain
      rw [hv]
      exact Nat.le_refl _
    exact hl.trans (hd.pays hX)

/-- The set of the pointer has grown by what it lacked. -/
theorem State.Justified.volume_absorbed (hs : s.Justified t) {p : PointerId} {set : ObjSet} {w : Worklist}
    (hpop : s.work.toList.Perm ((p, set) :: w.toList)) {n : Nat} (hn : s.entities.pointers.size ≤ n) :
    (s.absorbed p set w).volume n = s.volume n + ((s.entities.pointsTo p).missing set).size := by
  have hp : p.idx < n := by
    have := hs.pointer_lt hpop
    rw [hs.entities.sets] at this
    exact Nat.lt_of_lt_of_le this hn
  refine sum_map_add (nodup_idsBelow _) (mem_idsBelow.mpr hp) ?_ fun q hq => ?_
  · rw [hs.pointsTo_absorbed hpop, if_pos rfl]
    unfold ObjSet.size
    rw [(ObjSet.perm_union _ _).length_eq, List.length_append]
  · rw [hs.pointsTo_absorbed hpop, if_neg hq]

/-- An entry is gone, and entries are added only if it brought something new. -/
theorem State.Invariant.length_work_absorbed (hs : s.Invariant t) (hf : s.Fits X) {p : PointerId}
    {set : ObjSet} {w : Worklist} (hpop : s.work.toList.Perm ((p, set) :: w.toList)) :
    (s.absorbed p set w).work.toList.length + 1 ≤
      s.work.toList.length + 4 * X ^ 2 * ((s.entities.pointsTo p).missing set).size := by
  rw [hpop.length_eq, List.length_cons]
  unfold State.absorbed
  dsimp only
  split
  · omega
  · rename_i hne
    have hpos : 1 ≤ ((s.entities.pointsTo p).missing set).size := by
      refine List.length_pos_iff.mpr fun hnil => hne ?_
      rw [ObjSet.isEmpty, hnil]; rfl
    have hsucc := Nat.le_trans (hs.justified.length_successors_le hs.counted p) hf.pointers
    have := Nat.le_mul_of_pos_right (4 * X ^ 2) hpos
    rw [Worklist.toList_spread, List.length_append, List.length_map]
    omega

/-- A new object pays for the entries it causes, and the entry that brought it is gone. -/
theorem Steps.pays (hX : t.world.program.stmts.length ≤ X) (hs : s.Invariant t) (hf : s.Fits X)
    (h : Steps t s s') : State.Pays X 1 s s' := by
  cases h with
  | @entry p set w s₁ _ hpop hl hd =>
    have hv := (hl.progress.path.grows.volume (4 * X ^ 2)).trans (hs.justified.volume_absorbed hpop hf.pointers)
    have hw := hs.length_work_absorbed hf hpop
    have hcost := hl.progress.cost
    generalize (s.entities.pointsTo p).missing set = fresh at hv hw hcost
    have hstmts := Nat.mul_le_mul_left fresh.size hX
    have hflow : (s.absorbed p set w).flow = s.flow := rfl
    have hreach : s₁.calls.reachable = s.calls.reachable := hl.progress.path.grows.reachable
    have hpays : State.Pays X 1 s s₁ := by
      unfold State.Pays State.gain
      rw [hv, hreach, Nat.mul_add, Nat.add_mul _ _ fresh.size, Nat.mul_comm X fresh.size]
      rw [hflow] at hcost
      omega
    exact hpays.trans (hd.pays hX)

/-! ## The number of turns -/

structure Task.Spans (t : Task) (X : Nat) : Prop where
  valid : t.Valid
  stmts : t.world.program.stmts.length ≤ X
  fits : ∀ {s : State}, s.Invariant t → s.Fits X

theorem StepEnds.pays (ht : t.Spans X) (hs : s.Invariant t) (h : StepEnds t s true s') :
    State.Pays X 1 s s' := by
  obtain ⟨s₁, hl, hd⟩ := h
  have hs₁ := hl.invariant hs
  have := (hl.pays ht.stmts).trans (Steps.pays ht.stmts hs₁ (ht.fits hs₁) hd)
  rwa [Nat.zero_add] at this

theorem Turns.pays (ht : t.Spans X) {n : Nat} (h : Turns t.step n s s') (hs : s.Invariant t) :
    State.Pays X n s s' := by
  induction h with
  | none => exact .refl X _
  | more hone _ ih =>
    have he : StepEnds t _ true _ := (ends_step ht.valid hs).of_ok hone
    rw [Nat.add_comm]
    exact (he.pays ht hs).trans (ih (he.invariant hs))

/-- Steps that ask for more: as many as there are entries, and as much as there is to gain. -/
theorem Turns.length_le (ht : t.Spans X) {n : Nat} (h : Turns t.step n s s') (hs : s.Invariant t) :
    n + s.gain X ≤ s.work.toList.length + ceiling X := by
  have hs' := invariant_of_stepTurns ht.valid h hs
  have hpays := h.pays ht hs
  have hgain := hs'.gain_le (ht.fits hs')
  unfold State.Pays at hpays
  omega

/-- A pending method is taken in each turn, and one is added for a new call edge. -/
theorem Drains.balance (h : Drains t s s') :
    s'.pending.length + 1 + s.calls.edges.size = s.pending.length + s'.calls.edges.size := by
  have hadmitted : ∀ {m : CSMethodId} {q : Queue CSMethodId}, s.pending.toList = m :: q.toList →
      s.pending.length = q.length + 1 := by
    intro m q hq
    rw [← Queue.length_toList, hq, List.length_cons, Queue.length_toList]
  cases h with
  | @again m q hq _ =>
    have hpending : (s.admitted m q).pending = q := rfl
    have hedges : (s.admitted m q).calls.edges = s.calls.edges := rfl
    rw [hadmitted hq, hpending, hedges]
  | @enter m q f _ hq _ _ hp _ =>
    have hbalance := hp.path.grows.balance
    have hpending : (s.admitted m q).pending = q := rfl
    have hedges : (s.admitted m q).calls.edges = s.calls.edges := rfl
    rw [hpending, hedges] at hbalance
    rw [hadmitted hq]
    omega

theorem Turns.drain_balance (ht : t.Valid) {n : Nat} (h : Turns t.drainOne n s s') (hs : s.Invariant t) :
    s'.pending.length + n + s.calls.edges.size = s.pending.length + s'.calls.edges.size := by
  induction h with
  | none => rfl
  | more hone _ ih =>
    have hd : Drains t _ _ := (ends_drainOne ht hs).of_ok hone
    have := hd.balance
    have := ih (hd.invariant hs)
    omega

/-! ## The limit is beyond reach -/

/-- A task whose limit exceeds the number of its turns. -/
structure Task.Ample (t : Task) (X : Nat) : Prop extends t.Spans X where
  limit : ceiling X + 6 * X ^ 3 + 2 < 2 ^ t.limit

theorem Task.Ample.not_overruns (h : t.Ample X) : ¬ Overruns t := by
  rintro ⟨s, s', hs, hturns⟩
  have hbalance := hturns.drain_balance h.valid hs
  have hs' := invariant_of_drainTurns h.valid hturns hs
  have hedges := (h.fits hs').edges
  have hpending := hs.balance
  have hstart : s.started.toNat ≤ 1 := Bool.toNat_le _
  have hlimit := h.limit
  omega

theorem Task.Ample.ends_run (h : t.Ample X) (order : Order) : Ends t.run (.initial order)
    (fun _ s' => ∃ s₁, Launches t (.initial order) s₁ ∧ Runs t s₁ s')
    fun e _ => Fault t.world t.Derives e := by
  have hs := State.invariant_initial t order
  refine (PointsTo.ends_run h.valid hs).mono (fun _ _ hr => hr) fun e s' he => ?_
  rcases he with ⟨_, he | ⟨_, hover⟩⟩ | ⟨_, s₁, hl, hturns⟩
  · exact he
  · exact absurd hover h.not_overruns
  · -- the entries that the start has left are paid for as well
    exfalso
    have hs₁ := hl.invariant hs
    have hlaunch := hl.pays h.stmts
    have hlength := hturns.length_le h.toSpans hs₁
    have hinitial : (State.initial order).work.toList.length = 0 := rfl
    unfold State.Pays at hlaunch
    have hlimit := h.limit
    omega

/-- The limit of a task is chosen large enough. -/
theorem ceiling_lt (w : World) (k : Nat) : ceiling (w.span k) + 6 * w.span k ^ 3 + 2 < 2 ^ Task.limitFor w k := by
  have hX : 2 ≤ w.span k := by
    have hpos : 0 < w.size * (k + 1) := Nat.mul_pos (Nat.succ_pos _) (Nat.succ_pos k)
    exact Nat.pow_le_pow_right (n := 2) (by decide) hpos
  have hlimit : 2 ^ Task.limitFor w k = w.span k ^ 32 := by
    unfold World.span
    rw [w.limitFor_eq, ← pow_mul]
    congr 1; ring
  rw [hlimit]
  generalize w.span k = X at hX
  have hle : ∀ {i j : Nat}, i ≤ j → X ^ i ≤ X ^ j := fun h => Nat.pow_le_pow_right (by omega) h
  have hceiling : ceiling X = 16 * X ^ 4 + 16 * X ^ 5 + 4 * X ^ 4 + X ^ 2 := by
    unfold ceiling; ring
  have h₂ : X ^ 2 ≤ X ^ 5 := hle (by decide)
  have h₃ : X ^ 3 ≤ X ^ 5 := hle (by decide)
  have h₄ : X ^ 4 ≤ X ^ 5 := hle (by decide)
  have h₀ : 1 ≤ X ^ 5 := Nat.one_le_pow _ _ (by omega)
  have h₆ : 64 * X ^ 5 ≤ X ^ 6 * X ^ 5 := Nat.mul_le_mul_right _ (Nat.pow_le_pow_left hX 6)
  have h₁₁ : X ^ 6 * X ^ 5 ≤ X ^ 32 := by
    rw [← pow_add]; exact hle (by decide)
  rw [hceiling]
  omega

theorem Task.ample_of_bounded {w : World} {sel : Selector} {k limit : Nat} (hw : w.Valid)
    (hb : sel.Bounded w k) (hlimit : Task.limitFor w k ≤ limit) (h : Task.new w sel limit = .ok t) :
    t.Ample (w.span k) := by
  have hvalid := Task.valid_of_new h hw
  obtain ⟨rfl, rfl, rfl, _⟩ := Task.new_eq h
  refine ⟨⟨hvalid, ?_, State.Invariant.fits hvalid hb⟩, ?_⟩
  · exact Nat.le_trans (by unfold World.size; omega) (t.world.size_le_span k)
  · exact Nat.lt_of_lt_of_le (ceiling_lt t.world k) (Nat.pow_le_pow_right (by decide) hlimit)

theorem Task.ample_of_sensitivity {w : World} {sens : Sensitivity} (hw : w.Valid)
    (h : Task.ofSensitivity w sens = .ok t) : t.Ample (w.span sens.depth) :=
  ample_of_bounded hw (Selector.bounded_ofSensitivity w sens) (Nat.le_refl _) h

end

end PointsTo
