import PointsTo.Proofs.Moves

/-!
# What every state of a run satisfies

Besides the moves of the rules, a run takes an entry from the worklist, takes a
pending method, and starts. Each of the three keeps the invariant, and none of
them forgets a fact.
-/

namespace PointsTo

namespace Worklist

def spread (w : Worklist) (l : List PointerId) (set : ObjSet) : Worklist :=
  l.foldl (fun w p => w.push p set) w

theorem toList_spread (set : ObjSet) : ∀ (l : List PointerId) (w : Worklist),
    (w.spread l set).toList = w.toList ++ l.map fun p => (p, set)
  | [], w => (List.append_nil _).symm
  | p :: l, w => by
    show ((w.push p set).spread l set).toList = _
    rw [toList_spread set l, toList_push, List.append_assoc, List.map_cons]; rfl

/-- The next entry is one of the entries; the others stay. -/
theorem pop?_eq_some {w w' : Worklist} {x : PointerId × ObjSet} (h : w.pop? = some (x, w')) :
    w.toList.Perm (x :: w'.toList) := by
  obtain ⟨order, entries⟩ := w
  cases order with
  | fifo =>
    obtain ⟨⟨y, rest⟩, hr, he⟩ := Option.map_eq_some_iff.mp h
    cases he
    exact .of_eq (Queue.popOldest?_eq_some hr)
  | lifo =>
    obtain ⟨⟨y, rest⟩, hr, he⟩ := Option.map_eq_some_iff.mp h
    cases he
    exact (List.Perm.of_eq (Queue.popNewest?_eq_some hr)).trans List.perm_append_comm

theorem pop?_eq_none {w : Worklist} : w.pop? = none ↔ w.toList = [] := by
  obtain ⟨order, entries⟩ := w
  cases order with
  | fifo => exact Option.map_eq_none_iff.trans Queue.popOldest?_eq_none
  | lifo => exact Option.map_eq_none_iff.trans Queue.popNewest?_eq_none

end Worklist

namespace State

/-- `p` holds `set`, an entry that left `w` behind. If it learns something, so do its successors. -/
def absorbed (s : State) (p : PointerId) (set : ObjSet) (w : Worklist) : State :=
  let fresh := (s.entities.pointsTo p).missing set
  { s with
    entities := (s.entities.extend p set).2
    work := if fresh.isEmpty then w else w.spread (s.flow.successors p) set
    popped := s.popped + 1
    effective := if fresh.isEmpty then s.effective else s.effective + 1 }

def admitted (s : State) (m : CSMethodId) (q : Queue CSMethodId) : State :=
  { s with pending := q, calls := (s.calls.addReachable m).2 }

def launched (t : Task) (s : State) : State :=
  let context := s.entities.internContext t.selector.entry
  let entry := context.2.internMethod ⟨context.1, t.world.entry⟩
  { s with
    entities := entry.2
    calls := s.calls.addEntry entry.1
    pending := s.pending.push entry.1
    started := true }

structure Invariant (t : Task) (s : State) : Prop where
  justified : s.Justified t
  waits : s.Waits t
  counted : s.flow.Counted
  indexed : s.entities.Indexed
  /-- A method is pending for a call edge or as the entry. -/
  balance : s.pending.length ≤ s.calls.edges.size + s.started.toNat

end State

theorem Move.counted {t : Task} {s s' : State} (m : Move t s s') (h : s.flow.Counted) :
    s'.flow.Counted := by
  cases m with
  | connect _ _ _ => exact h.addEdge _ _
  | _ => exact h

theorem Path.counted {t : Task} {s s' : State} (p : Path t s s') (h : s.flow.Counted) :
    s'.flow.Counted := by
  induction p with
  | refl => exact h
  | tail _ m ih => exact m.counted ih

theorem Move.indexed {t : Task} {s s' : State} (m : Move t s s') (h : s.entities.Indexed) :
    s'.entities.Indexed := by
  cases m with
  | pointer _ _ => exact h.internPointer _
  | _ => exact h

theorem Path.indexed {t : Task} {s s' : State} (p : Path t s s') (h : s.entities.Indexed) :
    s'.entities.Indexed := by
  induction p with
  | refl => exact h
  | tail _ m ih => exact m.indexed ih

theorem Path.invariant {t : Task} {s s' : State} (p : Path t s s') (h : s.Invariant t) :
    s'.Invariant t where
  justified := p.justified h.justified
  waits := p.waits h.waits
  counted := p.counted h.counted
  indexed := p.indexed h.indexed
  balance := by
    have := p.grows.balance
    have := h.balance
    rw [p.grows.started]
    omega

theorem State.invariant_initial (t : Task) (order : Order) : (initial order).Invariant t where
  justified := by
    constructor
    case entities =>
      constructor
      case contexts =>
        intro c hc
        rcases Table.mem_intern.mp hc with hc | rfl
        · cases hc
        · exact .empty
      case sets => rfl
      all_goals exact fun x hx => (by cases hx)
    case points => exact fun i j hj => (by cases hj)
    case flows => exact fun i j hj => (by simp [initial] at hj)
    all_goals exact fun x hx => (by cases hx)
  waits := by
    constructor
    case flow => exact fun i j hj => (by simp [initial] at hj)
    case callee => exact fun x hx => (by cases hx)
    case entry => exact fun hs => (by cases hs)
  counted := FlowGraph.counted_empty
  indexed := Entities.indexed_empty
  balance := Nat.zero_le _

/-! ## Taking an entry -/

theorem Entities.Justified.extend {t : Task} {e : Entities} (h : e.Justified t) (p : PointerId)
    (set : ObjSet) : (e.extend p set).2.Justified t := by
  have he : e.Extends (e.extend p set).2 := Entities.extends_extend
  constructor
  case contexts => exact fun c hc => h.contexts c hc
  case objs => exact fun _ => h.lift_obj he
  case sites => exact fun _ => h.lift_site he
  case methods => exact fun _ => h.lift_method he
  case pointers => exact fun _ => h.lift_pointer he
  case sets =>
    rw [Entities.extend_snd]
    dsimp only
    rw [Array.size_setIfInBounds]
    exact h.sets

section
variable {t : Task} {s : State} {p : PointerId} {set : ObjSet} {w : Worklist}

namespace State

theorem mem_absorbed {x : PointerId × ObjSet} : x ∈ (s.absorbed p set w).work.toList ↔
    x ∈ w.toList ∨ (∃ o ∈ set, o ∉ s.entities.pointsTo p) ∧ x.1 ∈ s.flow.successors p ∧ x.2 = set := by
  have hfresh : ((s.entities.pointsTo p).missing set).isEmpty = true ↔
      ¬ ∃ o ∈ set, o ∉ s.entities.pointsTo p := by
    rw [ObjSet.isEmpty_iff]
    simp
  unfold absorbed
  dsimp only
  by_cases hf : ∃ o ∈ set, o ∉ s.entities.pointsTo p
  · rw [if_neg fun h => hfresh.mp h hf, Worklist.toList_spread]
    obtain ⟨q, set'⟩ := x
    simp [hf, eq_comm]
  · rw [if_pos (hfresh.mpr hf)]
    simp [hf]

namespace Justified
variable (h : s.Justified t) (hpop : s.work.toList.Perm ((p, set) :: w.toList))
include h hpop

/-- The pointer of an entry has a set. -/
theorem pointer_lt : p.idx < s.entities.sets.size := by
  obtain ⟨hsup, j, hj⟩ := h.work (p, set) (hpop.mem_iff.mpr (by simp))
  obtain ⟨c, o, hc, _, _⟩ := hsup j hj
  exact h.entities.set_lt hc

theorem pointsTo_absorbed (q : PointerId) : (s.absorbed p set w).entities.pointsTo q =
    if q = p then (s.entities.pointsTo p).union set else s.entities.pointsTo q :=
  Entities.pointsTo_extend (h.pointer_lt hpop) q

theorem mem_pointsTo_absorbed {q : PointerId} {o : CSObjId} :
    o ∈ (s.absorbed p set w).entities.pointsTo q ↔ o ∈ s.entities.pointsTo q ∨ q = p ∧ o ∈ set := by
  rw [h.pointsTo_absorbed hpop]
  by_cases hq : q = p
  · subst hq; simp
  · simp [hq]

theorem absorbed : (s.absorbed p set w).Justified t := by
  have he : s.entities.Extends (s.entities.extend p set).2 := Entities.extends_extend
  obtain ⟨hsup, hne⟩ := h.work (p, set) (hpop.mem_iff.mpr (by simp))
  constructor
  case entities => exact h.entities.extend p set
  case points =>
    intro q o ho
    rcases (h.mem_pointsTo_absorbed hpop).mp ho with hold | ⟨rfl, hnew⟩
    · exact (h.points q).mono he o hold
    · exact hsup.mono he o hnew
  case work =>
    intro x hx
    rcases mem_absorbed.mp hx with hx | ⟨_, hq, hset⟩
    · have := h.work x (hpop.mem_iff.mpr (by simp [hx]))
      exact ⟨this.1.mono he, this.2⟩
    · obtain ⟨a, b, ha, hb, hd⟩ := h.flows p x.1 hq
      rw [hset]
      exact ⟨(hsup.flow ha hb hd).mono he, hne⟩
  case flows =>
    intro i j hj
    obtain ⟨a, b, ha, hb, hd⟩ := h.flows i j hj
    exact ⟨a, b, he.cellOf ha, he.cellOf hb, hd⟩
  case calls => exact fun i hi => (h.calls i hi).imp fun _ hl => ⟨he.link hl.1, hl.2⟩
  case reachable => exact fun i hi => (h.reachable i hi).imp fun _ hm => ⟨he.frame hm.1, hm.2⟩
  case pending => exact fun i hi => (h.pending i hi).imp fun _ hm => ⟨he.frame hm.1, hm.2⟩

theorem holds_absorbed {f : Fact} (hf : s.Holds f) : (s.absorbed p set w).Holds f := by
  have he : s.entities.Extends (s.entities.extend p set).2 := Entities.extends_extend
  cases f with
  | reaches m =>
    rcases hf with ⟨i, hi, hm⟩ | ⟨i, hi, hm⟩
    · exact Or.inl ⟨i, hi, he.frame hm⟩
    · exact Or.inr ⟨i, hi, he.frame hm⟩
  | points c o =>
    rcases hf with ⟨i, j, hc, ho, hj⟩ | ⟨i, j, set', hc, ho, hx, hj⟩
    · exact Or.inl ⟨i, j, he.cellOf hc, he.object ho, (h.mem_pointsTo_absorbed hpop).mpr (Or.inl hj)⟩
    · rcases List.mem_cons.mp (hpop.mem_iff.mp hx) with hx | hx
      · cases hx
        exact Or.inl ⟨p, j, he.cellOf hc, he.object ho,
          (h.mem_pointsTo_absorbed hpop).mpr (Or.inr ⟨rfl, hj⟩)⟩
      · exact Or.inr ⟨i, j, set', he.cellOf hc, he.object ho, mem_absorbed.mpr (Or.inl hx), hj⟩
  | flows a b =>
    obtain ⟨i, j, ha, hb, hj⟩ := hf
    exact ⟨i, j, he.cellOf ha, he.cellOf hb, hj⟩
  | calls l =>
    obtain ⟨i, hi, hl⟩ := hf
    exact ⟨i, hi, he.link hl⟩

end Justified

theorem Waits.absorbed (h : s.Waits t) (hs : s.Justified t)
    (hpop : s.work.toList.Perm ((p, set) :: w.toList)) : (s.absorbed p set w).Waits t where
  flow i j hj o ho := by
    rw [hs.mem_pointsTo_absorbed hpop] at ho ⊢
    by_cases hold : o ∈ s.entities.pointsTo i
    · rcases h.flow i j hj o hold with ho | ⟨set', hset, ho⟩
      · exact Or.inl (Or.inl ho)
      · rcases List.mem_cons.mp (hpop.mem_iff.mp hset) with he | hset
        · cases he
          exact Or.inl (Or.inr ⟨rfl, ho⟩)
        · exact Or.inr ⟨set', mem_absorbed.mpr (Or.inl hset), ho⟩
    · -- `o` is new to `p`, so the whole set goes to its successors
      obtain ⟨rfl, hnew⟩ := ho.resolve_left hold
      exact Or.inr ⟨set, mem_absorbed.mpr (Or.inr ⟨⟨o, hnew, hold⟩, hj, rfl⟩), hnew⟩
  callee := h.callee
  entry hstart := hs.holds_absorbed hpop (h.entry hstart)

theorem Invariant.absorbed (h : s.Invariant t) (hpop : s.work.toList.Perm ((p, set) :: w.toList)) :
    (s.absorbed p set w).Invariant t :=
  ⟨h.justified.absorbed hpop, h.waits.absorbed h.justified hpop, h.counted, h.indexed, h.balance⟩

end State

end

/-! ## Taking a method -/

section
variable {t : Task} {s : State} {m : CSMethodId} {q : Queue CSMethodId}

theorem State.mem_admitted {i : CSMethodId} : i ∈ (s.admitted m q).calls.reachable.toList ↔
    i ∈ s.calls.reachable.toList ∨ i = m := by
  show i ∈ (s.calls.addReachable m).2.reachable.toList ↔ _
  rw [CallGraph.addReachable_reachable, Table.mem_insert]

theorem State.reachable_admitted : (s.admitted m q).calls.reachable.toList =
    if m ∈ s.calls.reachable.toList then s.calls.reachable.toList else s.calls.reachable.toList ++ [m] := by
  show (s.calls.addReachable m).2.reachable.toList = _
  rw [CallGraph.addReachable_reachable, Table.toList_insert]

variable (hpop : s.pending.toList = m :: q.toList)
include hpop

theorem State.holds_admitted {f : Fact} (hf : s.Holds f) : (s.admitted m q).Holds f := by
  cases f with
  | reaches frame =>
    rcases hf with ⟨i, hi, hm⟩ | ⟨i, hi, hm⟩
    · exact Or.inl ⟨i, mem_admitted.mpr (Or.inl hi), hm⟩
    · rw [hpop] at hi
      rcases List.mem_cons.mp hi with rfl | hi
      · exact Or.inl ⟨i, mem_admitted.mpr (Or.inr rfl), hm⟩
      · exact Or.inr ⟨i, hi, hm⟩
  | points c o => exact hf
  | flows a b => exact hf
  | calls l => exact hf

theorem State.Invariant.admitted (h : s.Invariant t) : (s.admitted m q).Invariant t where
  justified := by
    refine { h.justified with reachable := fun i hi => ?_, pending := fun i hi => ?_ }
    · rcases mem_admitted.mp hi with hi | rfl
      · exact h.justified.reachable i hi
      · exact h.justified.pending i (by simp [hpop])
    · exact h.justified.pending i (by simp [hpop, show i ∈ q.toList from hi])
  waits := by
    refine { h.waits with callee := fun e he => ?_, entry := fun hs => ?_ }
    · rw [mem_admitted]
      rcases h.waits.callee e he with hr | hp
      · exact Or.inl (Or.inl hr)
      · rw [hpop] at hp
        rcases List.mem_cons.mp hp with hm | hp
        · exact Or.inl (Or.inr hm)
        · exact Or.inr hp
    · exact holds_admitted hpop (h.waits.entry hs)
  counted := h.counted
  indexed := h.indexed
  balance := by
    have hb := h.balance
    have hl : s.pending.length = q.length + 1 := by
      rw [← Queue.length_toList, hpop, List.length_cons, Queue.length_toList]
    show q.length ≤ s.calls.edges.size + s.started.toNat
    omega

end

/-! ## Starting -/

section
variable {t : Task} {s : State}

theorem Task.derives_entry (t : Task) : t.Derives (.reaches ⟨t.selector.entry, t.world.entry⟩) :=
  .rule .entry

/-- The tables of the start: two moves. -/
theorem Path.launched (t : Task) (s : State) :
    Path t s { s with entities := (s.launched t).entities } := by
  have hframe := FrameOccurs.reached t.derives_entry
  refine .tail (.tail .refl (.context (.frame hframe))) ?_
  exact .method (m := ⟨_, t.world.entry⟩) (Entities.context?_intern _) hframe

theorem State.frameOf?_launched (t : Task) (s : State) : ∃ m,
    (s.launched t).pending = s.pending.push m ∧ (s.launched t).calls = s.calls.addEntry m ∧
    (s.launched t).entities.frameOf? m = some ⟨t.selector.entry, t.world.entry⟩ := by
  have hframe := Entities.frameOf?_intern (x := ⟨t.selector.entry, t.world.entry⟩)
    (Entities.context?_intern (e := s.entities) _)
  exact ⟨_, rfl, rfl, hframe⟩

theorem State.holds_launched {f : Fact} (hf : s.Holds f) : (s.launched t).Holds f := by
  have hf := (Path.launched t s).grows.holds hf
  cases f with
  | reaches frame =>
    rcases hf with hf | ⟨i, hi, hm⟩
    · exact Or.inl hf
    · refine Or.inr ⟨i, ?_, hm⟩
      show i ∈ (s.pending.push _).toList
      rw [Queue.toList_push]
      exact List.mem_append_left _ hi
  | points c o => exact hf
  | flows a b => exact hf
  | calls l => exact hf

theorem State.Invariant.launched (h : s.Invariant t) (hs : s.started = false) :
    (s.launched t).Invariant t := by
  have h' := (Path.launched t s).invariant h
  obtain ⟨m, hpending, _, hm⟩ := s.frameOf?_launched t
  have hmem : ∀ i, i ∈ (s.launched t).pending.toList ↔ i ∈ s.pending.toList ∨ i = m := by
    intro i
    rw [hpending, Queue.toList_push]
    simp
  constructor
  case justified =>
    refine { h'.justified with pending := fun i hi => ?_ }
    rcases (hmem i).mp hi with hi | rfl
    · exact h'.justified.pending i hi
    · exact ⟨_, hm, t.derives_entry⟩
  case waits =>
    refine { h'.waits with callee := fun e he => ?_, entry := fun _ => ?_ }
    · exact (h'.waits.callee e he).imp id fun hp => (hmem _).mpr (Or.inl hp)
    · exact Or.inr ⟨m, (hmem m).mpr (Or.inr rfl), hm⟩
  case counted => exact h'.counted
  case indexed => exact h'.indexed
  case balance =>
    have hb := h.balance
    rw [hs] at hb
    rw [hpending, ← Queue.length_toList, Queue.toList_push, List.length_append, Queue.length_toList]
    exact Nat.succ_le_succ hb

end

end PointsTo
