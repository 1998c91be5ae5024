import PointsTo.Proofs.Actions
import PointsTo.Proofs.Grounding
import PointsTo.Solver.Run

/-!
# The facts of a state

A state has the facts that its sets and graphs say, and it holds those that are
still waiting in the worklist or among the pending methods as well. A state is
justified if all that it holds can be derived.
-/

namespace PointsTo

/-! ## Tasks -/

namespace Task

structure Valid (t : Task) : Prop where
  world : t.world.Valid
  index : AccessIndex.ofHierarchy t.world.hierarchy = .ok t.index

section
variable {w : World} {sel : Selector} {limit : Nat} {t : Task} (h : new w sel limit = .ok t)
include h

theorem new_eq : t.world = w ∧ t.selector = sel ∧ t.limit = limit ∧
    AccessIndex.ofHierarchy w.hierarchy = .ok t.index := by
  obtain ⟨index, hi, h⟩ := except_bind_ok.mp h
  cases Except.ok.inj h
  exact ⟨rfl, rfl, rfl, hi⟩

theorem valid_of_new (hw : w.Valid) : t.Valid := by
  obtain ⟨rfl, _, _, hi⟩ := new_eq h
  exact ⟨hw, hi⟩

end

abbrev Derives (t : Task) (f : Fact) : Prop := PointsTo.Derives t.world t.selector f

end Task

/-! ## What a state has and holds -/

def Worklist.toList (w : Worklist) : List (PointerId × ObjSet) := w.entries.toList

@[simp] theorem Worklist.toList_push (w : Worklist) (p : PointerId) (set : ObjSet) :
    (w.push p set).toList = w.toList ++ [(p, set)] := by
  obtain ⟨order, entries⟩ := w
  exact entries.toList_push (p, set)

namespace State
variable (s : State)

def Reaches (m : Frame) : Prop := ∃ i ∈ s.calls.reachable.toList, s.entities.frameOf? i = some m

def Queues (m : Frame) : Prop := ∃ i ∈ s.pending.toList, s.entities.frameOf? i = some m

def Points (p : Cell) (o : Instance) : Prop :=
  ∃ i j, s.entities.cellOf? i = some p ∧ s.entities.objectOf? j = some o ∧ j ∈ s.entities.pointsTo i

def Awaits (p : Cell) (o : Instance) : Prop :=
  ∃ i j set, s.entities.cellOf? i = some p ∧ s.entities.objectOf? j = some o ∧
    (i, set) ∈ s.work.toList ∧ j ∈ set

def Flows (p q : Cell) : Prop :=
  ∃ i j, s.entities.cellOf? i = some p ∧ s.entities.cellOf? j = some q ∧ j ∈ s.flow.successors i

def Calls (e : Link) : Prop := ∃ i ∈ s.calls.edges.toList, s.entities.linkOf? i = some e

def Knows (p : Cell) : Prop := ∃ i, s.entities.cellOf? i = some p

def Has : Fact → Prop
  | .reaches m => s.Reaches m
  | .points p o => s.Points p o
  | .flows p q => s.Flows p q
  | .calls e => s.Calls e

def Holds : Fact → Prop
  | .reaches m => s.Reaches m ∨ s.Queues m
  | .points p o => s.Points p o ∨ s.Awaits p o
  | .flows p q => s.Flows p q
  | .calls e => s.Calls e

end State

/-! ## What occurs in a derivation -/

inductive FrameOccurs (t : Task) : Frame → Prop
  | reached {m : Frame} : t.Derives (.reaches m) → FrameOccurs t m
  /-- The target of a call is there even if it turns out to take no receiver. -/
  | target {c : Context} {site : StmtId} {call : Call} {o : Instance} {obj : Obj} {m : MethodId} :
      Dispatches t.world t.Derives c site call o obj m →
      FrameOccurs t ⟨t.selector.onObject c site o.heap o.obj obj m, m⟩

inductive ContextOccurs (t : Task) : Context → Prop
  | empty : ContextOccurs t .empty
  | frame {m : Frame} : FrameOccurs t m → ContextOccurs t m.context
  | heap {p : Cell} {o : Instance} : t.Derives (.points p o) → ContextOccurs t o.heap

inductive CellOccurs (t : Task) : Cell → Prop
  | source {p q : Cell} : t.Derives (.flows p q) → CellOccurs t p
  | target {p q : Cell} : t.Derives (.flows p q) → CellOccurs t q
  | holder {p : Cell} {o : Instance} : t.Derives (.points p o) → CellOccurs t p
  /-- The result of a call is there even if the callee returns nothing. -/
  | result {e : Link} {call : Call} {r : VarId} : t.Derives (.calls e) →
      t.world.program.stmt? e.site.stmt = some (.invoke call) → call.result = some r →
      CellOccurs t (.var e.caller.context r)

section
variable {t : Task} (ht : t.Valid)
include ht

theorem FrameOccurs.known {m : Frame} (h : FrameOccurs t m) :
    ∃ method, t.world.program.method? m.method = some method := by
  cases h with
  | reached hd => exact hd.grounded ht.world
  | target d => exact callee_known ht.world d.callee

theorem CellOccurs.grounded {p : Cell} (h : CellOccurs t p) : p.Grounded t.world t.selector := by
  cases h with
  | source hd => exact (hd.grounded ht.world).1
  | target hd => exact (hd.grounded ht.world).2
  | holder hd => exact (hd.grounded ht.world).1
  | result hd hs hr => exact (hd.grounded ht.world).defined ht.world hs hr

end

/-! ## Justified states -/

structure Entities.Justified (t : Task) (e : Entities) : Prop where
  contexts : ∀ c ∈ e.contexts.toList, ContextOccurs t c
  objs : ∀ x ∈ e.objs.toList, ∃ c, e.context? x.heap = some c ∧ ∃ p, t.Derives (.points p ⟨c, x.obj⟩)
  sites : ∀ x ∈ e.sites.toList, ∃ c, e.context? x.context = some c ∧
    ∃ i, t.Derives (.calls i) ∧ i.site = ⟨c, x.site⟩
  methods : ∀ x ∈ e.methods.toList, ∃ c, e.context? x.context = some c ∧ FrameOccurs t ⟨c, x.method⟩
  pointers : ∀ x ∈ e.pointers.toList, ∃ p, e.cell? x = some p ∧ CellOccurs t p
  sets : e.sets.size = e.pointers.size

def Entities.Supports (t : Task) (e : Entities) (i : PointerId) (set : ObjSet) : Prop :=
  ∀ j ∈ set, ∃ p o, e.cellOf? i = some p ∧ e.objectOf? j = some o ∧ t.Derives (.points p o)

structure State.Justified (t : Task) (s : State) : Prop where
  entities : s.entities.Justified t
  points : ∀ i, s.entities.Supports t i (s.entities.pointsTo i)
  work : ∀ x ∈ s.work.toList, s.entities.Supports t x.1 x.2 ∧ ∃ j, j ∈ x.2
  flows : ∀ i, ∀ j ∈ s.flow.successors i, ∃ p q, s.entities.cellOf? i = some p ∧
    s.entities.cellOf? j = some q ∧ t.Derives (.flows p q)
  calls : ∀ i ∈ s.calls.edges.toList, ∃ e, s.entities.linkOf? i = some e ∧ t.Derives (.calls e)
  reachable : ∀ i ∈ s.calls.reachable.toList, ∃ m, s.entities.frameOf? i = some m ∧
    t.Derives (.reaches m)
  pending : ∀ i ∈ s.pending.toList, ∃ m, s.entities.frameOf? i = some m ∧ t.Derives (.reaches m)

theorem Entities.Supports.mono {t : Task} {e e' : Entities} (h : Extends e e') {i : PointerId}
    {set : ObjSet} (hs : e.Supports t i set) : e'.Supports t i set := by
  intro j hj
  obtain ⟨p, o, hp, ho, hd⟩ := hs j hj
  exact ⟨p, o, h.cellOf hp, h.object ho, hd⟩

/-- The pointer of a cell has a set. -/
theorem Entities.Justified.set_lt {t : Task} {e : Entities} (h : e.Justified t) {i : PointerId} {p : Cell}
    (hi : e.cellOf? i = some p) : i.idx < e.sets.size := by
  obtain ⟨a, ha, _⟩ := cellOf?_eq_some.mp hi
  unfold pointer? at ha
  rw [Table.get?_eq] at ha
  rw [h.sets, Table.size_eq]
  exact (List.getElem?_eq_some_iff.mp ha).1

/-- All that a justified state holds is derivable. -/
theorem State.Justified.derives {t : Task} {s : State} (h : s.Justified t) {f : Fact}
    (hf : s.Holds f) : t.Derives f := by
  cases f with
  | reaches m =>
    rcases hf with ⟨i, hi, hm⟩ | ⟨i, hi, hm⟩
    · obtain ⟨m', hm', hd⟩ := h.reachable i hi
      cases hm.symm.trans hm'; exact hd
    · obtain ⟨m', hm', hd⟩ := h.pending i hi
      cases hm.symm.trans hm'; exact hd
  | points p o =>
    rcases hf with ⟨i, j, hp, ho, hj⟩ | ⟨i, j, set, hp, ho, hx, hj⟩
    · obtain ⟨p', o', hp', ho', hd⟩ := h.points i j hj
      cases hp.symm.trans hp'; cases ho.symm.trans ho'; exact hd
    · obtain ⟨p', o', hp', ho', hd⟩ := (h.work _ hx).1 j hj
      cases hp.symm.trans hp'; cases ho.symm.trans ho'; exact hd
  | flows p q =>
    obtain ⟨i, j, hp, hq, hj⟩ := hf
    obtain ⟨p', q', hp', hq', hd⟩ := h.flows i j hj
    cases hp.symm.trans hp'; cases hq.symm.trans hq'; exact hd
  | calls e =>
    obtain ⟨i, hi, he⟩ := hf
    obtain ⟨e', he', hd⟩ := h.calls i hi
    cases he.symm.trans he'; exact hd

end PointsTo
