import PointsTo.Proofs.Facts

/-!
# Moves

The rules of the analysis change a state by a few kinds of moves only. Each
move is backed by derivable facts. What every move keeps, every rule keeps,
whether it comes to its end or fails on the way.
-/

namespace PointsTo

namespace State

def connected (s : State) (p q : PointerId) : State :=
  { s with
    flow := (s.flow.addEdge p q).2
    work := if (s.flow.addEdge p q).1 && !(s.entities.pointsTo p).isEmpty
      then s.work.push q (s.entities.pointsTo p) else s.work }

def linked (s : State) (i : Edge CSCallSiteId CSMethodId) : State :=
  { s with
    calls := (s.calls.addEdge i).2
    pending := if (s.calls.addEdge i).1 then s.pending.push i.callee else s.pending }

theorem mem_linked {s : State} {i k : Edge CSCallSiteId CSMethodId} :
    k ∈ (s.linked i).calls.edges.toList ↔ k ∈ s.calls.edges.toList ∨ k = i := by
  rw [linked, CallGraph.addEdge_edges, Table.mem_insert]

def Makes (t : Task) (s : State) (o : Instance) : Prop :=
  ∃ c site obj, Allocates t.world t.selector c site o obj ∧ s.Reaches ⟨c, site.method⟩

end State

inductive Move (t : Task) (s : State) : State → Prop
  | context {c : Context} : ContextOccurs t c →
      Move t s { s with entities := (s.entities.internContext c).2 }
  | object {i : ContextId} {x : Instance} {p : Cell} : s.entities.context? i = some x.heap →
      t.Derives (.points p x) → s.Makes t x →
      Move t s { s with entities := (s.entities.internObj ⟨i, x.obj⟩).2 }
  | site {i : ContextId} {e : Link} : s.entities.context? i = some e.site.context →
      t.Derives (.calls e) → Move t s { s with entities := (s.entities.internSite ⟨i, e.site.stmt⟩).2 }
  | method {i : ContextId} {m : Frame} : s.entities.context? i = some m.context →
      FrameOccurs t m →
      Move t s { s with entities := (s.entities.internMethod ⟨i, m.method⟩).2 }
  | pointer {x : Pointer} {p : Cell} : s.entities.cell? x = some p → CellOccurs t p →
      Move t s { s with entities := (s.entities.internPointer x).2 }
  | connect {i j : PointerId} {p q : Cell} : s.entities.cellOf? i = some p →
      s.entities.cellOf? j = some q → t.Derives (.flows p q) → Move t s (s.connected i j)
  | seed {i : PointerId} {j : CSObjId} {p : Cell} {o : Instance} : s.entities.cellOf? i = some p →
      s.entities.objectOf? j = some o → t.Derives (.points p o) →
      Move t s { s with work := s.work.push i (.singleton j) }
  | link {i : Edge CSCallSiteId CSMethodId} {e : Link} : s.entities.linkOf? i = some e →
      t.Derives (.calls e) → Move t s (s.linked i)
  | miss : Move t s { s with unresolved := s.unresolved + 1 }

inductive Path (t : Task) (s : State) : State → Prop
  | refl : Path t s s
  | tail {s₁ s' : State} : Path t s s₁ → Move t s₁ s' → Path t s s'

theorem Path.trans {t : Task} {s s₁ s' : State} (h : Path t s s₁) (h' : Path t s₁ s') : Path t s s' := by
  induction h' with
  | refl => exact h
  | tail _ m ih => exact ih.tail m

/-! ## What grows and what stays -/

structure Grows (s s' : State) : Prop where
  entities : s.entities.Extends s'.entities
  pointsTo : ∀ i, s'.entities.pointsTo i = s.entities.pointsTo i
  successors : ∀ i, s.flow.successors i <+: s'.flow.successors i
  edges : s.calls.edges.toList <+: s'.calls.edges.toList
  reachable : s'.calls.reachable = s.calls.reachable
  work : s.work.toList <+: s'.work.toList
  order : s'.work.order = s.work.order
  pending : s.pending.toList <+: s'.pending.toList
  /-- A method is pending for each new call edge. -/
  balance : s'.pending.length + s.calls.edges.size = s.pending.length + s'.calls.edges.size
  popped : s'.popped = s.popped
  effective : s'.effective = s.effective
  started : s'.started = s.started

namespace Grows
variable {s s' s'' : State}

theorem refl (s : State) : Grows s s :=
  ⟨.refl _, fun _ => rfl, fun _ => List.prefix_rfl, List.prefix_rfl, rfl, List.prefix_rfl, rfl,
    List.prefix_rfl, rfl, rfl, rfl, rfl⟩

theorem trans (h : Grows s s') (h' : Grows s' s'') : Grows s s'' where
  entities := h.entities.trans h'.entities
  pointsTo i := (h'.pointsTo i).trans (h.pointsTo i)
  successors i := (h.successors i).trans (h'.successors i)
  edges := h.edges.trans h'.edges
  reachable := h'.reachable.trans h.reachable
  work := h.work.trans h'.work
  order := h'.order.trans h.order
  pending := h.pending.trans h'.pending
  balance := by have := h.balance; have := h'.balance; omega
  popped := h'.popped.trans h.popped
  effective := h'.effective.trans h.effective
  started := h'.started.trans h.started

theorem of_entities {e : Entities} (he : s.entities.Extends e)
    (hp : ∀ i, e.pointsTo i = s.entities.pointsTo i) : Grows s { s with entities := e } :=
  { refl s with entities := he, pointsTo := hp }

theorem connected (s : State) (p q : PointerId) : Grows s (s.connected p q) := by
  refine { refl s with successors := fun i => ?_, work := ?_, order := ?_ }
  · exact FlowGraph.prefix_successors_addEdge
  · unfold State.connected
    dsimp only
    split
    · rw [Worklist.toList_push]; exact List.prefix_append _ _
    · exact List.prefix_rfl
  · unfold State.connected
    dsimp only
    split <;> rfl

theorem linked (s : State) (i : Edge CSCallSiteId CSMethodId) : Grows s (s.linked i) := by
  refine { refl s with edges := ?_, reachable := ?_, pending := ?_, balance := ?_ }
  · show _ <+: (s.calls.addEdge i).2.edges.toList
    rw [CallGraph.addEdge_edges]
    exact Table.prefix_insert _ _
  · exact s.calls.addEdge_reachable i
  · unfold State.linked
    dsimp only
    split
    · rw [Queue.toList_push]; exact List.prefix_append _ _
    · exact List.prefix_rfl
  · unfold State.linked
    dsimp only
    rw [CallGraph.addEdge_fst, CallGraph.addEdge_edges, Table.size_eq, Table.size_eq,
      Table.toList_insert, ← Queue.length_toList, ← Queue.length_toList]
    by_cases hi : i ∈ s.calls.edges.toList
    · simp [hi]
    · simp [hi]; omega

end Grows

theorem Move.grows {t : Task} {s s' : State} (m : Move t s s') : Grows s s' := by
  cases m with
  | context _ => exact .of_entities (s.entities.extends_internContext _) fun _ => rfl
  | object _ _ _ => exact .of_entities (s.entities.extends_internObj _) fun _ => rfl
  | site _ _ => exact .of_entities (s.entities.extends_internSite _) fun _ => rfl
  | method _ _ => exact .of_entities (s.entities.extends_internMethod _) fun _ => rfl
  | pointer _ _ =>
    exact .of_entities (s.entities.extends_internPointer _) fun i => Entities.pointsTo_internPointer _ i
  | connect _ _ _ => exact .connected s _ _
  | seed _ _ _ =>
    refine { Grows.refl s with work := ?_, order := rfl }
    rw [Worklist.toList_push]; exact List.prefix_append _ _
  | link _ _ => exact .linked s _
  | miss => exact { Grows.refl s with }

theorem Path.grows {t : Task} {s s' : State} (h : Path t s s') : Grows s s' := by
  induction h with
  | refl => exact .refl s
  | tail _ m ih => exact ih.trans m.grows

/-! ## Facts are kept -/

section
variable {s s' : State}

theorem Grows.reaches {s s' : State} (h : Grows s s') {m : Frame} (hm : s.Reaches m) : s'.Reaches m := by
  obtain ⟨i, hi, hf⟩ := hm
  exact ⟨i, h.reachable ▸ hi, h.entities.frame hf⟩

theorem Grows.flows (h : Grows s s') {p q : Cell} : s.Flows p q → s'.Flows p q := by
  rintro ⟨i, j, hp, hq, hj⟩
  exact ⟨i, j, h.entities.cellOf hp, h.entities.cellOf hq, (h.successors i).subset hj⟩

theorem Grows.calls (h : Grows s s') {e : Link} : s.Calls e → s'.Calls e := by
  rintro ⟨i, hi, he⟩
  exact ⟨i, h.edges.subset hi, h.entities.link he⟩

theorem Grows.knows (h : Grows s s') {p : Cell} : s.Knows p → s'.Knows p := by
  rintro ⟨i, hi⟩
  exact ⟨i, h.entities.cellOf hi⟩

theorem Grows.holds (h : Grows s s') {f : Fact} (hf : s.Holds f) : s'.Holds f := by
  cases f with
  | reaches m =>
    rcases hf with ⟨i, hi, hm⟩ | ⟨i, hi, hm⟩
    · exact Or.inl ⟨i, h.reachable ▸ hi, h.entities.frame hm⟩
    · exact Or.inr ⟨i, h.pending.subset hi, h.entities.frame hm⟩
  | points p o =>
    rcases hf with ⟨i, j, hp, ho, hj⟩ | ⟨i, j, set, hp, ho, hx, hj⟩
    · exact Or.inl ⟨i, j, h.entities.cellOf hp, h.entities.object ho, (h.pointsTo i).symm ▸ hj⟩
    · exact Or.inr ⟨i, j, set, h.entities.cellOf hp, h.entities.object ho, h.work.subset hx, hj⟩
  | flows p q => exact h.flows hf
  | calls e => exact h.calls hf

end

/-! ## Justification is kept -/

namespace Entities.Justified
variable {t : Task} {e e' : Entities} (h : e.Justified t)
include h

theorem lift_obj (he : Extends e e') {x : CSObj} (hx : x ∈ e.objs.toList) :
    ∃ c, e'.context? x.heap = some c ∧ ∃ p, t.Derives (.points p ⟨c, x.obj⟩) :=
  (h.objs x hx).imp fun _ hc => ⟨he.context hc.1, hc.2⟩

theorem lift_site (he : Extends e e') {x : CSCallSite} (hx : x ∈ e.sites.toList) :
    ∃ c, e'.context? x.context = some c ∧ ∃ i, t.Derives (.calls i) ∧ i.site = ⟨c, x.site⟩ :=
  (h.sites x hx).imp fun _ hc => ⟨he.context hc.1, hc.2⟩

theorem lift_method (he : Extends e e') {x : CSMethod} (hx : x ∈ e.methods.toList) :
    ∃ c, e'.context? x.context = some c ∧ FrameOccurs t ⟨c, x.method⟩ :=
  (h.methods x hx).imp fun _ hc => ⟨he.context hc.1, hc.2⟩

theorem lift_pointer (he : Extends e e') {x : Pointer} (hx : x ∈ e.pointers.toList) :
    ∃ p, e'.cell? x = some p ∧ CellOccurs t p :=
  (h.pointers x hx).imp fun _ hp => ⟨he.cell hp.1, hp.2⟩

theorem internContext {c : Context} (hc : ContextOccurs t c) :
    (e.internContext c).2.Justified t where
  contexts x hx := (Table.mem_intern.mp hx).elim (h.contexts x) fun hxc => hxc ▸ hc
  objs _ := h.lift_obj (e.extends_internContext c)
  sites _ := h.lift_site (e.extends_internContext c)
  methods _ := h.lift_method (e.extends_internContext c)
  pointers _ := h.lift_pointer (e.extends_internContext c)
  sets := h.sets

theorem internObj {i : ContextId} {x : Instance} {p : Cell} (hi : e.context? i = some x.heap)
    (hd : t.Derives (.points p x)) : (e.internObj ⟨i, x.obj⟩).2.Justified t where
  contexts := h.contexts
  objs y hy := by
    rcases Table.mem_intern.mp hy with hy | rfl
    · exact h.lift_obj (e.extends_internObj _) hy
    · exact ⟨x.heap, hi, p, hd⟩
  sites _ := h.lift_site (e.extends_internObj _)
  methods _ := h.lift_method (e.extends_internObj _)
  pointers _ := h.lift_pointer (e.extends_internObj _)
  sets := h.sets

theorem internSite {i : ContextId} {l : Link} (hi : e.context? i = some l.site.context)
    (hd : t.Derives (.calls l)) : (e.internSite ⟨i, l.site.stmt⟩).2.Justified t where
  contexts := h.contexts
  objs _ := h.lift_obj (e.extends_internSite _)
  sites y hy := by
    rcases Table.mem_intern.mp hy with hy | rfl
    · exact h.lift_site (e.extends_internSite _) hy
    · exact ⟨l.site.context, hi, l, hd, rfl⟩
  methods _ := h.lift_method (e.extends_internSite _)
  pointers _ := h.lift_pointer (e.extends_internSite _)
  sets := h.sets

theorem internMethod {i : ContextId} {m : Frame} (hi : e.context? i = some m.context)
    (hd : FrameOccurs t m) : (e.internMethod ⟨i, m.method⟩).2.Justified t where
  contexts := h.contexts
  objs _ := h.lift_obj (e.extends_internMethod _)
  sites _ := h.lift_site (e.extends_internMethod _)
  methods y hy := by
    rcases Table.mem_intern.mp hy with hy | rfl
    · exact h.lift_method (e.extends_internMethod _) hy
    · exact ⟨m.context, hi, hd⟩
  pointers _ := h.lift_pointer (e.extends_internMethod _)
  sets := h.sets

theorem internPointer {x : Pointer} {p : Cell} (hx : e.cell? x = some p) (hp : CellOccurs t p) :
    (e.internPointer x).2.Justified t := by
  have he := e.extends_internPointer x
  have hc : (e.internPointer x).2.contexts = e.contexts ∧ (e.internPointer x).2.objs = e.objs ∧
      (e.internPointer x).2.sites = e.sites ∧ (e.internPointer x).2.methods = e.methods := by
    unfold Entities.internPointer
    dsimp only
    split <;> exact ⟨rfl, rfl, rfl, rfl⟩
  constructor
  case contexts => rw [hc.1]; exact h.contexts
  case objs => rw [hc.2.1]; exact fun _ => h.lift_obj he
  case sites => rw [hc.2.2.1]; exact fun _ => h.lift_site he
  case methods => rw [hc.2.2.2]; exact fun _ => h.lift_method he
  case pointers =>
    intro y hy
    rw [internPointer_pointers] at hy
    rcases Table.mem_intern.mp hy with hy | rfl
    · exact h.lift_pointer he hy
    · exact ⟨p, he.cell hx, hp⟩
  case sets => exact size_sets_internPointer x h.sets

end Entities.Justified

/-- What flows from `p` to `q` is derivable at `q`. -/
theorem Entities.Supports.flow {t : Task} {e : Entities} {i j : PointerId} {set : ObjSet}
    (h : e.Supports t i set) {p q : Cell} (hi : e.cellOf? i = some p) (hj : e.cellOf? j = some q)
    (hd : t.Derives (.flows p q)) : e.Supports t j set := by
  intro k hk
  obtain ⟨p', o, hp', ho, ho'⟩ := h k hk
  cases hi.symm.trans hp'
  exact ⟨q, o, hj, ho, hd.flow ho'⟩

namespace State.Justified
variable {t : Task} {s : State} (h : s.Justified t)
include h

theorem of_entities {e : Entities} (he : s.entities.Extends e)
    (hp : ∀ i, e.pointsTo i = s.entities.pointsTo i) (hj : e.Justified t) :
    ({ s with entities := e } : State).Justified t where
  entities := hj
  points i := by
    show e.Supports t i (e.pointsTo i)
    rw [hp]; exact (h.points i).mono he
  work x hx := ⟨(h.work x hx).1.mono he, (h.work x hx).2⟩
  flows i j hj := by
    obtain ⟨p, q, hp, hq, hd⟩ := h.flows i j hj
    exact ⟨p, q, he.cellOf hp, he.cellOf hq, hd⟩
  calls i hi := (h.calls i hi).imp fun _ hl => ⟨he.link hl.1, hl.2⟩
  reachable i hi := (h.reachable i hi).imp fun _ hm => ⟨he.frame hm.1, hm.2⟩
  pending i hi := (h.pending i hi).imp fun _ hm => ⟨he.frame hm.1, hm.2⟩

theorem connected {i j : PointerId} {p q : Cell} (hi : s.entities.cellOf? i = some p)
    (hj : s.entities.cellOf? j = some q) (hd : t.Derives (.flows p q)) :
    (s.connected i j).Justified t := by
  refine { h with work := fun x hx => ?_, flows := fun k l hl => ?_ }
  · unfold State.connected at hx
    dsimp only at hx
    split at hx
    · rename_i hn
      rw [Worklist.toList_push, List.mem_append, List.mem_singleton] at hx
      rcases hx with hx | rfl
      · exact h.work x hx
      · refine ⟨(h.points i).flow hi hj hd, ?_⟩
        simp only [Bool.and_eq_true, Bool.not_eq_true'] at hn
        by_contra hne
        have := ObjSet.isEmpty_iff.mpr fun o ho => hne ⟨o, ho⟩
        rw [this] at hn
        exact absurd hn.2 (by simp)
    · exact h.work x hx
  · rcases FlowGraph.mem_successors_addEdge.mp hl with hl | ⟨rfl, rfl⟩
    · exact h.flows k l hl
    · exact ⟨p, q, hi, hj, hd⟩

theorem linked {i : Edge CSCallSiteId CSMethodId} {e : Link} (hi : s.entities.linkOf? i = some e)
    (hd : t.Derives (.calls e)) : (s.linked i).Justified t := by
  refine { h with calls := fun k hk => ?_, reachable := ?_, pending := fun k hk => ?_ }
  · rcases State.mem_linked.mp hk with hk | rfl
    · exact h.calls k hk
    · exact ⟨e, hi, hd⟩
  · rw [State.linked, CallGraph.addEdge_reachable]
    exact h.reachable
  · unfold State.linked at hk
    dsimp only at hk
    split at hk
    · rw [Queue.toList_push, List.mem_append, List.mem_singleton] at hk
      rcases hk with hk | rfl
      · exact h.pending k hk
      · exact ⟨e.callee, (Entities.linkOf?_eq_some.mp hi).2.2.2, hd.callee⟩
    · exact h.pending k hk

theorem seed {i : PointerId} {j : CSObjId} {p : Cell} {o : Instance}
    (hi : s.entities.cellOf? i = some p) (hj : s.entities.objectOf? j = some o)
    (hd : t.Derives (.points p o)) :
    ({ s with work := s.work.push i (.singleton j) } : State).Justified t := by
  refine { h with work := fun x hx => ?_ }
  rw [Worklist.toList_push, List.mem_append, List.mem_singleton] at hx
  rcases hx with hx | rfl
  · exact h.work x hx
  · refine ⟨fun k hk => ?_, j, List.mem_singleton.mpr rfl⟩
    cases List.mem_singleton.mp hk
    exact ⟨p, o, hi, hj, hd⟩

end State.Justified

theorem Move.justified {t : Task} {s s' : State} (m : Move t s s') (h : s.Justified t) :
    s'.Justified t := by
  have hg := m.grows
  cases m with
  | context hc => exact h.of_entities hg.entities hg.pointsTo (h.entities.internContext hc)
  | object hi hd _ => exact h.of_entities hg.entities hg.pointsTo (h.entities.internObj hi hd)
  | site hi hd => exact h.of_entities hg.entities hg.pointsTo (h.entities.internSite hi hd)
  | method hi hd => exact h.of_entities hg.entities hg.pointsTo (h.entities.internMethod hi hd)
  | pointer hx hp => exact h.of_entities hg.entities hg.pointsTo (h.entities.internPointer hx hp)
  | connect hi hj hd => exact h.connected hi hj hd
  | seed hi hj hd => exact h.seed hi hj hd
  | link hi hd => exact h.linked hi hd
  | miss => exact { h with }

theorem Path.justified {t : Task} {s s' : State} (p : Path t s s') (h : s.Justified t) :
    s'.Justified t := by
  induction p with
  | refl => exact h
  | tail _ m ih => exact m.justified ih

/-! ## Nothing is forgotten -/

/-- What an edge has not passed on is in the worklist, and what a call has not entered is pending. -/
structure State.Waits (t : Task) (s : State) : Prop where
  flow : ∀ i, ∀ j ∈ s.flow.successors i, ∀ k ∈ s.entities.pointsTo i,
    k ∈ s.entities.pointsTo j ∨ ∃ set, (j, set) ∈ s.work.toList ∧ k ∈ set
  callee : ∀ e ∈ s.calls.edges.toList,
    e.callee ∈ s.calls.reachable.toList ∨ e.callee ∈ s.pending.toList
  entry : s.started = true → s.Holds (.reaches ⟨t.selector.entry, t.world.entry⟩)

namespace State.Waits
variable {t : Task} {s s' : State} (h : s.Waits t)
include h

/-- Moves that add no edge. -/
theorem of_grows (hg : Grows s s') (hf : s'.flow = s.flow) (hc : s'.calls = s.calls) : s'.Waits t where
  flow i j hj k hk := by
    rw [hf] at hj
    rw [hg.pointsTo] at hk ⊢
    rcases h.flow i j hj k hk with hk | ⟨set, hset, hk⟩
    · exact Or.inl hk
    · exact Or.inr ⟨set, hg.work.subset hset, hk⟩
  callee e he := by
    rw [hc] at he ⊢
    exact (h.callee e he).imp id fun hp => hg.pending.subset hp
  entry hs := hg.holds (h.entry (hg.started ▸ hs))

theorem connected (i j : PointerId) : (s.connected i j).Waits t where
  flow k l hl o ho := by
    have hg := Grows.connected s i j
    by_cases hold : l ∈ s.flow.successors k
    · rcases h.flow k l hold o ho with ho | ⟨set, hset, ho⟩
      · exact Or.inl ho
      · exact Or.inr ⟨set, hg.work.subset hset, ho⟩
    · -- the edge is new, so all that its source holds was pushed
      obtain ⟨rfl, rfl⟩ := (FlowGraph.mem_successors_addEdge.mp hl).resolve_left hold
      have hne : (s.entities.pointsTo k).isEmpty = false :=
        Bool.eq_false_iff.mpr fun he => ObjSet.isEmpty_iff.mp he o ho
      refine Or.inr ⟨s.entities.pointsTo k, ?_, ho⟩
      simp [State.connected, FlowGraph.addEdge_fst, hold, hne]
  callee := h.callee
  entry hs := (Grows.connected s i j).holds (h.entry hs)

theorem linked (i : Edge CSCallSiteId CSMethodId) : (s.linked i).Waits t where
  flow := h.flow
  callee e he := by
    have hg := Grows.linked s i
    rw [hg.reachable]
    by_cases hold : e ∈ s.calls.edges.toList
    · exact (h.callee e hold).imp id fun hp => hg.pending.subset hp
    · -- the edge is new, so its callee has just been queued
      cases (State.mem_linked.mp he).resolve_left hold
      right
      simp [State.linked, CallGraph.addEdge_fst, hold]
  entry hs := (Grows.linked s i).holds (h.entry hs)

end State.Waits

theorem Move.waits {t : Task} {s s' : State} (m : Move t s s') (h : s.Waits t) : s'.Waits t := by
  have hg := m.grows
  cases m with
  | connect _ _ _ => exact h.connected _ _
  | link _ _ => exact h.linked _
  | _ => exact h.of_grows hg rfl rfl

theorem Path.waits {t : Task} {s s' : State} (p : Path t s s') (h : s.Waits t) : s'.Waits t := by
  induction p with
  | refl => exact h
  | tail _ m ih => exact m.waits ih

end PointsTo
