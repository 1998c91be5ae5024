import PointsTo.Proofs.Invariants
import PointsTo.Proofs.Selectors

/-!
# How large a state can grow

With finitely many contexts there are finitely many handles of each sort. The
bounds are given in one number, the span of the world, which is a power of two
with an exponent linear in the size of the world and the depth of the contexts.
-/

namespace PointsTo

theorem Table.size_le {α : Type} [DecidableEq α] [Hashable α] (t : Table α) {l : List α}
    (h : ∀ x ∈ t.toList, x ∈ l) : t.size ≤ l.length := by
  rw [t.size_eq]
  exact (List.subperm_of_subset t.nodup_toList h).length_le

def idsBelow {e : Entity} (n : Nat) : List (Id e) := (List.range n).map Id.mk

theorem mem_idsBelow {e : Entity} {n : Nat} {i : Id e} : i ∈ idsBelow n ↔ i.idx < n := by
  unfold idsBelow
  rw [List.mem_map]
  constructor
  · rintro ⟨j, hj, rfl⟩
    exact List.mem_range.mp hj
  · intro hi
    exact ⟨i.idx, List.mem_range.mpr hi, rfl⟩

@[simp] theorem length_idsBelow {e : Entity} (n : Nat) : (idsBelow n : List (Id e)).length = n := by
  simp [idsBelow]

theorem nodup_idsBelow {e : Entity} (n : Nat) : (idsBelow n : List (Id e)).Nodup :=
  List.nodup_range.map fun _ _ h => Id.mk.inj h

theorem Table.lt_size {α : Type} [DecidableEq α] [Hashable α] {t : Table α} {i : Nat} {x : α}
    (h : t.get? i = some x) : i < t.size := (Array.getElem?_eq_some_iff.mp h).1

namespace World
variable (w : World)

def size : Nat :=
  w.program.classes.size + w.program.methods.size + w.program.fields.size + w.program.vars.size +
    w.program.stmts.length + w.heap.objects.size + 1

def span (k : Nat) : Nat := 2 ^ (w.size * (k + 1))

theorem limitFor_eq (k : Nat) : Task.limitFor w k = 32 * w.size * (k + 1) := rfl

theorem one_le_span (k : Nat) : 1 ≤ w.span k := Nat.one_le_two_pow

theorem size_le_span (k : Nat) : w.size ≤ w.span k := by
  refine Nat.le_trans (Nat.le_of_lt Nat.lt_two_pow_self) (Nat.pow_le_pow_right (by decide) ?_)
  exact Nat.le_mul_of_pos_right _ (Nat.succ_pos k)

/-- Few contexts, even if each comes with any part of the world. -/
theorem contexts_mul_size_le {l : List Context} {k : Nat} (hl : l.Nodup)
    (h : ∀ c ∈ l, c.Within w k) : l.length * w.size ≤ w.span k := by
  have hn : w.elements.length + 1 ≤ 2 ^ w.size := by
    have h₁ : w.elements.length + 1 ≤ 2 * w.size := by
      simp only [elements, List.length_append, List.length_map, Array.length_toList, Heap.objIds,
        List.length_range, size]
      omega
    obtain ⟨m, hm⟩ : ∃ m, w.size = m + 1 := ⟨_, rfl⟩
    have h₂ : m < 2 ^ m := Nat.lt_two_pow_self
    rw [hm] at h₁ ⊢
    rw [pow_succ]
    omega
  calc l.length * w.size
      ≤ (2 ^ w.size) ^ k * 2 ^ w.size :=
        Nat.mul_le_mul (Nat.le_trans (Context.length_le_of_within hl h) (Nat.pow_le_pow_left hn k))
          (Nat.le_of_lt Nat.lt_two_pow_self)
    _ = w.span k := by
        unfold span
        rw [← pow_succ, ← pow_mul]

end World

/-! ## Handles -/

namespace Entities.Justified
variable {t : Task} {e : Entities} (h : e.Justified t) (ht : t.Valid)

theorem lt_of_context {c : ContextId} {x : Context} (hc : e.context? c = some x) :
    c.idx < e.contexts.size := Table.lt_size hc

theorem lt_of_object {o : CSObjId} {x : Instance} (ho : e.objectOf? o = some x) :
    o.idx < e.objs.size := by
  obtain ⟨_, ho, _⟩ := objectOf?_eq_some.mp ho
  exact Table.lt_size ho

theorem lt_of_frame {m : CSMethodId} {x : Frame} (hm : e.frameOf? m = some x) :
    m.idx < e.methods.size := by
  obtain ⟨_, hm, _⟩ := frameOf?_eq_some.mp hm
  exact Table.lt_size hm

theorem lt_of_site {i : CSCallSiteId} {x : Site} (hi : e.siteOf? i = some x) :
    i.idx < e.sites.size := by
  obtain ⟨_, hi, _⟩ := siteOf?_eq_some.mp hi
  exact Table.lt_size hi

theorem lt_of_cell {p : PointerId} {x : Cell} (hp : e.cellOf? p = some x) :
    p.idx < e.pointers.size := by
  obtain ⟨_, hp, _⟩ := cellOf?_eq_some.mp hp
  exact Table.lt_size hp

include h ht

theorem size_objs_le : e.objs.size ≤ e.contexts.size * t.world.heap.objects.size := by
  refine Nat.le_trans (e.objs.size_le (l := (idsBelow e.contexts.size ×ˢ
    idsBelow t.world.heap.objects.size).map fun x => ⟨x.1, x.2⟩) fun x hx => ?_) ?_
  · obtain ⟨c, hc, p, hd⟩ := h.objs x hx
    obtain ⟨_, obj, hobj⟩ := hd.grounded ht.world
    refine List.mem_map.mpr ⟨(x.heap, x.obj), List.mem_product.mpr ⟨?_, ?_⟩, rfl⟩
    · exact mem_idsBelow.mpr (lt_of_context hc)
    · exact mem_idsBelow.mpr (Array.getElem?_eq_some_iff.mp hobj).1
  · rw [List.length_map, List.length_product, length_idsBelow, length_idsBelow]

theorem size_methods_le : e.methods.size ≤ e.contexts.size * t.world.program.methods.size := by
  refine Nat.le_trans (e.methods.size_le (l := (idsBelow e.contexts.size ×ˢ
    idsBelow t.world.program.methods.size).map fun x => ⟨x.1, x.2⟩) fun x hx => ?_) ?_
  · obtain ⟨c, hc, hf⟩ := h.methods x hx
    obtain ⟨method, hm⟩ := hf.known ht
    refine List.mem_map.mpr ⟨(x.context, x.method), List.mem_product.mpr ⟨?_, ?_⟩, rfl⟩
    · exact mem_idsBelow.mpr (lt_of_context hc)
    · exact mem_idsBelow.mpr (Array.getElem?_eq_some_iff.mp hm).1
  · rw [List.length_map, List.length_product, length_idsBelow, length_idsBelow]

theorem size_sites_le : e.sites.size ≤ e.contexts.size * t.world.program.stmts.length := by
  refine Nat.le_trans (e.sites.size_le (l := (idsBelow e.contexts.size ×ˢ
    t.world.program.stmts).map fun x => ⟨x.1, x.2.1⟩) fun x hx => ?_) ?_
  · obtain ⟨c, hc, l, hd, hl⟩ := h.sites x hx
    obtain ⟨call, _, hj⟩ := (hd.grounded ht.world).joins
    have hs := hj.stmt
    rw [hl] at hs
    refine List.mem_map.mpr ⟨(x.context, x.site, .invoke call), List.mem_product.mpr ⟨?_, ?_⟩, rfl⟩
    · exact mem_idsBelow.mpr (lt_of_context hc)
    · exact Program.mem_stmts.mpr hs
  · rw [List.length_map, List.length_product, length_idsBelow]

theorem size_pointers_le : e.pointers.size ≤ e.contexts.size * t.world.program.vars.size +
    t.world.program.fields.size + e.objs.size * t.world.program.fields.size + e.objs.size := by
  refine Nat.le_trans (e.pointers.size_le (l :=
    (idsBelow e.contexts.size ×ˢ idsBelow t.world.program.vars.size).map (fun x => .var x.1 x.2) ++
    (idsBelow t.world.program.fields.size).map .staticField ++
    (idsBelow e.objs.size ×ˢ idsBelow t.world.program.fields.size).map
      (fun x => .instanceField x.1 x.2) ++
    (idsBelow e.objs.size).map .arrayIndex) fun x hx => ?_) ?_
  · obtain ⟨p, hp, hocc⟩ := h.pointers x hx
    have hg := hocc.grounded ht
    simp only [List.mem_append, List.mem_map]
    cases p with
    | var c v =>
      obtain ⟨i, rfl, hi⟩ := cell?_eq_var.mp hp
      obtain ⟨m, hm, _⟩ := hg
      obtain ⟨var, hv, _⟩ := Option.map_eq_some_iff.mp hm
      refine Or.inl (Or.inl (Or.inl ⟨(i, v), List.mem_product.mpr ⟨?_, ?_⟩, rfl⟩))
      · exact mem_idsBelow.mpr (lt_of_context hi)
      · exact mem_idsBelow.mpr (Array.getElem?_eq_some_iff.mp hv).1
    | staticField f =>
      cases cell?_eq_staticField.mp hp
      obtain ⟨field, hf⟩ := hg
      exact Or.inl (Or.inl (Or.inr ⟨f, mem_idsBelow.mpr (Array.getElem?_eq_some_iff.mp hf).1, rfl⟩))
    | instanceField o f =>
      obtain ⟨i, rfl, hi⟩ := cell?_eq_instanceField.mp hp
      obtain ⟨_, field, hf⟩ := hg
      refine Or.inl (Or.inr ⟨(i, f), List.mem_product.mpr ⟨?_, ?_⟩, rfl⟩)
      · exact mem_idsBelow.mpr (lt_of_object hi)
      · exact mem_idsBelow.mpr (Array.getElem?_eq_some_iff.mp hf).1
    | arrayIndex o =>
      obtain ⟨i, rfl, hi⟩ := cell?_eq_arrayIndex.mp hp
      exact Or.inr ⟨i, mem_idsBelow.mpr (lt_of_object hi), rfl⟩
  · simp only [List.length_append, List.length_map, List.length_product, length_idsBelow]
    exact Nat.le_refl _

end Entities.Justified

/-! ## Edges -/

def EdgeKind.all : List EdgeKind := [.static, .special, .virtual, .interface, .dynamic, .other]

theorem EdgeKind.mem_all (k : EdgeKind) : k ∈ all := by cases k <;> decide

namespace State.Justified
variable {t : Task} {s : State} (h : s.Justified t)
include h

theorem size_edges_le : s.calls.edges.size ≤
    6 * (s.entities.methods.size * (s.entities.sites.size * s.entities.methods.size)) := by
  refine Nat.le_trans (s.calls.edges.size_le (l := (EdgeKind.all ×ˢ
    (idsBelow s.entities.methods.size ×ˢ (idsBelow s.entities.sites.size ×ˢ
      idsBelow s.entities.methods.size))).map fun x => ⟨x.1, x.2.1, x.2.2.1, x.2.2.2⟩) fun x hx => ?_) ?_
  · obtain ⟨l, hl, _⟩ := h.calls x hx
    obtain ⟨_, hcaller, hsite, hcallee⟩ := Entities.linkOf?_eq_some.mp hl
    refine List.mem_map.mpr ⟨(x.kind, x.caller, x.site, x.callee), ?_, rfl⟩
    simp only [List.mem_product, mem_idsBelow]
    exact ⟨EdgeKind.mem_all _, Entities.Justified.lt_of_frame hcaller,
      Entities.Justified.lt_of_site hsite, Entities.Justified.lt_of_frame hcallee⟩
  · simp only [List.length_map, List.length_product, length_idsBelow]
    exact Nat.le_refl _

theorem size_reachable_le : s.calls.reachable.size ≤ s.entities.methods.size := by
  refine Nat.le_trans (s.calls.reachable.size_le (l := idsBelow s.entities.methods.size)
    fun m hm => ?_) (Nat.le_of_eq (length_idsBelow _))
  obtain ⟨f, hf, _⟩ := h.reachable m hm
  exact mem_idsBelow.mpr (Entities.Justified.lt_of_frame hf)

theorem length_successors_le (hc : s.flow.Counted) (p : PointerId) :
    (s.flow.successors p).length ≤ s.entities.pointers.size := by
  have hs : s.flow.successors p ⊆ idsBelow s.entities.pointers.size := by
    intro q hq
    obtain ⟨_, _, _, hq, _⟩ := h.flows p q hq
    exact mem_idsBelow.mpr (Entities.Justified.lt_of_cell hq)
  have hle := (List.subperm_of_subset (hc.nodup p) hs).length_le
  rwa [length_idsBelow] at hle

theorem edgeCount_eq (hc : s.flow.Counted) : s.flow.edgeCount =
    ((idsBelow s.entities.pointers.size).map fun p => (s.flow.successors p).length).sum := by
  refine hc.count _ (nodup_idsBelow _) fun p hp => ?_
  obtain ⟨q, hq⟩ := List.exists_mem_of_ne_nil _ hp
  obtain ⟨_, _, hp, _⟩ := h.flows p q hq
  exact mem_idsBelow.mpr (Entities.Justified.lt_of_cell hp)

theorem size_pointsTo_le (p : PointerId) : (s.entities.pointsTo p).size ≤ s.entities.objs.size := by
  have hs : (s.entities.pointsTo p).toList ⊆ idsBelow s.entities.objs.size := by
    intro o ho
    obtain ⟨_, _, _, ho, _⟩ := h.points p o ho
    exact mem_idsBelow.mpr (Entities.Justified.lt_of_object ho)
  have hle := (List.subperm_of_subset (ObjSet.nodup_toList _) hs).length_le
  rwa [length_idsBelow] at hle

end State.Justified

/-! ## All bounds in one number -/

structure State.Fits (X : Nat) (s : State) : Prop where
  objs : s.entities.objs.size ≤ X
  pointers : s.entities.pointers.size ≤ 4 * X ^ 2
  reachable : s.calls.reachable.size ≤ X
  edges : s.calls.edges.size ≤ 6 * X ^ 3

theorem State.Invariant.fits {t : Task} (ht : t.Valid) {k : Nat} (hb : t.selector.Bounded t.world k)
    {s : State} (h : s.Invariant t) : s.Fits (t.world.span k) := by
  have he := h.justified.entities
  have hone := t.world.one_le_span k
  have hsize := t.world.size_le_span k
  have hspan : s.entities.contexts.size * t.world.size ≤ t.world.span k := by
    rw [Table.size_eq]
    exact t.world.contexts_mul_size_le s.entities.contexts.nodup_toList fun c hc =>
      (he.contexts c hc).within hb
  generalize t.world.span k = X at hone hsize hspan ⊢
  -- a table with one entry for each context and part of the world
  have hpart : ∀ {n m : Nat}, n ≤ s.entities.contexts.size * m → m ≤ t.world.size → n ≤ X :=
    fun hn hm => Nat.le_trans hn (Nat.le_trans (Nat.mul_le_mul_left _ hm) hspan)
  have hobjs : s.entities.objs.size ≤ X :=
    hpart (he.size_objs_le ht) (by unfold World.size; omega)
  have hmethods : s.entities.methods.size ≤ X :=
    hpart (he.size_methods_le ht) (by unfold World.size; omega)
  have hsites : s.entities.sites.size ≤ X :=
    hpart (he.size_sites_le ht) (by unfold World.size; omega)
  have hvars : s.entities.contexts.size * t.world.program.vars.size ≤ X :=
    hpart (Nat.le_refl _) (by unfold World.size; omega)
  have hfields : t.world.program.fields.size ≤ X :=
    Nat.le_trans (by unfold World.size; omega) hsize
  have hX : X ≤ X ^ 2 := Nat.le_self_pow (by decide) X
  constructor
  case objs => exact hobjs
  case pointers =>
    have hprod : s.entities.objs.size * t.world.program.fields.size ≤ X ^ 2 := by
      rw [pow_two]; exact Nat.mul_le_mul hobjs hfields
    have := he.size_pointers_le ht
    omega
  case reachable => exact Nat.le_trans h.justified.size_reachable_le hmethods
  case edges =>
    refine Nat.le_trans h.justified.size_edges_le (Nat.mul_le_mul_left 6 ?_)
    calc s.entities.methods.size * (s.entities.sites.size * s.entities.methods.size)
        ≤ X * (X * X) := Nat.mul_le_mul hmethods (Nat.mul_le_mul hsites hmethods)
      _ = X ^ 3 := by ring

end PointsTo
