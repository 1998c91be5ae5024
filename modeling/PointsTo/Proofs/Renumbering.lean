import Mathlib.Data.List.ProdSigma
import PointsTo.Outcome
import PointsTo.Proofs.Bounds
import PointsTo.Proofs.Fixpoint

/-!
# The contents of a final state

At the end of a run the tables hold exactly what occurs in a derivation, and
every handle is accounted for. Two runs may number their handles as they like:
their contents are permutations of each other, so all that is counted is equal.
-/

namespace PointsTo

/-! ## What is in the tables -/

theorem Entities.mem_contexts {e : Entities} {i : ContextId} {c : Context} (hc : e.context? i = some c) :
    c ∈ e.contexts.toList := Table.mem_toList.mpr ⟨i.idx, hc⟩

namespace State.Final
variable {t : Task} {s : State} (h : s.Final t) (ht : t.Valid)
include h ht

theorem object_iff {o : Instance} : (∃ i, s.entities.objectOf? i = some o) ↔
    ∃ p, t.Derives (.points p o) := by
  constructor
  · rintro ⟨i, hi⟩
    obtain ⟨k, hk, hc⟩ := Entities.objectOf?_eq_some.mp hi
    obtain ⟨c, hc', p, hd⟩ := h.invariant.justified.entities.objs _ (Table.mem_toList.mpr ⟨i.idx, hk⟩)
    cases Option.some.inj (hc.symm.trans hc')
    exact ⟨p, hd⟩
  · rintro ⟨p, hd⟩
    obtain ⟨_, j, _, hj, _⟩ := (h.has_iff ht _).mpr hd
    exact ⟨j, hj⟩

theorem site_iff {x : Site} : (∃ i, s.entities.siteOf? i = some x) ↔
    ∃ e, t.Derives (.calls e) ∧ e.site = x := by
  constructor
  · rintro ⟨i, hi⟩
    obtain ⟨k, hk, hc⟩ := Entities.siteOf?_eq_some.mp hi
    obtain ⟨c, hc', e, hd, he⟩ := h.invariant.justified.entities.sites _ (Table.mem_toList.mpr ⟨i.idx, hk⟩)
    cases Option.some.inj (hc.symm.trans hc')
    exact ⟨e, hd, he⟩
  · rintro ⟨e, hd, rfl⟩
    obtain ⟨i, _, hi⟩ := (h.has_iff ht _).mpr hd
    exact ⟨i.site, (Entities.linkOf?_eq_some.mp hi).2.2.1⟩

/-- Without a fault, a method that occurs is reached. -/
theorem reaches_of_occurs {m : Frame} (hm : FrameOccurs t m) : t.Derives (.reaches m) := by
  cases hm with
  | reached hd => exact hd
  | target d =>
    -- a callee that takes no receiver would have been a fault
    obtain ⟨_, _, _, _, _, hcalls⟩ := h.callDone ht (d.mono fun f hf => (h.has_iff ht f).mpr hf)
    exact ((h.has_iff ht _).mp hcalls).callee

theorem frame_iff {m : Frame} : (∃ i, s.entities.frameOf? i = some m) ↔ t.Derives (.reaches m) := by
  constructor
  · rintro ⟨i, hi⟩
    obtain ⟨k, hk, hc⟩ := Entities.frameOf?_eq_some.mp hi
    obtain ⟨c, hc', hf⟩ := h.invariant.justified.entities.methods _ (Table.mem_toList.mpr ⟨i.idx, hk⟩)
    cases Option.some.inj (hc.symm.trans hc')
    exact h.reaches_of_occurs ht hf
  · intro hd
    obtain ⟨i, _, hi⟩ := (h.has_iff ht _).mpr hd
    exact ⟨i, hi⟩

theorem knows_iff {p : Cell} : s.Knows p ↔ CellOccurs t p := by
  constructor
  · rintro ⟨i, hi⟩
    obtain ⟨x, hx, hp⟩ := Entities.cellOf?_eq_some.mp hi
    obtain ⟨p', hp', hocc⟩ := h.invariant.justified.entities.pointers x (Table.mem_toList.mpr ⟨i.idx, hx⟩)
    cases Option.some.inj (hp.symm.trans hp')
    exact hocc
  · intro hocc
    cases hocc with
    | source hd =>
      obtain ⟨i, _, hi, _⟩ := (h.has_iff ht _).mpr hd
      exact ⟨i, hi⟩
    | target hd =>
      obtain ⟨_, j, _, hj, _⟩ := (h.has_iff ht _).mpr hd
      exact ⟨j, hj⟩
    | holder hd =>
      obtain ⟨i, _, hi, _⟩ := (h.has_iff ht _).mpr hd
      exact ⟨i, hi⟩
    | result hd hs hr =>
      -- no edge need lead here: binding the call has made the pointer
      obtain ⟨call, _, hj, _, _, hresult⟩ := h.bound ((h.has_iff ht _).mpr hd)
      cases Option.some.inj (hs.symm.trans hj.stmt)
      exact (hresult _ hr).1

theorem context_iff (he : t.selector.entry = .empty) {c : Context} :
    c ∈ s.entities.contexts.toList ↔ ContextOccurs t c := by
  refine ⟨h.invariant.justified.entities.contexts c, fun hocc => ?_⟩
  have hreach : ∀ m, t.Derives (.reaches m) → m.context ∈ s.entities.contexts.toList := by
    intro m hd
    obtain ⟨i, _, hi⟩ := (h.has_iff ht _).mpr hd
    obtain ⟨_, _, hc⟩ := Entities.frameOf?_eq_some.mp hi
    exact Entities.mem_contexts hc
  cases hocc with
  | empty => exact he ▸ hreach _ t.derives_entry
  | frame hf => exact hreach _ (h.reaches_of_occurs ht hf)
  | heap hd =>
    obtain ⟨_, j, _, hj, _⟩ := (h.has_iff ht _).mpr hd
    obtain ⟨_, _, hc⟩ := Entities.objectOf?_eq_some.mp hj
    exact Entities.mem_contexts hc

end State.Final

/-! ## Handles that stand for contents -/

/-- The handles `l` stand for the contents with `P`, one handle for each. -/
structure Enumerates {α γ : Type} (l : List α) (d : α → Option γ) (P : γ → Prop) : Prop where
  nodup : l.Nodup
  decodes : ∀ a ∈ l, ∃ x, d a = some x
  inj : ∀ {a b x}, d a = some x → d b = some x → a = b
  mem_iff : ∀ x, (∃ a ∈ l, d a = some x) ↔ P x

namespace Enumerates
variable {α β γ : Type} {l : List α} {l' : List β} {d : α → Option γ} {d' : β → Option γ} {P : γ → Prop}

theorem nodup_map (h : Enumerates l d P) : (l.map d).Nodup := by
  refine h.nodup.map_on fun a ha b _ hab => ?_
  obtain ⟨x, hx⟩ := h.decodes a ha
  exact h.inj hx (hab ▸ hx)

theorem mem_map (h : Enumerates l d P) (y : Option γ) : y ∈ l.map d ↔ ∃ x, y = some x ∧ P x := by
  rw [List.mem_map]
  constructor
  · rintro ⟨a, ha, rfl⟩
    obtain ⟨x, hx⟩ := h.decodes a ha
    exact ⟨x, hx, (h.mem_iff x).mp ⟨a, ha, hx⟩⟩
  · rintro ⟨x, rfl, hx⟩
    exact (h.mem_iff x).mpr hx

/-- Two numberings of the same contents differ by a permutation. -/
theorem perm (h : Enumerates l d P) (h' : Enumerates l' d' P) : (l.map d).Perm (l'.map d') := by
  rw [List.perm_ext_iff_of_nodup h.nodup_map h'.nodup_map]
  intro y
  rw [h.mem_map, h'.mem_map]

theorem length_eq (h : Enumerates l d P) (h' : Enumerates l' d' P) : l.length = l'.length := by
  simpa using (h.perm h').length_eq

theorem sum_eq (h : Enumerates l d P) (h' : Enumerates l' d' P) (g : Option γ → Nat) :
    (l.map fun a => g (d a)).sum = (l'.map fun b => g (d' b)).sum := by
  simpa [Function.comp_def] using ((h.perm h').map g).sum_nat

end Enumerates

def decodePair {α β γ δ : Type} (d : α → Option γ) (d' : β → Option δ) (x : (_ : α) × β) :
    Option (γ × δ) := (d x.1).bind fun c => (d' x.2).map (Prod.mk c)

theorem decodePair_eq_some {α β γ δ : Type} {d : α → Option γ} {d' : β → Option δ} {x : (_ : α) × β}
    {y : γ × δ} : decodePair d d' x = some y ↔ d x.1 = some y.1 ∧ d' x.2 = some y.2 := by
  unfold decodePair
  simp only [Option.bind_eq_some_iff, Option.map_eq_some_iff]
  constructor
  · rintro ⟨c, hc, e, he, rfl⟩
    exact ⟨hc, he⟩
  · rintro ⟨hc, he⟩
    exact ⟨_, hc, _, he, rfl⟩

theorem sum_map_sigma {α β : Type} (l : List α) (f : α → List β) (g : (_ : α) × β → Nat) :
    ((l.sigma f).map g).sum = (l.map fun a => ((f a).map fun b => g ⟨a, b⟩).sum).sum := by
  induction l with
  | nil => rfl
  | cons a l ih => simp [List.sigma_cons, ih, Function.comp_def]

theorem length_sigma {α β : Type} (l : List α) (f : α → List β) :
    (l.sigma f).length = (l.map fun a => (f a).length).sum := by
  simpa using sum_map_sigma l f fun _ => 1

/-- A relation that is kept as a list of successors for each handle. -/
theorem enumerates_sigma {α β γ δ : Type} {l : List α} {f : α → List β} {d : α → Option γ}
    {d' : β → Option δ} {R : γ → δ → Prop} (hl : l.Nodup) (hf : ∀ a, (f a).Nodup)
    (hd : ∀ {a b x}, d a = some x → d b = some x → a = b)
    (hd' : ∀ {a b x}, d' a = some x → d' b = some x → a = b)
    (hdecode : ∀ a, ∀ b ∈ f a, a ∈ l ∧ ∃ x y, d a = some x ∧ d' b = some y)
    (hR : ∀ x y, (∃ a b, d a = some x ∧ d' b = some y ∧ b ∈ f a) ↔ R x y) :
    Enumerates (l.sigma f) (decodePair d d') fun x => R x.1 x.2 where
  nodup := hl.sigma hf
  decodes := by
    rintro ⟨a, b⟩ hab
    obtain ⟨_, x, y, hx, hy⟩ := hdecode a b (List.mem_sigma.mp hab).2
    exact ⟨(x, y), decodePair_eq_some.mpr ⟨hx, hy⟩⟩
  inj := by
    rintro ⟨a, b⟩ ⟨a', b'⟩ x hx hx'
    obtain ⟨ha, hb⟩ := decodePair_eq_some.mp hx
    obtain ⟨ha', hb'⟩ := decodePair_eq_some.mp hx'
    cases hd ha ha'
    cases hd' hb hb'
    rfl
  mem_iff x := by
    rw [← hR x.1 x.2]
    constructor
    · rintro ⟨⟨a, b⟩, hab, hx⟩
      obtain ⟨ha, hb⟩ := decodePair_eq_some.mp hx
      exact ⟨a, b, ha, hb, (List.mem_sigma.mp hab).2⟩
    · rintro ⟨a, b, ha, hb, hab⟩
      exact ⟨⟨a, b⟩, List.mem_sigma.mpr ⟨(hdecode a b hab).1, hab⟩, decodePair_eq_some.mpr ⟨ha, hb⟩⟩

/-- A table whose items all stand for something. -/
theorem enumerates_idsBelow {e : Entity} {γ : Type} {n : Nat} {d : Id e → Option γ} {P : γ → Prop}
    (hn : ∀ i, i.idx < n → ∃ x, d i = some x) (hd : ∀ {i x}, d i = some x → i.idx < n)
    (hinj : ∀ {i j x}, d i = some x → d j = some x → i = j) (hP : ∀ x, (∃ i, d i = some x) ↔ P x) :
    Enumerates (idsBelow n) d P where
  nodup := nodup_idsBelow n
  decodes i hi := hn i (mem_idsBelow.mp hi)
  inj := hinj
  mem_iff x := by
    rw [← hP x]
    constructor
    · rintro ⟨i, _, hi⟩
      exact ⟨i, hi⟩
    · rintro ⟨i, hi⟩
      exact ⟨i, mem_idsBelow.mpr (hd hi), hi⟩

/-! ## The numberings of a final state -/

theorem Table.exists_of_lt {α : Type} [DecidableEq α] [Hashable α] {t : Table α} {i : Nat}
    (h : i < t.size) : ∃ x, t.get? i = some x := ⟨_, Array.getElem?_eq_getElem h⟩

namespace State.Final
variable {t : Task} {s : State} (h : s.Final t) (ht : t.Valid)
include h ht

theorem enumerates_contexts (he : t.selector.entry = .empty) :
    Enumerates s.entities.contexts.toList some (ContextOccurs t) where
  nodup := Table.nodup_toList _
  decodes c _ := ⟨c, rfl⟩
  inj ha hb := Option.some.inj (ha.trans hb.symm)
  mem_iff c := by
    rw [← h.context_iff ht he]
    constructor
    · rintro ⟨a, ha, hac⟩
      exact Option.some.inj hac ▸ ha
    · exact fun hc => ⟨c, hc, rfl⟩

theorem enumerates_objects : Enumerates (idsBelow s.entities.objs.size) s.entities.objectOf?
    fun o => ∃ p, t.Derives (.points p o) := by
  refine enumerates_idsBelow (fun i hi => ?_) Entities.Justified.lt_of_object Entities.objectOf?_inj
    fun o => h.object_iff ht
  obtain ⟨x, hx⟩ := Table.exists_of_lt hi
  obtain ⟨c, hc, _⟩ := h.invariant.justified.entities.objs x (Table.mem_toList.mpr ⟨_, hx⟩)
  exact ⟨⟨c, x.obj⟩, Entities.objectOf?_eq_some.mpr ⟨x.heap, hx, hc⟩⟩

theorem enumerates_pointers : Enumerates (idsBelow s.entities.pointers.size) s.entities.cellOf?
    (CellOccurs t) := by
  refine enumerates_idsBelow (fun i hi => ?_) Entities.Justified.lt_of_cell Entities.cellOf?_inj
    fun p => h.knows_iff ht
  obtain ⟨x, hx⟩ := Table.exists_of_lt hi
  obtain ⟨p, hp, _⟩ := h.invariant.justified.entities.pointers x (Table.mem_toList.mpr ⟨_, hx⟩)
  exact ⟨p, Entities.cellOf?_eq_some.mpr ⟨x, hx, hp⟩⟩

theorem enumerates_reachable : Enumerates s.calls.reachable.toList s.entities.frameOf?
    fun m => t.Derives (.reaches m) where
  nodup := Table.nodup_toList _
  decodes i hi := (h.invariant.justified.reachable i hi).imp fun _ hm => hm.1
  inj := Entities.frameOf?_inj
  mem_iff m := h.has_iff ht (.reaches m)

theorem enumerates_edges : Enumerates s.calls.edges.toList s.entities.linkOf?
    fun e => t.Derives (.calls e) where
  nodup := Table.nodup_toList _
  decodes i hi := (h.invariant.justified.calls i hi).imp fun _ he => he.1
  inj := Entities.linkOf?_inj
  mem_iff e := h.has_iff ht (.calls e)

theorem enumerates_flows :
    Enumerates ((idsBelow s.entities.pointers.size).sigma s.flow.successors)
      (decodePair s.entities.cellOf? s.entities.cellOf?) fun x => t.Derives (.flows x.1 x.2) := by
  refine enumerates_sigma (nodup_idsBelow _) h.invariant.counted.nodup Entities.cellOf?_inj
    Entities.cellOf?_inj (fun i j hj => ?_) fun p q => h.has_iff ht (.flows p q)
  obtain ⟨p, q, hp, hq, _⟩ := h.invariant.justified.flows i j hj
  exact ⟨mem_idsBelow.mpr (Entities.Justified.lt_of_cell hp), p, q, hp, hq⟩

theorem enumerates_points :
    Enumerates ((idsBelow s.entities.pointers.size).sigma fun i => (s.entities.pointsTo i).toList)
      (decodePair s.entities.cellOf? s.entities.objectOf?) fun x => t.Derives (.points x.1 x.2) := by
  refine enumerates_sigma (nodup_idsBelow _) (fun _ => ObjSet.nodup_toList _) Entities.cellOf?_inj
    Entities.objectOf?_inj (fun i j hj => ?_) fun p o => h.has_iff ht (.points p o)
  obtain ⟨p, o, hp, ho, _⟩ := h.invariant.justified.points i j hj
  exact ⟨mem_idsBelow.mpr (Entities.Justified.lt_of_cell hp), p, o, hp, ho⟩

end State.Final

/-! ## Calls without a target -/

namespace Task
variable (t : Task)

def missesIn : Option Frame → Nat
  | some f => t.frameMisses f.method
  | none => 0

def missesAt : Option (Cell × Instance) → Nat
  | some (p, o) => t.pairMisses (some p) (some o)
  | none => 0

end Task

theorem State.Final.unresolved_sum {t : Task} {s : State} (h : s.Final t) : s.unresolved =
    (s.calls.reachable.toList.map (t.methodMisses s.entities)).sum +
      ((idsBelow s.entities.pointers.size).map fun i =>
        t.gainMisses s.entities i (s.entities.pointsTo i)).sum := by
  have hmissed := h.settled.missed (idsBelow s.entities.pointers.size) (nodup_idsBelow _) fun i j hj => by
    obtain ⟨p, _, hp, _⟩ := h.invariant.justified.points i j hj
    exact mem_idsBelow.mpr (Entities.Justified.lt_of_cell hp)
  rwa [Nat.add_zero] at hmissed

/-- The calls without a target, counted by what the handles stand for. -/
theorem State.Final.unresolved_eq {t : Task} {s : State} (h : s.Final t) : s.unresolved =
    (s.calls.reachable.toList.map fun m => t.missesIn (s.entities.frameOf? m)).sum +
    (((idsBelow s.entities.pointers.size).sigma fun i => (s.entities.pointsTo i).toList).map fun x =>
      t.missesAt (decodePair s.entities.cellOf? s.entities.objectOf? x)).sum := by
  rw [h.unresolved_sum, sum_map_sigma]
  congr 1
  refine congrArg List.sum (List.map_congr_left fun i _ => ?_)
  refine congrArg List.sum (List.map_congr_left fun j hj => ?_)
  obtain ⟨p, o, hp, ho, _⟩ := h.invariant.justified.points i j hj
  have hpair : decodePair s.entities.cellOf? s.entities.objectOf? ⟨i, j⟩ = some (p, o) :=
    decodePair_eq_some.mpr ⟨hp, ho⟩
  rw [hpair, hp, ho]
  rfl

end PointsTo
