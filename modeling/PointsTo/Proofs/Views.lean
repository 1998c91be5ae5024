import PointsTo.Proofs.Projection

/-!
# Views of what a variable points to

An outcome shows what a variable points to under each context, over all contexts
and without contexts. The three are read from different tables, which a run keeps
in step: every pointer of a variable is in the index of that variable, its context
is known, and it has a set whose members are known.
-/

namespace PointsTo

namespace Entities

structure Coherent (e : Entities) : Prop where
  indexed : e.Indexed
  cells : ∀ p a, e.pointer? p = some a → ∃ x, e.cellOf? p = some x
  sets : e.sets.size = e.pointers.size
  objects : ∀ p, ∀ j ∈ e.pointsTo p, ∃ x, e.objectOf? j = some x

theorem cellOf?_eq_var {e : Entities} {p : PointerId} {c : Context} {v : VarId} :
    e.cellOf? p = some (.var c v) ↔ ∃ i, e.pointer? p = some (.var i v) ∧ e.context? i = some c := by
  rw [cellOf?_eq_some]
  constructor
  · intro ⟨a, ha, hc⟩
    obtain ⟨i, rfl, hi⟩ := cell?_eq_var.mp hc
    exact ⟨i, ha, hi⟩
  · intro ⟨i, hp, hi⟩
    exact ⟨.var i v, hp, cell?_eq_var.mpr ⟨i, rfl, hi⟩⟩

def contextOf? (e : Entities) (p : PointerId) : Option Context :=
  ((e.pointer? p).bind Pointer.var?).bind fun x => e.context? x.1

theorem contextOf?_eq_some {e : Entities} {p : PointerId} {c : Context} :
    e.contextOf? p = some c ↔ ∃ v, e.cellOf? p = some (.var c v) := by
  simp only [cellOf?_eq_var]
  unfold contextOf?
  cases e.pointer? p with
  | none => simp
  | some a => cases a <;> simp [Pointer.var?]

namespace Coherent
variable {e : Entities} (h : e.Coherent)
include h

theorem mem_pointersOf {p : PointerId} {v : VarId} :
    p ∈ e.pointersOf v ↔ ∃ c, e.cellOf? p = some (.var c v) := by
  rw [h.indexed.mem_pointersOf]
  constructor
  · intro ⟨i, hp⟩
    obtain ⟨x, hx⟩ := h.cells p _ hp
    obtain ⟨a, ha, hax⟩ := cellOf?_eq_some.mp hx
    cases Option.some.inj (hp.symm.trans ha)
    obtain ⟨c, hc, rfl⟩ := Option.map_eq_some_iff.mp hax
    exact ⟨c, hx⟩
  · intro ⟨c, hp⟩
    obtain ⟨i, hp, _⟩ := cellOf?_eq_var.mp hp
    exact ⟨i, hp⟩

theorem nodup_pointersOf (v : VarId) : (e.pointersOf v).Nodup := by
  rw [h.indexed v]
  exact (nodup_idsBelow _).filter _

theorem pointsTo?_eq {p : PointerId} {a : Pointer} (hp : e.pointer? p = some a) :
    e.pointsTo? p = some (e.pointsTo p) := by
  have hlt : p.idx < e.pointers.size := (Array.getElem?_eq_some_iff.mp hp).1
  exact pointsTo?_of_lt (h.sets ▸ hlt)

end Coherent

end Entities

theorem State.Invariant.coherent {t : Task} {s : State} (h : s.Invariant t) : s.entities.Coherent where
  indexed := h.indexed
  cells p a hp := by
    obtain ⟨x, hx, _⟩ := h.justified.entities.pointers a (Table.mem_toList.mpr ⟨p.idx, hp⟩)
    exact ⟨x, Entities.cellOf?_eq_some.mpr ⟨a, hp, hx⟩⟩
  sets := h.justified.entities.sets
  objects p j hj := by
    obtain ⟨_, x, _, hx, _⟩ := h.justified.points p j hj
    exact ⟨x, hx⟩

namespace Outcome
variable {r : Outcome} (h : r.entities.Coherent)

theorem mem_pointsTo {v : VarId} {o : ObjId} :
    o ∈ r.pointsTo v ↔ ∃ j ∈ r.csPointsTo v, r.objOf? j = some o := by
  unfold pointsTo
  rw [Ascending.mem_ofList, List.mem_filterMap]
  rfl

theorem byContext_eq (r : Outcome) (v : VarId) : r.byContext v =
    (r.entities.pointersOf v).filterMap fun p =>
      (r.entities.contextOf? p).map fun c => (c, r.entities.pointsTo p) := by
  unfold byContext Entities.contextOf?
  congr 1
  funext p
  cases r.entities.pointer? p with
  | none => rfl
  | some a =>
    cases a with
    | var i u => cases hi : r.entities.context? i <;> simp [Pointer.var?, hi]
    | _ => rfl

include h

theorem isSome_objOf {v : VarId} {j : CSObjId} (hj : j ∈ r.csPointsTo v) : ∃ o, r.objOf? j = some o := by
  obtain ⟨p, _, hj⟩ := mem_csPointsTo.mp hj
  obtain ⟨x, hx⟩ := h.objects p j hj
  exact ⟨x.obj, Entities.obj_of_objectOf? hx⟩

theorem mem_byContext {v : VarId} {c : Context} {set : ObjSet} : (c, set) ∈ r.byContext v ↔
    ∃ p, r.entities.cellOf? p = some (.var c v) ∧ r.entities.pointsTo? p = some set := by
  rw [byContext_eq, List.mem_filterMap]
  constructor
  · intro ⟨p, hp, he⟩
    obtain ⟨c', hp⟩ := h.mem_pointersOf.mp hp
    obtain ⟨_, hc, he⟩ := Option.map_eq_some_iff.mp he
    cases he
    obtain ⟨_, hc⟩ := Entities.contextOf?_eq_some.mp hc
    cases Option.some.inj (hp.symm.trans hc)
    obtain ⟨i, hi, _⟩ := Entities.cellOf?_eq_var.mp hp
    exact ⟨p, hp, h.pointsTo?_eq hi⟩
  · intro ⟨p, hp, hset⟩
    obtain ⟨i, hi, _⟩ := Entities.cellOf?_eq_var.mp hp
    cases Option.some.inj ((h.pointsTo?_eq hi).symm.trans hset)
    refine ⟨p, h.mem_pointersOf.mpr ⟨c, hp⟩, ?_⟩
    rw [Entities.contextOf?_eq_some.mpr ⟨v, hp⟩, Option.map_some]

theorem nodup_contexts (v : VarId) : ((r.byContext v).map Prod.fst).Nodup := by
  unfold List.Nodup
  rw [byContext_eq, List.pairwise_map, List.pairwise_filterMap]
  refine (h.nodup_pointersOf v).imp_of_mem fun {p q} hp hq hne a ha b hb hab => hne ?_
  obtain ⟨c, hp⟩ := h.mem_pointersOf.mp hp
  obtain ⟨d, hq⟩ := h.mem_pointersOf.mp hq
  rw [Entities.contextOf?_eq_some.mpr ⟨v, hp⟩] at ha
  rw [Entities.contextOf?_eq_some.mpr ⟨v, hq⟩] at hb
  cases ha
  cases hb
  -- one context and one variable have one pointer
  cases hab
  exact Entities.cellOf?_inj hp hq

theorem pointsToUnder?_iff {v : VarId} {c : Context} {set : ObjSet} :
    r.pointsToUnder? c v = some set ↔ (c, set) ∈ r.byContext v := by
  rw [mem_byContext h]
  unfold pointsToUnder?
  simp only [Option.bind_eq_bind, Option.bind_eq_some_iff, Entities.findContext?_eq_some,
    Entities.findPointer?_eq_some, Entities.cellOf?_eq_var]
  constructor
  · intro ⟨i, hi, p, hp, hset⟩
    exact ⟨p, ⟨i, hp, hi⟩, hset⟩
  · intro ⟨p, ⟨i, hp, hi⟩, hset⟩
    exact ⟨i, hi, p, hp, hset⟩

theorem mem_csPointsTo_iff {v : VarId} {j : CSObjId} :
    j ∈ r.csPointsTo v ↔ ∃ c set, (c, set) ∈ r.byContext v ∧ j ∈ set := by
  rw [mem_csPointsTo]
  simp only [mem_byContext h]
  constructor
  · intro ⟨p, hp, hj⟩
    obtain ⟨c, hp⟩ := h.mem_pointersOf.mp hp
    obtain ⟨i, hi, _⟩ := Entities.cellOf?_eq_var.mp hp
    exact ⟨c, _, ⟨p, hp, h.pointsTo?_eq hi⟩, hj⟩
  · intro ⟨c, set, ⟨p, hp, hset⟩, hj⟩
    refine ⟨p, h.mem_pointersOf.mpr ⟨c, hp⟩, ?_⟩
    unfold Entities.pointsTo
    rw [hset]
    exact hj

end Outcome

/-! ## Outcomes of runs -/

structure Outcome.ViewsAgree (r : Outcome) (v : VarId) : Prop where
  /-- The contexts that are listed are those of the pointers of `v`, with their sets. -/
  listed : ∀ c set, (c, set) ∈ r.byContext v ↔ ∃ p i, r.entities.pointer? p = some (.var i v) ∧
    r.entities.context? i = some c ∧ r.entities.pointsTo? p = some set
  distinct : ((r.byContext v).map Prod.fst).Nodup
  under : ∀ c set, r.pointsToUnder? c v = some set ↔ (c, set) ∈ r.byContext v
  unlisted : ∀ c, (∀ set, (c, set) ∉ r.byContext v) → r.pointsToUnder? c v = none
  unknown : ∀ c, r.entities.findContext? c = none → r.pointsToUnder? c v = none
  asc_csPointsTo : Ascending.Asc (r.csPointsTo v).toList
  csPointsTo : ∀ j, j ∈ r.csPointsTo v ↔ ∃ c set, (c, set) ∈ r.byContext v ∧ j ∈ set
  asc_pointsTo : Ascending.Asc (r.pointsTo v)
  pointsTo : ∀ o, o ∈ r.pointsTo v ↔ ∃ j ∈ r.csPointsTo v, r.objOf? j = some o
  /-- No object is lost with the contexts. -/
  objOf : ∀ j ∈ r.csPointsTo v, ∃ o, r.objOf? j = some o

section
variable {p : Program} {heap : Heap} {w : World} {c : Config} {sel : Selector} {limit : Nat} {r : Outcome}

theorem coherent_of_analyzeWith (hw : w.Valid) (h : analyzeWith w c sel limit = .ok r) :
    r.entities.Coherent := by
  obtain ⟨t, s, ht, hs, hr⟩ := analyzeWith_ok h
  have hcoherent := (Task.final_of_solve (Task.valid_of_new ht hw) hs).invariant.coherent
  rcases hr with rfl | rfl
  · exact hcoherent
  · exact hcoherent

/-- **Views.** The contexts of a variable are listed once each, with the sets of its pointers. Asked for a
context, an outcome gives the set that is listed for it, and nothing for a context that is not listed or
was never met. The objects over all contexts are the union of the listed sets, and those without contexts
are the abstract objects of the union, both in ascending order. -/
theorem views_agree (hw : World.withHeap p heap = .ok w) (h : analyzeWith w c sel limit = .ok r) (v : VarId) :
    r.ViewsAgree v := by
  have hr := coherent_of_analyzeWith (World.valid_of_withHeap hw) h
  constructor
  case listed =>
    intro ctx set
    rw [Outcome.mem_byContext hr]
    simp only [Entities.cellOf?_eq_var, ← exists_and_right, and_assoc]
  case distinct => exact Outcome.nodup_contexts hr v
  case under => exact fun _ _ => Outcome.pointsToUnder?_iff hr
  case unlisted =>
    intro ctx hno
    rw [Option.eq_none_iff_forall_ne_some]
    intro set hset
    exact hno set ((Outcome.pointsToUnder?_iff hr).mp hset)
  case unknown =>
    intro ctx hno
    unfold Outcome.pointsToUnder?
    rw [hno]
    rfl
  case asc_csPointsTo => exact (r.csPointsTo v).ascending
  case csPointsTo => exact fun _ => Outcome.mem_csPointsTo_iff hr
  case asc_pointsTo => exact Ascending.asc_ofList _
  case pointsTo => exact fun _ => Outcome.mem_pointsTo
  case objOf => exact fun _ hj => Outcome.isSome_objOf hr hj

end

/-- What is passed to a box, under the boxes that are asked. -/
theorem views_agree_sample : ∃ r, analyzeAt Sample.world default ⟨.object, 2⟩ = .ok r ∧ r.ViewsAgree ⟨5⟩ := by
  obtain ⟨r, hr⟩ := Sample.exists_outcome default ⟨.object, 2⟩
  exact ⟨r, hr, views_agree Sample.world_eq hr ⟨5⟩⟩

end PointsTo
