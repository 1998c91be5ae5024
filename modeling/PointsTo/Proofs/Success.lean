import PointsTo.Proofs.Fixpoint
import PointsTo.Proofs.Measure

/-!
# When an analysis succeeds

Whether a run succeeds does not depend on its order: it does exactly if no
fault can be derived. With an object for each allocation, it is enough that
every call fits the methods it may lead to.
-/

namespace PointsTo
open Solve

section
variable {t : Task} {X : Nat}

theorem Task.Ample.solve_ok_iff (h : t.Ample X) (order : Order) :
    (∃ s, t.solve order = .ok s) ↔ ∀ e, ¬ Fault t.world t.Derives e := by
  constructor
  · rintro ⟨s, hs⟩ e
    exact (Task.final_of_solve h.valid hs).no_fault h.valid e
  · intro hno
    have hend := h.ends_run order
    unfold Task.solve
    rcases hr : t.run.apply (.initial order) with ⟨e | _, s⟩
    · exact absurd (hend.of_error hr) (hno e)
    · exact ⟨s, rfl⟩

theorem Task.Ample.solve_error (h : t.Ample X) {order : Order} {e : Error}
    (he : t.solve order = .error e) : Fault t.world t.Derives e := by
  have hend := h.ends_run order
  unfold Task.solve at he
  rcases hr : t.run.apply (.initial order) with ⟨e' | _, s⟩
  · rw [hr] at he
    cases Except.error.inj he
    exact hend.of_error hr
  · rw [hr] at he; cases he

end

/-! ## Objects for allocations -/

theorem getElem?_foldl_insert_of_mem {α κ ν : Type} [BEq κ] [LawfulBEq κ] [Hashable κ] (key : α → κ)
    (val : α → ν) (k : κ) (l : List α) (index : Std.HashMap κ ν)
    (h : (∃ v, index[k]? = some v) ∨ (∃ x ∈ l, key x = k)) :
    ∃ v, (l.foldl (fun index x => index.insert (key x) (val x)) index)[k]? = some v := by
  rw [getElem?_foldl_insert_eq]
  cases hf : l.reverse.find? fun x => key x == k with
  | some x => exact ⟨val x, by simp⟩
  | none =>
    rcases h with ⟨v, hv⟩ | ⟨x, hx, hk⟩
    · exact ⟨v, by simp [hv]⟩
    · exact absurd hk (by simpa using List.find?_eq_none.mp hf x (List.mem_reverse.mpr hx))

namespace Heap
variable {p : Program}

theorem mem_allocations {obj : Obj} : obj ∈ allocations p ↔ ∃ lhs method,
    p.stmt? obj.site = some (.alloc lhs obj.cls) ∧ p.method? obj.site.method = some method ∧
      method.cls = obj.container := by
  unfold allocations
  rw [List.mem_filterMap]
  constructor
  · intro hobj
    obtain ⟨⟨site, st⟩, hs, halloc⟩ := hobj
    cases st with
    | alloc lhs cls =>
      obtain ⟨method, hm, rfl⟩ := Option.map_eq_some_iff.mp halloc
      exact ⟨lhs, method, Program.mem_stmts.mp hs, hm, rfl⟩
    | _ => cases halloc
  · intro hobj
    obtain ⟨lhs, method, hs, hm, hc⟩ := hobj
    exact ⟨(obj.site, .alloc lhs obj.cls), Program.mem_stmts.mpr hs, by simp [hm, hc]⟩

theorem mem_allocations_of_stmt {site : StmtId} {lhs : VarId} {cls : ClassId}
    (h : p.stmt? site = some (.alloc lhs cls)) : ∃ obj ∈ allocations p, obj.site = site := by
  obtain ⟨method, hm, _⟩ := Program.method?_of_stmt? h
  exact ⟨⟨site, cls, method.cls⟩, mem_allocations.mpr ⟨lhs, method, h, hm, rfl⟩, rfl⟩

theorem obj?_perSite (p : Program) (o : ObjId) : (perSite p).obj? o = (allocations p)[o.idx]? := by
  simp [obj?, perSite]

theorem object_of_objAt? {site : StmtId} {o : ObjId} (h : (perSite p).objAt? site = some o) :
    ∃ obj, (perSite p).obj? o = some obj ∧ obj.site = site := by
  rcases getElem?_foldl_insert (fun x : Obj × Nat => x.1.site) (fun x => (⟨x.2⟩ : ObjId)) _ _ _ _ h
    with hnone | ⟨⟨obj, i⟩, hmem, hkey, hval⟩
  · simp at hnone
  · refine ⟨obj, ?_, hkey⟩
    rw [← hval, obj?_perSite]
    exact List.mem_zipIdx_iff_getElem?.mp hmem

/-- Each allocation has its object. -/
theorem perSite_object {site : StmtId} {lhs : VarId} {cls : ClassId}
    (h : p.stmt? site = some (.alloc lhs cls)) :
    ∃ o obj, (perSite p).objAt? site = some o ∧ (perSite p).obj? o = some obj ∧ obj.site = site := by
  obtain ⟨obj, hobj, hsite⟩ := mem_allocations_of_stmt h
  obtain ⟨i, hi⟩ := List.mem_iff_getElem?.mp hobj
  have hzip : (obj, i) ∈ (allocations p).zipIdx := List.mem_zipIdx_iff_getElem?.mpr hi
  obtain ⟨o, ho⟩ := getElem?_foldl_insert_of_mem (fun x : Obj × Nat => x.1.site)
    (fun x => (⟨x.2⟩ : ObjId)) site (allocations p).zipIdx ∅ (Or.inr ⟨_, hzip, hsite⟩)
  obtain ⟨obj', hobj', hsite'⟩ := object_of_objAt? ho
  exact ⟨o, obj', ho, hobj', hsite'⟩

end Heap

/-! ## Calls that fit -/

/-- Every call fits the methods of its subsignature. -/
def Program.CallsFit (p : Program) : Prop :=
  ∀ x ∈ p.stmts, ∀ call ∈ x.2.call?, ∀ method ∈ p.methods.toList,
    method.subsignature = call.target.subsignature →
      call.args.length = method.params.length ∧
        (call.receiver.isSome = true → method.thisVar.isSome = true)

instance (p : Program) : Decidable p.CallsFit := by
  unfold Program.CallsFit
  infer_instance

theorem Program.CallsFit.callee {w : World} (hw : w.Valid) (h : w.program.CallsFit) {site : StmtId}
    {call : Call} {type : Option ClassId} {m : MethodId} {method : Method}
    (hs : w.program.stmt? site = some (.invoke call))
    (hc : w.hierarchy.callee? type call = .ok (some m)) (hm : w.program.method? m = some method) :
    call.args.length = method.params.length ∧
      (call.receiver.isSome = true → method.thisVar.isSome = true) := by
  rw [hw.hierarchy] at hc
  obtain ⟨method', hm', hsig⟩ := Hierarchy.callee?_spec hc
  cases Option.some.inj (hm.symm.trans hm')
  exact h (site, .invoke call) (Program.mem_stmts.mpr hs) call rfl method
    (Array.mem_toList_iff.mpr (Array.mem_of_getElem? hm)) hsig

/-- With calls that fit and an object for each allocation there is no fault. -/
theorem no_fault_of_callsFit {w : World} (hw : w.Valid) (h : w.program.CallsFit)
    (hheap : ∀ site lhs cls, w.program.stmt? site = some (.alloc lhs cls) →
      ∃ o obj, w.heap.objAt? site = some o ∧ w.heap.obj? o = some obj)
    (sel : Selector) (e : Error) : ¬ Fault w (Derives w sel) e := by
  intro hfault
  cases hfault with
  | noObject _ hs ho =>
    obtain ⟨o, _, ho', _⟩ := hheap _ _ _ hs
    rw [ho] at ho'; cases ho'
  | lostObject _ hs ho hobj =>
    obtain ⟨o, obj, ho', hobj'⟩ := hheap _ _ _ hs
    cases Option.some.inj (ho.symm.trans ho')
    rw [hobj] at hobj'; cases hobj'
  | staticTarget d hm hthis _ =>
    obtain ⟨r, hr, _⟩ := d.receiver
    have := (h.callee hw d.stmt d.callee hm).2 (by simp [hr])
    simp [hthis] at this
  | arity hc hj hn _ =>
    refine hn ?_
    cases hc.cases with
    | staticCall hr hs hk hm =>
      cases Option.some.inj (hs.symm.trans hj.stmt)
      exact (h.callee hw hs hm hj.callee).1
    | instanceCall d hm hthis =>
      cases Option.some.inj (d.stmt.symm.trans hj.stmt)
      exact (h.callee hw d.stmt d.callee hj.callee).1

theorem World.heap_of_ofProgram {p : Program} {w : World} (h : ofProgram p = .ok w) :
    w.heap = .perSite w.program := by
  unfold ofProgram withHeap at h
  cases hp : p.check with
  | error e => rw [hp] at h; cases h
  | ok entry =>
    rw [hp] at h
    cases Except.ok.inj h
    rfl

theorem World.program_of_ofProgram {p : Program} {w : World} (h : ofProgram p = .ok w) : w.program = p := by
  unfold ofProgram withHeap at h
  split at h
  · cases h
    rfl
  · cases h

theorem Task.exists_of_no_access {w : World} (h : ∀ x ∈ w.program.stmts, AccessIndex.access? x.2 = none)
    (sel : Selector) (limit : Nat) : ∃ t, Task.new w sel limit = .ok t := by
  obtain ⟨index, hi⟩ : ∃ index, AccessIndex.ofHierarchy w.hierarchy = .ok index := by
    refine AccessIndex.foldlM_add_ok _ _ fun x hx base ref ha => ?_
    rw [h x hx] at ha
    cases ha
  exact ⟨_, except_bind_ok.mpr ⟨index, hi, rfl⟩⟩

theorem no_fault_perSite {p : Program} {w : World} (hw : World.ofProgram p = .ok w)
    (h : w.program.CallsFit) (sel : Selector) (e : Error) : ¬ Fault w (Derives w sel) e := by
  refine no_fault_of_callsFit (World.valid_of_withHeap hw) h (fun site lhs cls hs => ?_) sel e
  obtain ⟨o, obj, ho, hobj, _⟩ := Heap.perSite_object hs
  rw [World.heap_of_ofProgram hw]
  exact ⟨o, obj, ho, hobj⟩

/-! ## A program with calls that fit -/

namespace Sample

/-- A box is filled with another one, and what is taken from it is asked to give back the box. -/
def program : Program where
  classes := #[
    ⟨"Main", none, [], false, false, [⟨0⟩], []⟩,
    ⟨"Box", none, [], false, false, [⟨1⟩], [⟨0⟩]⟩]
  methods := #[
    ⟨"main", ⟨0⟩, "main()", true, false, none, [], #[
      .alloc ⟨0⟩ ⟨1⟩,
      .alloc ⟨1⟩ ⟨1⟩,
      .storeField (some ⟨0⟩) ⟨⟨1⟩, "item"⟩ ⟨1⟩,
      .loadField ⟨2⟩ (some ⟨0⟩) ⟨⟨1⟩, "item"⟩,
      .invoke ⟨.virtual, ⟨⟨1⟩, "pass(Box)"⟩, some ⟨2⟩, [⟨0⟩], some ⟨3⟩⟩]⟩,
    ⟨"pass", ⟨1⟩, "pass(Box)", false, false, some ⟨4⟩, [⟨5⟩], #[.ret (some ⟨5⟩)]⟩]
  fields := #[⟨"item", ⟨1⟩, false⟩]
  vars := #[⟨"box", ⟨0⟩⟩, ⟨"item", ⟨0⟩⟩, ⟨"got", ⟨0⟩⟩, ⟨"back", ⟨0⟩⟩, ⟨"this", ⟨1⟩⟩, ⟨"other", ⟨1⟩⟩]
  entry := some ⟨0⟩

def world : World := ⟨.ofProgram program, .perSite program, ⟨0⟩⟩

theorem world_eq : World.withHeap program (.perSite program) = .ok world := World.withHeap_of_check rfl _

theorem resolve_item (v : VarId) :
    AccessIndex.resolve world.hierarchy (some v) ⟨⟨1⟩, "item"⟩ = .ok ⟨0⟩ := by
  have hname : world.hierarchy.className? ⟨1⟩ = some "Box" := rfl
  have hfield : world.hierarchy.declaredField? ⟨1⟩ "item" = some ⟨0⟩ :=
    Std.HashMap.getElem?_insert_self
  exact except_bind_ok.mpr ⟨⟨0⟩, Hierarchy.resolveField_declared hname hfield, rfl⟩

theorem exists_task (sel : Selector) (limit : Nat) : ∃ t, Task.new world sel limit = .ok t := by
  obtain ⟨index, hi⟩ : ∃ index, AccessIndex.ofHierarchy world.hierarchy = .ok index := by
    refine AccessIndex.foldlM_add_ok _ _ fun x hx base ref ha => ?_
    have hall : ∀ x ∈ program.stmts, AccessIndex.access? x.2 = none ∨
        AccessIndex.access? x.2 = some (some ⟨0⟩, ⟨⟨1⟩, "item"⟩) := by decide
    rcases hall x hx with hn | hs
    · rw [hn] at ha; cases ha
    · cases Option.some.inj (hs.symm.trans ha)
      exact ⟨⟨0⟩, resolve_item _⟩
  exact ⟨_, except_bind_ok.mpr ⟨index, hi, rfl⟩⟩

/-- Under every sensitivity the program has a task that succeeds in either order. -/
theorem exists_solution (sens : Sensitivity) : ∃ t, Task.ofSensitivity world sens = .ok t ∧
    ∀ order, ∃ s, t.solve order = .ok s := by
  obtain ⟨t, ht⟩ := exists_task (.ofSensitivity sens) (Task.limitFor world sens.depth)
  have hw := World.valid_of_withHeap world_eq
  have hfit : world.program.CallsFit := by decide
  refine ⟨t, ht, fun order => ((Task.ample_of_sensitivity hw ht).solve_ok_iff order).mpr ?_⟩
  have hworld : t.world = world := (Task.new_eq ht).1
  unfold Task.Derives
  rw [hworld]
  exact no_fault_perSite world_eq hfit t.selector

end Sample

end PointsTo
