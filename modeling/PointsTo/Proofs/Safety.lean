import PointsTo.Proofs.Connectivity
import PointsTo.Proofs.Coverage
import PointsTo.Report

/-!
# Nothing is looked up in vain

In the world of a valid program every identifier and every handle that an
analysis follows is there: in the class hierarchy and its call graph, in every
state of every run, and in all that an outcome is asked for. A run fails only
at what the program itself gets wrong, a field that is not found or is used the
wrong way, or a call that does not fit its target.
-/

namespace PointsTo
open Solve

/-! ## What can go wrong -/

inductive AccessFault (p : Program) : Error → Prop
  | unresolved {site : StmtId} {st : Stmt} {base : Option VarId} {ref : FieldRef} {cls : Class} :
      p.stmt? site = some st → AccessIndex.access? st = some (base, ref) → p.class? ref.cls = some cls →
      (∀ f, (Hierarchy.ofProgram p).resolveField ref ≠ .ok f) →
      AccessFault p (.unresolvedField cls.name ref.name)
  | wrongAccess {site : StmtId} {st : Stmt} {base : Option VarId} {ref : FieldRef} {f : FieldId}
      {field : Field} {cls : Class} :
      p.stmt? site = some st → AccessIndex.access? st = some (base, ref) →
      (Hierarchy.ofProgram p).resolveField ref = .ok f → p.field? f = some field →
      field.isStatic ≠ base.isNone → p.class? field.cls = some cls →
      AccessFault p (.malformed (.wrongAccess cls.name field.name field.isStatic))

/-- A call that is reached leads to `m`: a static one by its name, another on an object that its
receiver holds. -/
inductive LeadsTo (w : World) (X : Fact → Prop) (site : StmtId) (call : Call) (m : MethodId)
    (method : Method) : Prop
  | byName {c : Context} : X (.reaches ⟨c, site.method⟩) → w.program.stmt? site = some (.invoke call) →
      call.isStatic = true → w.hierarchy.callee? none call = .ok (some m) →
      w.program.method? m = some method → LeadsTo w X site call m method
  | onObject {c : Context} {o : Instance} {obj : Obj} : Dispatches w X c site call o obj m →
      w.program.method? m = some method → method.isStatic = false → LeadsTo w X site call m method

/-- What calls can fail at: a number of arguments that is not that of the method they lead to, or an
object on which a static method would run. -/
inductive CallFault (w : World) (X : Fact → Prop) : Error → Prop
  | arity {site : StmtId} {call : Call} {m : MethodId} {method : Method} {text : String} :
      LeadsTo w X site call m method → call.args.length ≠ method.params.length →
      w.program.signature? m = some text →
      CallFault w X (.malformed (.arity call.args.length text method.params.length))
  | staticTarget {c : Context} {site : StmtId} {call : Call} {o : Instance} {obj : Obj} {m : MethodId}
      {method : Method} {text : String} : Dispatches w X c site call o obj m →
      w.program.method? m = some method → method.isStatic = true → w.program.signature? m = some text →
      CallFault w X (.malformed (.staticTarget call.kind site text))

section
variable {ε α β : Type}

theorem except_bind_error {x : Except ε α} {f : α → Except ε β} {e : ε} :
    x >>= f = .error e ↔ x = .error e ∨ ∃ a, x = .ok a ∧ f a = .error e := by
  cases x with
  | error e' => simp [bind, Except.bind]
  | ok a => simp [bind, Except.bind]

theorem foldlM_error {f : β → α → Except ε β} {e : ε} : ∀ {l : List α} {b : β},
    l.foldlM f b = .error e → ∃ a ∈ l, ∃ b, f b a = .error e
  | [], _, h => by cases h
  | a :: l, b, h => by
    rw [List.foldlM_cons] at h
    rcases except_bind_error.mp h with ha | ⟨b', _, hl⟩
    · exact ⟨a, List.mem_cons_self, b, ha⟩
    · obtain ⟨x, hx, hb⟩ := foldlM_error hl
      exact ⟨x, List.mem_cons_of_mem a hx, hb⟩

end

namespace AccessIndex
variable {p : Program} {entry : MethodId} (hp : p.check = .ok entry) {e : Error}
include hp

theorem resolve_error {site : StmtId} {st : Stmt} {base : Option VarId} {ref : FieldRef}
    (hs : p.stmt? site = some st) (ha : access? st = some (base, ref)) (hc : ref.cls.idx < p.classes.size)
    (h : resolve (.ofProgram p) base ref = .error e) : AccessFault p e := by
  have hknown : ∀ c : ClassId, c.idx < p.classes.size → ∃ cls, p.class? c = some cls :=
    fun c hc => ⟨_, Array.getElem?_eq_getElem hc⟩
  have hname : ∀ {c cls}, p.class? c = some cls → (Hierarchy.ofProgram p).className? c = some cls.name := by
    intro c cls hcls
    simp [Hierarchy.className?, Hierarchy.ofProgram, hcls]
  unfold resolve at h
  rcases except_bind_error.mp h with hf | ⟨f, hf, h⟩
  · obtain ⟨cls, hcls⟩ := hknown _ hc
    have hno : ∀ f, (Hierarchy.ofProgram p).resolveField ref ≠ .ok f := by simp [hf]
    unfold Hierarchy.resolveField at hf
    rw [hname hcls] at hf
    dsimp only at hf
    split at hf
    · cases hf
    · cases hf
      exact .unresolved hs ha hcls hno
  · obtain ⟨field, hfield⟩ := Hierarchy.resolveField_known hf
    obtain ⟨cls, hcls⟩ := hknown _ (Program.class_lt_of_field hp hfield)
    rw [show (Hierarchy.ofProgram p).program.field? f = some field from hfield] at h
    dsimp only at h
    split at h
    · cases h
    · rename_i hfits
      rw [hname hcls] at h
      cases h
      exact .wrongAccess hs ha hf hfield hfits hcls

theorem add_error {index : AccessIndex} {site : StmtId} {st : Stmt} (hs : p.stmt? site = some st)
    (h : add (.ofProgram p) index (site, st) = .error e) : AccessFault p e := by
  obtain ⟨method, htarget⟩ := Program.check_target hp hs
  cases st with
  | loadField lhs base ref =>
    rcases except_bind_error.mp h with h | ⟨_, _, h⟩
    · exact resolve_error hp hs rfl (Program.checkClassRef_ok.mp htarget) h
    · cases h
  | storeField base ref rhs =>
    rcases except_bind_error.mp h with h | ⟨_, _, h⟩
    · exact resolve_error hp hs rfl (Program.checkClassRef_ok.mp htarget) h
    · cases h
  | invoke call =>
    cases hr : call.receiver <;> simp [add, hr, pure, Except.pure] at h
  | _ => cases h

theorem ofHierarchy_error (h : ofHierarchy (.ofProgram p) = .error e) : AccessFault p e := by
  obtain ⟨⟨site, st⟩, hmem, _, hadd⟩ := foldlM_error h
  exact add_error hp (Program.mem_stmts.mp hmem) hadd

end AccessIndex

theorem Task.new_error {w : World} (hw : w.Valid) {sel : Selector} {limit : Nat} {e : Error}
    (h : Task.new w sel limit = .error e) : AccessFault w.program e := by
  rcases except_bind_error.mp h with h | ⟨_, _, h⟩
  · rw [hw.hierarchy] at h
    exact AccessIndex.ofHierarchy_error hw.check h
  · cases h

section
variable {w : World} {sel : Selector} (hw : w.Valid)
include hw

/-- The call of an edge leads to its callee. -/
theorem Derives.leadsTo {e : Link} {call : Call} {method : Method} (d : Derives w sel (.calls e))
    (hj : Joins w e call method) :
    LeadsTo w (Derives w sel) e.site.stmt call e.callee.method method := by
  cases d.cases with
  | staticCall hr hs hk hc =>
    cases Option.some.inj (hs.symm.trans hj.stmt)
    exact .byName hr hs hk hc hj.callee
  | instanceCall hd hm hthis =>
    cases Option.some.inj (hd.stmt.symm.trans hj.stmt)
    cases Option.some.inj (hm.symm.trans hj.callee)
    refine .onObject hd hm (Bool.eq_false_iff.mpr fun hstatic => ?_)
    rw [(Program.isStatic_iff hw.check hm).mp hstatic] at hthis
    cases hthis

theorem LeadsTo.exists_link {site : StmtId} {call : Call} {m : MethodId} {method : Method}
    (h : LeadsTo w (Derives w sel) site call m method) :
    ∃ e, Derives w sel (.calls e) ∧ Joins w e call method ∧ e.callee.method = m := by
  cases h with
  | byName hr hs hk hc hm => exact ⟨_, .rule (.staticCall hr hs hk hc), ⟨hs, hm⟩, rfl⟩
  | onObject d hm hstatic =>
    obtain ⟨this, hthis⟩ := Option.ne_none_iff_exists'.mp fun hnone => by
      rw [(Program.isStatic_iff hw.check hm).mpr hnone] at hstatic
      cases hstatic
    exact ⟨_, .rule (.instanceCall d hm hthis), ⟨d.stmt, hm⟩, rfl⟩

end

/-- With an object for each allocation only calls are at fault. -/
theorem fault_iff_callFault {p : Program} {w : World} (hw : World.ofProgram p = .ok w) {sel : Selector}
    {e : Error} : Fault w (Derives w sel) e ↔ CallFault w (Derives w sel) e := by
  have hvalid := World.valid_of_withHeap hw
  have hobject : ∀ site lhs cls, w.program.stmt? site = some (.alloc lhs cls) →
      ∃ o obj, w.heap.objAt? site = some o ∧ w.heap.obj? o = some obj := by
    intro site lhs cls hs
    obtain ⟨o, obj, ho, hobj, _⟩ := Heap.perSite_object hs
    rw [World.heap_of_ofProgram hw]
    exact ⟨o, obj, ho, hobj⟩
  constructor
  · intro h
    cases h with
    | noObject _ hs ho =>
      obtain ⟨o, _, ho', _⟩ := hobject _ _ _ hs
      rw [ho] at ho'; cases ho'
    | lostObject _ hs ho hb =>
      obtain ⟨o, obj, ho', hb'⟩ := hobject _ _ _ hs
      cases Option.some.inj (ho.symm.trans ho')
      rw [hb] at hb'; cases hb'
    | staticTarget d hm hthis hx =>
      exact .staticTarget d hm ((Program.isStatic_iff hvalid.check hm).mpr hthis) hx
    | arity d hj hn hx => exact .arity (d.leadsTo hvalid hj) hn hx
  · intro h
    cases h with
    | arity hl hn hx =>
      obtain ⟨link, d, hj, rfl⟩ := hl.exists_link hvalid
      exact .arity d hj hn hx
    | staticTarget d hm hstatic hx =>
      exact .staticTarget d hm ((Program.isStatic_iff hvalid.check hm).mp hstatic) hx

/-! ## Worlds -/

def CallGraph.Drawable {σ μ : Type} [DecidableEq σ] [Hashable σ] [DecidableEq μ] [Hashable μ]
    (g : CallGraph σ μ) : Prop :=
  ∀ l ∈ g.links, (g.diagram.nodes.find? l.1).isSome ∧ (g.diagram.nodes.find? l.2.1).isSome

theorem CallGraph.drawable {σ μ : Type} [DecidableEq σ] [Hashable σ] [DecidableEq μ] [Hashable μ]
    (g : CallGraph σ μ) : g.Drawable := by
  have hmem : ∀ m, m ∈ g.diagram.nodes.toList ↔ m ∈ g.reachable.toList ∨
      ∃ l ∈ g.links, m = l.1 ∨ m = l.2.1 := by
    intro m
    refine foldl_gather (P := fun (nodes : Table μ) m => m ∈ nodes.toList)
      (R := fun (l : μ × μ × EdgeKind) m => m = l.1 ∨ m = l.2.1) (fun nodes l m => ?_) m g.links g.reachable
    rw [Table.mem_insert, Table.mem_insert, or_assoc]
  have hfind : ∀ m, m ∈ g.diagram.nodes.toList → (g.diagram.nodes.find? m).isSome := by
    intro m hm
    obtain ⟨i, hi⟩ := Table.mem_toList.mp hm
    rw [Table.find?_eq_some.mpr hi]; rfl
  intro l hl
  exact ⟨hfind _ ((hmem _).mpr (Or.inr ⟨l, hl, Or.inl rfl⟩)),
    hfind _ ((hmem _).mpr (Or.inr ⟨l, hl, Or.inr rfl⟩))⟩

/-- What the class hierarchy, the heap and the call graph of the hierarchy refer to is there. -/
structure World.InRange (w : World) : Prop where
  entry : (w.program.method? w.entry).isSome
  signatures : ∀ m, (w.program.method? m).isSome → (w.program.signature? m).isSome
  /-- A method that is found is asked whether it is abstract. -/
  methods : ∀ c sig m, w.hierarchy.declaredMethod? c sig = some m → (w.hierarchy.isAbstract? m).isSome
  /-- A field that is found is asked for its class, and that for its name. -/
  fields : ∀ c name f, w.hierarchy.declaredField? c name = some f →
    ∃ field, w.program.field? f = some field ∧ (w.hierarchy.className? field.cls).isSome
  supertypes : ∀ c, (w.program.class? c).isSome → ∀ d ∈ w.hierarchy.supertypes c,
    (w.program.class? d).isSome
  objects : ∀ o, (w.heap.obj? o).isSome → (w.objText? o).isSome
  reachable : ∀ m ∈ w.hierarchyGraph.reachable.toList, (w.program.method? m).isSome
  edges : ∀ e ∈ w.hierarchyGraph.edges.toList, (w.program.method? e.caller).isSome ∧
    (w.program.stmt? e.site).isSome ∧ (w.program.method? e.callee).isSome
  drawable : w.hierarchyGraph.Drawable

namespace World
variable {w : World} (hw : w.Valid)
include hw

theorem class_known {c d : ClassId} (hc : (w.program.class? c).isSome) (hd : d ∈ w.hierarchy.supertypes c) :
    (w.program.class? d).isSome := by
  have hvisits := Walk.visits_depthFirst w.hierarchy.upward c
  refine hvisits.keeps (P := fun c => (w.program.class? c).isSome) ?_ ?_ ?_ d hd
  · intro x _ y hy
    have hlt := Program.class_lt_of_supertype hw.check hy
    simp [Program.class?, hlt]
  · intro x hx
    rw [List.mem_singleton.mp hx]; exact hc
  · intro x hx
    cases hx

theorem reached_known {m : MethodId} (hm : m ∈ w.hierarchyReachable) : (w.program.method? m).isSome := by
  have hvisits := Walk.visits_breadthFirst w.hierarchyCalls w.entry
  refine hvisits.keeps (P := fun m => (w.program.method? m).isSome) ?_ ?_ ?_ m hm
  · intro x _ y hy
    obtain ⟨e, he, rfl⟩ := List.mem_map.mp hy
    obtain ⟨_, _, call, _, _, hcallee⟩ := mem_hierarchyEdges.mp he
    rw [hw.hierarchy] at hcallee
    obtain ⟨method, hmethod⟩ := Hierarchy.mem_targets_known hcallee
    simp [hmethod]
  · intro x hx
    obtain ⟨main, hmain⟩ := Program.entry_known hw.check
    simp [List.mem_singleton.mp hx, hmain]
  · intro x hx
    cases hx

theorem signature_known {m : MethodId} (hm : (w.program.method? m).isSome) :
    (w.program.signature? m).isSome := by
  obtain ⟨method, hm⟩ := Option.isSome_iff_exists.mp hm
  obtain ⟨text, htext⟩ := Program.signature?_of_method hw.check hm
  simp [htext]

end World

theorem World.objText_known {p : Program} {w : World} (hw : World.ofProgram p = .ok w) {o : ObjId}
    (ho : (w.heap.obj? o).isSome) : (w.objText? o).isSome := by
  have hvalid := World.valid_of_withHeap hw
  obtain ⟨obj, ho⟩ := Option.isSome_iff_exists.mp ho
  have hper : (Heap.perSite w.program).obj? o = some obj := World.heap_of_ofProgram hw ▸ ho
  have hcls := Heap.class_known hvalid.check hper
  have hsite : (w.program.method? obj.site.method).isSome := by
    obtain ⟨_, method, _, hmethod, _⟩ := Heap.mem_allocations.mp (Heap.mem_allocations_of_obj? hper)
    simp [hmethod]
  obtain ⟨text, htext⟩ := Option.isSome_iff_exists.mp (World.signature_known hvalid hsite)
  simp [objText?, ho, Program.class?, hcls, htext]

theorem World.inRange {p : Program} {w : World} (hw : World.ofProgram p = .ok w) : w.InRange := by
  have hvalid := World.valid_of_withHeap hw
  have hreach : ∀ m, m ∈ w.hierarchyGraph.reachable.toList ↔ m ∈ w.hierarchyReachable := by
    intro m
    rw [← CallGraph.isReachable_iff, isReachable_hierarchyGraph]
  constructor
  case entry =>
    obtain ⟨main, hmain⟩ := Program.entry_known hvalid.check
    simp [hmain]
  case signatures => exact fun m => World.signature_known hvalid
  case methods =>
    intro c sig m hm
    rw [hvalid.hierarchy] at hm ⊢
    obtain ⟨method, hmethod, _⟩ := Hierarchy.declaredMethod?_spec hm
    simp [Hierarchy.isAbstract?, Hierarchy.ofProgram, hmethod]
  case fields =>
    intro c name f hf
    rw [hvalid.hierarchy] at hf ⊢
    obtain ⟨field, hfield, _⟩ := Hierarchy.declaredField?_spec hf
    have hlt := Program.class_lt_of_field hvalid.check hfield
    exact ⟨field, hfield, by simp [Hierarchy.className?, Hierarchy.ofProgram, Program.class?, hlt]⟩
  case supertypes => exact fun c hc d => World.class_known hvalid hc
  case objects => exact fun o => World.objText_known hw
  case reachable => exact fun m hm => World.reached_known hvalid ((hreach m).mp hm)
  case edges =>
    intro e he
    obtain ⟨hcaller, he⟩ := hasEdge_hierarchyGraph.mp (CallGraph.hasEdge_iff.mpr he)
    have hcallee := World.callee_mem_hierarchyReachable hcaller he
    obtain ⟨_, _, call, hs, _⟩ := mem_hierarchyEdges.mp he
    exact ⟨World.reached_known hvalid hcaller, by simp [hs], World.reached_known hvalid hcallee⟩
  case drawable => exact CallGraph.drawable _

/-! ## States -/

def Entities.PointerInRange (w : World) (e : Entities) : Pointer → Prop
  | .var c v => (e.context? c).isSome ∧ (w.program.varText? v).isSome
  | .staticField f => (w.program.field? f).isSome
  | .instanceField o f => (e.obj? o).isSome ∧ (w.program.field? f).isSome
  | .arrayIndex o => (e.obj? o).isSome

structure Entities.InRange (w : World) (e : Entities) : Prop where
  objs : ∀ i x, e.obj? i = some x → (e.context? x.heap).isSome ∧ (w.heap.obj? x.obj).isSome
  sites : ∀ i x, e.site? i = some x → (e.context? x.context).isSome ∧ (w.program.stmt? x.site).isSome
  methods : ∀ i x, e.method? i = some x → (e.context? x.context).isSome ∧ (w.program.method? x.method).isSome
  pointers : ∀ i x, e.pointer? i = some x → (e.pointsTo? i).isSome ∧ e.PointerInRange w x
  pointsTo : ∀ p, ∀ o ∈ e.pointsTo p, (e.obj? o).isSome
  pointersOf : ∀ v, ∀ p ∈ e.pointersOf v, ∃ c, e.pointer? p = some (.var c v)

structure Entities.Knows (e : Entities) (g : CallGraph CSCallSiteId CSMethodId) : Prop where
  entries : ∀ m ∈ g.entries.toList, (e.method? m).isSome
  reachable : ∀ m ∈ g.reachable.toList, (e.method? m).isSome
  edges : ∀ x ∈ g.edges.toList, (e.method? x.caller).isSome ∧ (e.site? x.site).isSome ∧
    (e.method? x.callee).isSome

structure State.InRange (w : World) (s : State) : Prop where
  entities : s.entities.InRange w
  calls : s.entities.Knows s.calls
  flow : ∀ p, ∀ q ∈ s.flow.successors p, (s.entities.pointsTo? p).isSome ∧ (s.entities.pointsTo? q).isSome
  work : ∀ x ∈ s.work.toList, (s.entities.pointsTo? x.1).isSome ∧ ∀ o ∈ x.2, (s.entities.obj? o).isSome
  pending : ∀ m ∈ s.pending.toList, (s.entities.method? m).isSome

namespace Entities
variable {e : Entities}

theorem isSome_obj {j : CSObjId} {x : Instance} (h : e.objectOf? j = some x) : (e.obj? j).isSome := by
  obtain ⟨_, hj, _⟩ := objectOf?_eq_some.mp h
  simp [hj]

theorem isSome_method {i : CSMethodId} {x : Frame} (h : e.frameOf? i = some x) : (e.method? i).isSome := by
  obtain ⟨_, hi, _⟩ := frameOf?_eq_some.mp h
  simp [hi]

theorem isSome_site {i : CSCallSiteId} {x : Site} (h : e.siteOf? i = some x) : (e.site? i).isSome := by
  obtain ⟨_, hi, _⟩ := siteOf?_eq_some.mp h
  simp [hi]

namespace Justified
variable {t : Task} (h : e.Justified t)
include h

theorem isSome_pointsTo {i : PointerId} {p : Cell} (hi : e.cellOf? i = some p) : (e.pointsTo? i).isSome := by
  rw [pointsTo?_of_lt (h.set_lt hi)]; rfl

variable (ht : t.Valid)
include ht

theorem pointerInRange {x : Pointer} (hx : x ∈ e.pointers.toList) : e.PointerInRange t.world x := by
  obtain ⟨cell, hcell, hocc⟩ := h.pointers x hx
  have hg := hocc.grounded ht
  cases cell with
  | var c v =>
    obtain ⟨i, rfl, hi⟩ := cell?_eq_var.mp hcell
    obtain ⟨m, howner, hd⟩ := hg
    obtain ⟨var, hvar, rfl⟩ := Option.map_eq_some_iff.mp howner
    obtain ⟨method, hmethod⟩ := hd.grounded ht.world
    exact ⟨by simp [hi], by simp [Program.varText?, hvar, hmethod]⟩
  | staticField f =>
    cases cell?_eq_staticField.mp hcell
    obtain ⟨field, hf⟩ := hg
    simp [PointerInRange, hf]
  | instanceField o f =>
    obtain ⟨i, rfl, hi⟩ := cell?_eq_instanceField.mp hcell
    obtain ⟨_, field, hf⟩ := hg
    exact ⟨isSome_obj hi, by simp [hf]⟩
  | arrayIndex o =>
    obtain ⟨i, rfl, hi⟩ := cell?_eq_arrayIndex.mp hcell
    exact isSome_obj hi

theorem inRange (hindex : e.Indexed) (hpoints : ∀ p, e.Supports t p (e.pointsTo p)) :
    e.InRange t.world := by
  constructor
  case objs =>
    intro i x hx
    obtain ⟨c, hc, p, hd⟩ := h.objs x (Table.mem_toList.mpr ⟨_, hx⟩)
    obtain ⟨_, obj, hobj⟩ := hd.grounded ht.world
    exact ⟨by simp [hc], by simp [show t.world.heap.obj? x.obj = some obj from hobj]⟩
  case sites =>
    intro i x hx
    obtain ⟨c, hc, l, hd, hl⟩ := h.sites x (Table.mem_toList.mpr ⟨_, hx⟩)
    obtain ⟨call, _, hj⟩ := (hd.grounded ht.world).joins
    have hs := hj.stmt
    rw [hl] at hs
    exact ⟨by simp [hc], by simp [hs]⟩
  case methods =>
    intro i x hx
    obtain ⟨c, hc, hf⟩ := h.methods x (Table.mem_toList.mpr ⟨_, hx⟩)
    obtain ⟨method, hm⟩ := hf.known ht
    exact ⟨by simp [hc], by simp [show t.world.program.method? x.method = some method from hm]⟩
  case pointers =>
    intro i x hx
    have hmem : x ∈ e.pointers.toList := Table.mem_toList.mpr ⟨_, hx⟩
    obtain ⟨cell, hcell, _⟩ := h.pointers x hmem
    exact ⟨h.isSome_pointsTo (cellOf?_eq_some.mpr ⟨x, hx, hcell⟩), h.pointerInRange ht hmem⟩
  case pointsTo =>
    intro p o ho
    obtain ⟨_, _, _, hobj, _⟩ := hpoints p o ho
    exact isSome_obj hobj
  case pointersOf => exact fun v p hp => hindex.mem_pointersOf.mp hp

end Justified

end Entities

section
variable {t : Task} {s : State} (h : s.Invariant t) (ht : t.Valid) (hentered : s.Entered t)
include h ht hentered

omit ht in
theorem State.Invariant.knows : s.entities.Knows s.calls := by
  constructor
  case entries =>
    intro m hm
    by_cases hs : s.started = true
    · obtain ⟨i, hi, hf⟩ := hentered.after hs
      rw [hi] at hm
      rw [List.mem_singleton.mp hm]
      exact Entities.isSome_method hf
    · rw [hentered.before (Bool.eq_false_iff.mpr hs)] at hm
      cases hm
  case reachable =>
    intro m hm
    obtain ⟨f, hf, _⟩ := h.justified.reachable m hm
    exact Entities.isSome_method hf
  case edges =>
    intro x hx
    obtain ⟨l, hl, _⟩ := h.justified.calls x hx
    obtain ⟨_, hcaller, hsite, hcallee⟩ := Entities.linkOf?_eq_some.mp hl
    exact ⟨Entities.isSome_method hcaller, Entities.isSome_site hsite, Entities.isSome_method hcallee⟩

theorem State.Invariant.inRange : s.InRange t.world := by
  have hj := h.justified
  constructor
  case entities => exact hj.entities.inRange ht h.indexed hj.points
  case calls => exact h.knows hentered
  case flow =>
    intro p q hq
    obtain ⟨_, _, hp, hq, _⟩ := hj.flows p q hq
    exact ⟨hj.entities.isSome_pointsTo hp, hj.entities.isSome_pointsTo hq⟩
  case work =>
    intro x hx
    obtain ⟨hsup, o, ho⟩ := hj.work x hx
    obtain ⟨_, _, hp, _, _⟩ := hsup o ho
    refine ⟨hj.entities.isSome_pointsTo hp, fun o ho => ?_⟩
    obtain ⟨_, _, _, hobj, _⟩ := hsup o ho
    exact Entities.isSome_obj hobj
  case pending =>
    intro m hm
    obtain ⟨f, hf, _⟩ := hj.pending m hm
    exact Entities.isSome_method hf

end

/-! ## Outcomes -/

structure Outcome.InRange (w : World) (r : Outcome) : Prop where
  entities : r.entities.InRange w
  calls : r.entities.Knows r.calls
  objects : ∀ v, ∀ i ∈ r.csPointsTo v, ∃ o, r.objOf? i = some o ∧ (w.heap.obj? o).isSome
  holders : ∀ p ∈ r.entities.pointerIds, (r.entities.pointer? p).isSome ∧ (r.entities.pointsTo? p).isSome ∧
    ∀ i ∈ r.entities.pointsTo p, (r.objOf? i).isSome
  reachable : ∀ m ∈ r.callGraph.reachable.toList, (w.program.method? m).isSome
  edges : ∀ e ∈ r.callGraph.edges.toList, (w.program.method? e.caller).isSome ∧
    (w.program.stmt? e.site).isSome ∧ (w.program.method? e.callee).isSome
  drawable : r.calls.Drawable ∧ r.callGraph.Drawable
  report : (r.report? w).isSome

theorem isSome_mapM {α β : Type} {f : α → Option β} : ∀ {l : List α}, (∀ x ∈ l, (f x).isSome) →
    (l.mapM f).isSome
  | [], _ => rfl
  | x :: l, h => by
    obtain ⟨y, hy⟩ := Option.isSome_iff_exists.mp (h x List.mem_cons_self)
    obtain ⟨ys, hys⟩ := Option.isSome_iff_exists.mp
      (isSome_mapM (l := l) fun x hx => h x (List.mem_cons_of_mem _ hx))
    simp [List.mapM_cons, hy, hys]

theorem isSome_foldlM {α β : Type} {f : β → α → Option β} : ∀ {l : List α} (b : β),
    (∀ b, ∀ x ∈ l, (f b x).isSome) → (l.foldlM f b).isSome
  | [], _, _ => rfl
  | x :: l, b, h => by
    obtain ⟨b', hb⟩ := Option.isSome_iff_exists.mp (h b x List.mem_cons_self)
    rw [List.foldlM_cons, hb]
    exact isSome_foldlM b' fun b x hx => h b x (List.mem_cons_of_mem _ hx)

section
variable {p : Program} {w : World} (hw : World.ofProgram p = .ok w) {s : State} (h : s.InRange w)
  (name : String)
include h

theorem State.InRange.objOf {i : CSObjId} (hi : (s.entities.obj? i).isSome) :
    ∃ o, (Outcome.ofState name s).objOf? i = some o ∧ (w.heap.obj? o).isSome := by
  obtain ⟨x, hx⟩ := Option.isSome_iff_exists.mp hi
  exact ⟨x.obj, by simp [Outcome.objOf?, Outcome.ofState, hx], (h.entities.objs i x hx).2⟩

theorem State.InRange.method {i : CSMethodId} (hi : (s.entities.method? i).isSome) :
    (w.program.method? (((s.entities.method? i).map CSMethod.method).getD default)).isSome := by
  obtain ⟨x, hx⟩ := Option.isSome_iff_exists.mp hi
  simpa [hx] using (h.entities.methods i x hx).2

theorem State.InRange.site {i : CSCallSiteId} (hi : (s.entities.site? i).isSome) :
    (w.program.stmt? (((s.entities.site? i).map CSCallSite.site).getD default)).isSome := by
  obtain ⟨x, hx⟩ := Option.isSome_iff_exists.mp hi
  simpa [hx] using (h.entities.sites i x hx).2

theorem State.InRange.mem_pointsTo {v : VarId} {o : ObjId} (ho : o ∈ (Outcome.ofState name s).pointsTo v) :
    (w.program.varText? v).isSome ∧ (w.heap.obj? o).isSome := by
  unfold Outcome.pointsTo at ho
  rw [Ascending.mem_ofList, List.mem_filterMap] at ho
  obtain ⟨i, hi, ho⟩ := ho
  obtain ⟨q, hq, hi⟩ := Outcome.mem_csPointsTo.mp hi
  obtain ⟨c, hc⟩ := h.entities.pointersOf v q hq
  obtain ⟨o', ho', hobj⟩ := h.objOf name (h.entities.pointsTo q i hi)
  cases Option.some.inj (ho.symm.trans ho')
  exact ⟨(h.entities.pointers q _ hc).2.2, hobj⟩

theorem State.InRange.reachable {m : MethodId}
    (hm : m ∈ (Outcome.ofState name s).callGraph.reachable.toList) : (w.program.method? m).isSome := by
  obtain ⟨i, hi, rfl⟩ := CallGraph.mem_reachable_map.mp hm
  exact h.method (h.calls.reachable i hi)

theorem State.InRange.edges {e : Edge StmtId MethodId}
    (he : e ∈ (Outcome.ofState name s).callGraph.edges.toList) : (w.program.method? e.caller).isSome ∧
      (w.program.stmt? e.site).isSome ∧ (w.program.method? e.callee).isSome := by
  obtain ⟨i, hi, rfl⟩ := CallGraph.mem_edges_map.mp he
  obtain ⟨hcaller, hsite, hcallee⟩ := h.calls.edges i hi
  exact ⟨h.method hcaller, h.site hsite, h.method hcallee⟩

include hw

theorem State.InRange.reportPointsTo : ((Outcome.ofState name s).reportPointsTo? w).isSome := by
  refine isSome_foldlM [] fun entries v _ => ?_
  cases hobjs : (Outcome.ofState name s).pointsTo v with
  | nil => rfl
  | cons o objs =>
    have hall : ∀ x ∈ o :: objs, (w.program.varText? v).isSome ∧ (w.heap.obj? x).isSome :=
      fun x hx => h.mem_pointsTo name (hobjs ▸ hx)
    obtain ⟨text, htext⟩ := Option.isSome_iff_exists.mp (hall o List.mem_cons_self).1
    obtain ⟨texts, htexts⟩ := Option.isSome_iff_exists.mp
      (isSome_mapM fun x hx => World.objText_known hw (hall x hx).2)
    simp [htext, htexts]

theorem State.InRange.report : ((Outcome.ofState name s).report? w).isSome := by
  have hvalid := World.valid_of_withHeap hw
  obtain ⟨methods, hmethods⟩ := Option.isSome_iff_exists.mp
    (isSome_mapM fun m hm => World.signature_known hvalid (h.reachable name hm))
  have hedge : ∀ e ∈ (Outcome.ofState name s).callGraph.edges.toList, (Outcome.reportEdge? w e).isSome := by
    intro e he
    obtain ⟨hcaller, _, hcallee⟩ := h.edges name he
    obtain ⟨caller, hcaller⟩ := Option.isSome_iff_exists.mp (World.signature_known hvalid hcaller)
    obtain ⟨callee, hcallee⟩ := Option.isSome_iff_exists.mp (World.signature_known hvalid hcallee)
    simp [Outcome.reportEdge?, hcaller, hcallee]
  obtain ⟨edges, hedges⟩ := Option.isSome_iff_exists.mp (isSome_mapM hedge)
  obtain ⟨entries, hentries⟩ := Option.isSome_iff_exists.mp (h.reportPointsTo hw name)
  simp [Outcome.report?, hmethods, hedges, hentries]

theorem State.InRange.outcome : (Outcome.ofState name s).InRange w := by
  constructor
  case entities => exact h.entities
  case calls => exact h.calls
  case objects =>
    intro v i hi
    obtain ⟨q, _, hi⟩ := Outcome.mem_csPointsTo.mp hi
    exact h.objOf name (h.entities.pointsTo q i hi)
  case holders =>
    intro q hq
    obtain ⟨i, hi, rfl⟩ := List.mem_map.mp hq
    have hlt : i < s.entities.pointers.items.size := List.mem_range.mp hi
    have hpointer : (s.entities.pointer? ⟨i⟩).isSome := by
      simp [Entities.pointer?, Table.get?, hlt]
    obtain ⟨x, hx⟩ := Option.isSome_iff_exists.mp hpointer
    refine ⟨hpointer, (h.entities.pointers _ x hx).1, fun j hj => ?_⟩
    obtain ⟨o, ho, _⟩ := h.objOf name (h.entities.pointsTo _ j hj)
    simp [ho]
  case reachable => exact fun m => h.reachable name
  case edges => exact fun e => h.edges name
  case drawable => exact ⟨CallGraph.drawable _, CallGraph.drawable _⟩
  case report => exact h.report hw name

end

/-- **Safety.** In the world of a valid program, with an object for each allocation: nothing is
looked up in vain, by the class hierarchy, in any state of any run, failed or not, or by an outcome.
A task is refused only for a field access. A run fails only at a call that does not fit its target,
given a limit that its contexts fit into. -/
theorem valid_programs_safe {p : Program} {w : World} (hw : World.ofProgram p = .ok w) (sel : Selector)
    (limit : Nat) : w.InRange ∧ (∀ e, Task.new w sel limit = .error e → AccessFault w.program e) ∧
      ∀ t, Task.new w sel limit = .ok t → ∀ order s, Reached t order s → s.InRange w ∧
        (∀ e, (t.launch.apply s).1 = .error e ∨ (t.step.apply s).1 = .error e →
          CallFault w (Derives w sel) e ∨ e = .unfinished ∧ ∀ k, sel.Bounded w k → limit < Task.limitFor w k) ∧
        ∀ name, (Outcome.ofState name s).InRange w := by
  have hvalid := World.valid_of_withHeap hw
  refine ⟨World.inRange hw, fun e => Task.new_error hvalid, fun t ht order s hs => ?_⟩
  have htvalid := Task.valid_of_new ht hvalid
  have hentered := (hs.evolves htvalid).entered (State.entered_initial t order)
  have hrange : s.InRange w := (Task.new_eq ht).1 ▸ (hs.invariant htvalid).inRange htvalid hentered
  refine ⟨hrange, fun e he => ?_, fun name => hrange.outcome hw name⟩
  obtain hfault | ⟨rfl, hover⟩ := hs.fault_of_error htvalid he
  · obtain ⟨rfl, rfl, _⟩ := Task.new_eq ht
    exact Or.inl ((fault_iff_callFault hw).mp hfault)
  · refine Or.inr ⟨rfl, fun k hk => ?_⟩
    by_contra hlimit
    exact (Task.ample_of_bounded hvalid hk (Nat.le_of_not_lt hlimit) ht).not_overruns hover

/-- The boxes after two steps, newest entry first, with calls told apart by their site. All their calls
fit, so the next step cannot fail at one. -/
theorem valid_programs_safe_sample : ∃ t s, Task.new Sample.world (.callSite 1) 8 = .ok t ∧
    s = (t.step.apply (t.step.apply (.initial .lifo)).2).2 ∧ Reached t .lifo s ∧ s.InRange Sample.world ∧
    ((Outcome.ofState "1-call" s).report? Sample.world).isSome ∧
    ∀ e, (t.step.apply s).1 = .error e → e = .unfinished := by
  obtain ⟨t, ht⟩ := Sample.exists_task (.callSite 1) 8
  have hs : Reached t .lifo (t.step.apply (t.step.apply (.initial .lifo)).2).2 := .step (.step .initial)
  obtain ⟨hrange, herror, houtcome⟩ :=
    (valid_programs_safe Sample.world_eq (.callSite 1) 8).2.2 t ht .lifo _ hs
  refine ⟨t, _, ht, rfl, hs, hrange, (houtcome "1-call").report, fun e he => ?_⟩
  obtain hcall | ⟨rfl, _⟩ := herror e (Or.inr he)
  · have hfit : Sample.world.program.CallsFit := by decide
    exact absurd ((fault_iff_callFault Sample.world_eq).mpr hcall) (no_fault_perSite Sample.world_eq hfit _ e)
  · rfl

end PointsTo
