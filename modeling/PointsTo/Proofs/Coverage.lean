import PointsTo.Proofs.Projection

/-!
# What the class hierarchy covers

The graph of the class hierarchy has a call that an analysis finds if the
objects at its receiver have the type that it names. Nothing in the validity of
a program says so, and a call on any other object may be missing.
-/

namespace PointsTo

section
variable {w : World} {sel : Selector}

def World.Covers (w : World) : Fact → Prop
  | .reaches m => m.method ∈ w.hierarchyReachable
  | .calls e => e.caller.method ∈ w.hierarchyReachable ∧ e.project ∈ w.hierarchyEdges e.caller.method
  | .points _ _ | .flows _ _ => True

/-- It is enough that the methods of the hierarchy have their calls. -/
theorem Derives.covered
    (h : ∀ e, Derives w sel (.calls e) → e.caller.method ∈ w.hierarchyReachable →
      e.project ∈ w.hierarchyEdges e.caller.method)
    {f : Fact} (d : Derives w sel f) : w.Covers f := by
  refine Derives.induct (fun f r => ?_) d
  have hd := Derives.rule (r.mono fun _ hg => hg.1)
  cases r with
  | entry => exact w.entry_mem_hierarchyReachable
  | callee he => exact World.callee_mem_hierarchyReachable he.2.1 he.2.2
  | staticCall hr _ _ _ => exact ⟨hr.2, h _ hd hr.2⟩
  | instanceCall d _ _ => exact ⟨d.reached.2, h _ hd d.reached.2⟩
  | _ => trivial

theorem Outcome.Projects.within {r : Outcome} (hr : r.Projects w sel)
    (h : ∀ f, Derives w sel f → w.Covers f) : r.callGraph.Within w.hierarchyGraph := by
  constructor
  case reachable =>
    intro m hm
    obtain ⟨c, hd⟩ := (hr.reachable m).mp hm
    exact World.isReachable_hierarchyGraph.mpr (h _ hd)
  case edges =>
    intro x hx
    obtain ⟨e, hd, rfl⟩ := (hr.edges x).mp hx
    exact World.hasEdge_hierarchyGraph.mpr (h _ hd)

def Link.Foreign (w : World) (sel : Selector) (e : Link) : Prop :=
  ∃ call v o obj, w.program.stmt? e.site.stmt = some (.invoke call) ∧ call.kind.dispatches = true ∧
    call.receiver = some v ∧ Derives w sel (.points (.var e.caller.context v) o) ∧
    w.heap.obj? o.obj = some obj ∧ w.hierarchy.isSubtype? obj.cls call.target.cls ≠ some true ∧
    w.hierarchy.dispatch? obj.cls call.target.subsignature = some e.callee.method

theorem Derives.edge_or_foreign (hw : w.Valid) {e : Link} (d : Derives w sel (.calls e)) :
    e.project ∈ w.hierarchyEdges e.caller.method ∨ Link.Foreign w sel e := by
  cases d.cases with
  | @staticCall c site call m _ hs hk hc =>
    have hk : call.kind = .static := by simpa [Call.isStatic] using hk
    have htarget := Hierarchy.mem_targets_of_callee hc (by simp [hk]) (by simp)
    refine Or.inl (World.mem_hierarchyEdges.mpr ⟨rfl, rfl, call, hs, ?_, htarget⟩)
    rw [hk]
    rfl
  | @instanceCall c site call o obj m _ _ hd _ _ =>
    obtain ⟨v, hv, hpoints⟩ := hd.receiver
    by_cases hm : m ∈ w.hierarchy.targets call
    · exact Or.inl (World.mem_hierarchyEdges.mpr ⟨rfl, rfl, call, hd.stmt, rfl, hm⟩)
    · -- the call looks at the class of its receiver, and this class is not below the named one
      obtain ⟨hk, hcls⟩ : call.kind.dispatches = true ∧ obj.cls ∉ w.hierarchy.subtypes call.target.cls := by
        by_contra hno
        refine hm (Hierarchy.mem_targets_of_callee hd.callee (by simp [hv]) ?_)
        intro cls hcls hk
        cases hcls
        exact by_contra fun hcls => hno ⟨hk, hcls⟩
      have hcallee := hd.callee
      rw [Hierarchy.callee?_of_dispatches hk] at hcallee
      rw [hw.hierarchy, Hierarchy.mem_subtypes, ← hw.hierarchy] at hcls
      exact Or.inr ⟨call, v, o, obj, hd.stmt, hk, hv, hpoints, hd.object, hcls, Except.ok.inj hcallee⟩

end

/-! ## A square among shapes -/

theorem Heap.mem_allocations_of_obj? {p : Program} {o : ObjId} {obj : Obj}
    (h : (perSite p).obj? o = some obj) : obj ∈ allocations p :=
  List.mem_of_getElem? (obj?_perSite p o ▸ h)

namespace Shapes

def drawCall (named : Fin 4) : Call := ⟨.interface, ⟨⟨named⟩, "draw()"⟩, some ⟨0⟩, [], none⟩

/-- The shape is a square, which inherits from a base that implements the shapes. -/
def program (named : Fin 4) : Program where
  classes := #[
    ⟨"Main", none, [], false, false, [⟨0⟩], []⟩,
    ⟨"Shape", none, [], true, true, [⟨1⟩], []⟩,
    ⟨"Base", none, [⟨1⟩], false, false, [⟨2⟩], []⟩,
    ⟨"Square", some ⟨2⟩, [], false, false, [], []⟩]
  methods := #[
    ⟨"main", ⟨0⟩, "main()", true, false, none, [], #[.alloc ⟨0⟩ ⟨3⟩, .invoke (drawCall named)]⟩,
    ⟨"draw", ⟨1⟩, "draw()", false, true, some ⟨1⟩, [], #[]⟩,
    ⟨"draw", ⟨2⟩, "draw()", false, false, some ⟨2⟩, [], #[]⟩]
  fields := #[]
  vars := #[⟨"shape", ⟨0⟩⟩, ⟨"this", ⟨1⟩⟩, ⟨"this", ⟨2⟩⟩]
  entry := some ⟨0⟩

def world (named : Fin 4) : World := ⟨.ofProgram (program named), .perSite (program named), ⟨0⟩⟩

def drawEdge : Edge StmtId MethodId := ⟨.interface, ⟨0⟩, ⟨⟨0⟩, 1⟩, ⟨2⟩⟩

theorem world_eq (named : Fin 4) : World.ofProgram (program named) = .ok (world named) := by
  have hcheck : (program named).check = .ok ⟨0⟩ := match named with | 0 | 1 | 2 | 3 => rfl
  exact World.withHeap_of_check hcheck _

theorem exists_outcome (named : Fin 4) (c : Config) (sens : Sensitivity) :
    ∃ r, analyzeAt (world named) c sens = .ok r := by
  have hno : ∀ named, ∀ x ∈ (program named).stmts, AccessIndex.access? x.2 = none := by decide
  have hfit : ∀ named, (program named).CallsFit := by decide
  exact exists_outcome_of_callsFit (world_eq named) (hno named) (hfit named) c sens

theorem object_eq {named : Fin 4} {o : ObjId} {obj : Obj} (h : (world named).heap.obj? o = some obj) :
    obj = ⟨⟨⟨0⟩, 0⟩, ⟨3⟩, ⟨0⟩⟩ := by
  have halloc : Heap.allocations (program named) = [⟨⟨⟨0⟩, 0⟩, ⟨3⟩, ⟨0⟩⟩] := rfl
  have hmem := Heap.mem_allocations_of_obj? h
  rw [halloc] at hmem
  exact List.mem_singleton.mp hmem

theorem call_eq {named : Fin 4} {site : StmtId} {call : Call}
    (h : (world named).program.stmt? site = some (.invoke call)) : call = drawCall named := by
  have hall : ∀ named, ∀ x ∈ (program named).stmts, ∀ call ∈ x.2.call?, call = drawCall named := by decide
  exact hall named _ (Program.mem_stmts.mpr h) call rfl

end Shapes

/-! ## Receivers of the named type -/

/-- The objects at the receiver of a call have the type that the call names, where it matters. -/
def Outcome.Typed (w : World) (r : Outcome) : Prop :=
  ∀ site call v o obj, w.program.stmt? site = some (.invoke call) → call.kind.dispatches = true →
    call.receiver = some v → o ∈ r.pointsTo v → w.heap.obj? o = some obj →
    w.hierarchy.isSubtype? obj.cls call.target.cls = some true

/-- **Coverage.** Where receivers have the types that calls name, the graph of the class hierarchy has
all methods and calls of an analysis, with any heap and any selector. -/
theorem hierarchy_covers_typed {p : Program} {heap : Heap} {w : World} {c : Config} {sel : Selector}
    {limit : Nat} {r : Outcome} (hw : World.withHeap p heap = .ok w)
    (hr : analyzeWith w c sel limit = .ok r) (htyped : r.Typed w) :
    r.callGraph.Within w.hierarchyGraph := by
  have hvalid := World.valid_of_withHeap hw
  have hproj := projects_of_analyzeWith hvalid hr
  refine hproj.within fun f d => d.covered fun e he _ => ?_
  obtain hedge | ⟨call, v, o, obj, hs, hk, hv, hpoints, ho, hne, _⟩ := he.edge_or_foreign hvalid
  · exact hedge
  · have hmem : o.obj ∈ r.pointsTo v := (hproj.pointsTo v o.obj).mpr ⟨_, _, hpoints⟩
    exact absurd (htyped _ call v o.obj obj hs hk hv hmem ho) hne

/-- Squares are shapes. -/
theorem hierarchy_covers_typed_shapes : ∃ r, analyzeAt (Shapes.world 1) .standard ⟨.object, 1⟩ = .ok r ∧
    r.Typed (Shapes.world 1) ∧ r.callGraph.Within (Shapes.world 1).hierarchyGraph := by
  obtain ⟨r, hr⟩ := Shapes.exists_outcome 1 .standard ⟨.object, 1⟩
  have hsquare : (Shapes.world 1).hierarchy.isSubtype? ⟨3⟩ ⟨1⟩ = some true :=
    Hierarchy.isSubtype?_iff.mpr (.tail (.tail .refl (by decide : (⟨2⟩ : ClassId) ∈ _)) (by decide))
  have htyped : r.Typed (Shapes.world 1) := by
    intro site call v o obj hs _ _ _ ho
    rw [Shapes.call_eq hs, Shapes.object_eq ho]
    exact hsquare
  exact ⟨r, hr, htyped, hierarchy_covers_typed (Shapes.world_eq 1) hr htyped⟩

/-! ## Receivers of another type -/

/-- A call of `r` that the graph of the class hierarchy has not, though it has the caller: the object
at the receiver is of no subtype of the class that the call names. -/
structure Outcome.Escapes (w : World) (r : Outcome) (x : Edge StmtId MethodId) : Prop where
  edge : r.callGraph.hasEdge x = true
  caller : w.hierarchyGraph.isReachable x.caller = true
  missing : w.hierarchyGraph.hasEdge x = false
  foreign : ∃ call v o obj, w.program.stmt? x.site = some (.invoke call) ∧ call.kind.dispatches = true ∧
    call.receiver = some v ∧ o ∈ r.pointsTo v ∧ w.heap.obj? o = some obj ∧
    w.hierarchy.isSubtype? obj.cls call.target.cls = some false ∧
    w.hierarchy.dispatch? obj.cls call.target.subsignature = some x.callee

theorem Heap.class_known {p : Program} {entry : MethodId} (hp : p.check = .ok entry) {o : ObjId}
    {obj : Obj} (ho : (perSite p).obj? o = some obj) : obj.cls.idx < p.classes.size := by
  obtain ⟨_, _, hs, _⟩ := mem_allocations.mp (mem_allocations_of_obj? ho)
  obtain ⟨_, hcheck⟩ := Program.check_target hp hs
  exact Program.checkClassRef_ok.mp hcheck

theorem Hierarchy.isSubtype?_known {h : Hierarchy} {c d : ClassId}
    (hc : c.idx < h.program.classes.size) (hne : h.isSubtype? c d ≠ some true) :
    h.isSubtype? c d = some false := by
  unfold isSubtype? at hne ⊢
  by_cases hcd : c = d
  · simp [hcd] at hne
  · rw [if_neg hcd, if_pos hc] at hne ⊢
    simpa using hne

theorem analyzeAt_of_analyze {w : World} {c : Config} {r : Outcome} (h : analyze w c = .ok r) :
    analyzeAt w c c.sensitivity = .ok r := by
  obtain ⟨c', hc, h⟩ := except_bind_ok.mp h
  unfold Config.validate at hc
  cases hcheck : c.check with
  | error e => rw [hcheck] at hc; cases hc
  | ok _ =>
    rw [hcheck] at hc
    cases Except.ok.inj hc
    exact h

/-- A call in a method of the hierarchy is there or escapes. -/
theorem Outcome.Projects.edge_or_escapes {w : World} {sel : Selector} {r : Outcome} (hw : w.Valid)
    (hproj : r.Projects w sel) (hheap : w.heap = .perSite w.program) {x : Edge StmtId MethodId}
    (hx : r.callGraph.hasEdge x = true) (hcaller : w.hierarchyGraph.isReachable x.caller = true) :
    w.hierarchyGraph.hasEdge x = true ∨ r.Escapes w x := by
  by_cases hedge : w.hierarchyGraph.hasEdge x = true
  · exact Or.inl hedge
  · refine Or.inr ⟨hx, hcaller, Bool.eq_false_iff.mpr hedge, ?_⟩
    obtain ⟨e, he, rfl⟩ := (hproj.edges x).mp hx
    obtain hmem | ⟨call, v, o, obj, hs, hk, hv, hpoints, ho, hne, hd⟩ := he.edge_or_foreign hw
    · exact absurd (World.hasEdge_hierarchyGraph.mpr
        ⟨World.isReachable_hierarchyGraph.mp hcaller, hmem⟩) hedge
    · have hknown : obj.cls.idx < w.program.classes.size := Heap.class_known hw.check (hheap ▸ ho)
      exact ⟨call, v, o.obj, obj, hs, hk, hv, (hproj.pointsTo v o.obj).mpr ⟨_, _, hpoints⟩, ho,
        Hierarchy.isSubtype?_known hknown hne, hd⟩

namespace Shapes

/-- The square draws itself by the method of its base. -/
theorem dispatches_draw (named : Fin 4) (sel : Selector) : ∃ o obj, Dispatches (world named)
    (Derives (world named) sel) sel.entry ⟨⟨0⟩, 1⟩ (drawCall named) o obj ⟨2⟩ := by
  have hreach : Derives (world named) sel (.reaches ⟨sel.entry, ⟨0⟩⟩) := .rule .entry
  have hs : (world named).program.stmt? ⟨⟨0⟩, 0⟩ = some (.alloc ⟨0⟩ ⟨3⟩) := rfl
  obtain ⟨o, obj, ho, hobj, _⟩ := Heap.perSite_object hs
  have hobj : (world named).heap.obj? o = some obj := hobj
  have hpoints : Derives (world named) sel (.points (.var sel.entry ⟨0⟩) ⟨sel.heap sel.entry ⟨0⟩ obj, o⟩) :=
    .rule (.alloc hreach hs ho hobj)
  have hdispatch : (world named).hierarchy.dispatch? ⟨3⟩ "draw()" = some ⟨2⟩ := by cbv
  have hcallee : (world named).hierarchy.callee? (some obj.cls) (drawCall named) = .ok (some ⟨2⟩) := by
    rw [object_eq hobj, Hierarchy.callee?_of_dispatches rfl]
    exact congrArg Except.ok hdispatch
  exact ⟨⟨_, o⟩, obj, hreach, rfl, ⟨⟨0⟩, rfl, hpoints⟩, hobj, hcallee⟩

/-- Every analysis finds that the square is drawn. -/
theorem hasEdge_draw (named : Fin 4) {c : Config} {sel : Selector} {limit : Nat} {r : Outcome}
    (hr : analyzeWith (world named) c sel limit = .ok r) : r.callGraph.hasEdge drawEdge = true := by
  have hproj := projects_of_analyzeWith (World.valid_of_withHeap (world_eq named)) hr
  obtain ⟨o, obj, hd⟩ := dispatches_draw named sel
  exact (hproj.edges _).mpr ⟨_, .rule (.instanceCall hd rfl rfl), rfl⟩

/-- The main class has no other subtype. -/
theorem eq_main {c : ClassId} (h : c ∈ (world 0).hierarchy.subtypes ⟨0⟩) : c = ⟨0⟩ := by
  have hleads := Hierarchy.isSubtype?_iff.mp (Hierarchy.mem_subtypes.mp h)
  obtain hc | ⟨d, _, hd⟩ := Relation.ReflTransGen.cases_tail hleads
  · exact hc.symm
  · have hall : ∀ x ∈ Hierarchy.subtypePairs (program 0), x.1 ≠ ⟨0⟩ := by decide
    exact absurd rfl (hall _ (Hierarchy.mem_subtypePairs.mpr hd))

theorem draw_missing : (world 0).hierarchyGraph.hasEdge drawEdge = false := by
  rw [Bool.eq_false_iff]
  intro hedge
  obtain ⟨_, _, call, hs, _, hm⟩ := World.mem_hierarchyEdges.mp (World.hasEdge_hierarchyGraph.mp hedge).2
  rw [call_eq hs] at hm
  obtain ⟨_, c, hc, hd⟩ := (Hierarchy.mem_targets rfl).mp hm
  rw [eq_main hc] at hd
  have hnone : (world 0).hierarchy.dispatch? ⟨0⟩ "draw()" = none := by cbv
  rw [show (drawCall 0).target.subsignature = "draw()" from rfl, hnone] at hd
  cases hd

end Shapes

/-- A call in a method of the class hierarchy's graph is in that graph, unless its receiver is of
another type than the named one. So the graph has all methods and calls of an analysis, or there is
such a call. -/
theorem hierarchy_covers_or_escapes {p : Program} {w : World} {c : Config} {r : Outcome}
    (hw : World.ofProgram p = .ok w) (hr : analyze w c = .ok r) :
    (∀ x, r.callGraph.hasEdge x = true → w.hierarchyGraph.isReachable x.caller = true →
      w.hierarchyGraph.hasEdge x = true ∨ r.Escapes w x) ∧
    (r.callGraph.Within w.hierarchyGraph ∨ ∃ x, r.Escapes w x) := by
  have hvalid := World.valid_of_withHeap hw
  have hproj := projects_of_analyzeWith hvalid (analyzeAt_of_analyze hr)
  have hedges : ∀ x, r.callGraph.hasEdge x = true → w.hierarchyGraph.isReachable x.caller = true →
      w.hierarchyGraph.hasEdge x = true ∨ r.Escapes w x := fun x hx hcaller =>
    hproj.edge_or_escapes hvalid (World.heap_of_ofProgram hw) hx hcaller
  refine ⟨hedges, ?_⟩
  by_cases hesc : ∃ x, r.Escapes w x
  · exact Or.inr hesc
  · refine Or.inl (hproj.within fun f d => d.covered fun e he hcaller => ?_)
    have hx := (hproj.edges e.project).mpr ⟨e, he, rfl⟩
    obtain hedge | hescape := hedges _ hx (World.isReachable_hierarchyGraph.mpr hcaller)
    · exact (World.hasEdge_hierarchyGraph.mp hedge).2
    · exact absurd ⟨_, hescape⟩ hesc

/-- The square, told to draw itself as if it were of the main class. -/
theorem hierarchy_covers_or_escapes_shapes : ∃ r, analyze (Shapes.world 0) .standard = .ok r ∧
    r.Escapes (Shapes.world 0) Shapes.drawEdge := by
  obtain ⟨r, hr⟩ := Shapes.exists_outcome 0 .standard .insensitive
  have hr : analyze (Shapes.world 0) .standard = .ok r := hr
  refine ⟨r, hr, ?_⟩
  have hcaller : (Shapes.world 0).hierarchyGraph.isReachable ⟨0⟩ = true :=
    World.isReachable_hierarchyGraph.mpr (Shapes.world 0).entry_mem_hierarchyReachable
  obtain hedge | hesc := (hierarchy_covers_or_escapes (Shapes.world_eq 0) hr).1 _
    (Shapes.hasEdge_draw 0 (analyzeAt_of_analyze hr)) hcaller
  · rw [Shapes.draw_missing] at hedge
    cases hedge
  · exact hesc

/-- A valid program with a call that the hierarchy misses. -/
theorem hierarchy_misses_draw : ∃ w r, World.ofProgram (Shapes.program 0) = .ok w ∧
    analyze w .standard = .ok r ∧ r.callGraph.hasEdge Shapes.drawEdge = true ∧
    w.hierarchyGraph.hasEdge Shapes.drawEdge = false := by
  obtain ⟨r, hr⟩ := Shapes.exists_outcome 0 .standard .insensitive
  exact ⟨_, r, Shapes.world_eq 0, hr, Shapes.hasEdge_draw 0 hr, Shapes.draw_missing⟩

end PointsTo
