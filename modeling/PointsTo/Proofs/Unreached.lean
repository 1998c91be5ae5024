import PointsTo.Proofs.Lockstep
import PointsTo.Proofs.Reporting

/-!
# Code that is not reached

Valid programs that differ in the bodies of methods which an analysis does not
reach have the same report. Objects are numbered over all methods, so they have
other numbers; but they stand in the same order.
-/

namespace PointsTo

/-! ## Headers -/

def Method.header (m : Method) : Method := { m with body := #[] }

namespace Program

def headers (p : Program) : Program := { p with methods := p.methods.map Method.header }

structure Agrees (live : MethodId → Prop) (p p' : Program) : Prop where
  headers : p'.headers = p.headers
  method : ∀ m, live m → p'.method? m = p.method? m

theorem method?_headers (p : Program) (m : MethodId) : p.headers.method? m = (p.method? m).map .header := by
  simp [method?, headers]

theorem signature?_headers (p : Program) (m : MethodId) : p.headers.signature? m = p.signature? m := by
  unfold signature?
  rw [method?_headers]
  cases p.method? m <;> rfl

theorem varText?_headers (p : Program) (v : VarId) : p.headers.varText? v = p.varText? v := by
  unfold varText?
  cases hv : p.var? v with
  | none => rw [show p.headers.var? v = none from hv]; rfl
  | some var =>
    rw [show p.headers.var? v = some var from hv]
    simp only [Option.bind_eq_bind, Option.bind_some, method?_headers]
    cases p.method? var.method <;> rfl

theorem entry_of_check {p : Program} {m : MethodId} (h : p.check = .ok m) : p.entry = some m := by
  have hentry := check_entry h
  unfold checkEntry at hentry
  cases he : p.entry with
  | none => simp [he] at hentry
  | some main =>
    simp only [he] at hentry
    split at hentry
    · cases hentry
    · split at hentry
      · rw [Except.ok.inj hentry]
      · cases hentry

end Program

namespace Hierarchy

def headers (h : Hierarchy) : Hierarchy := { h with program := h.program.headers }

theorem ofProgram_headers (p : Program) : ofProgram p.headers = (ofProgram p).headers := by
  unfold ofProgram headers Program.headers
  simp only [Array.toList_map, List.zipIdx_map, List.foldl_map]
  rfl

theorem isAbstract?_headers (h : Hierarchy) (m : MethodId) : h.headers.isAbstract? m = h.isAbstract? m := by
  unfold isAbstract?
  rw [show h.headers.program = h.program.headers from rfl, Program.method?_headers, Option.map_map]
  rfl

section
variable {h h' : Hierarchy} (hclasses : h'.program.classes = h.program.classes)
include hclasses

theorem superclassesUpTo_congr : ∀ n c, h'.superclassesUpTo n c = h.superclassesUpTo n c
  | 0, _ => rfl
  | n + 1, c => by
    unfold superclassesUpTo superclass? Program.class?
    rw [hclasses, funext (superclassesUpTo_congr n)]

/-- Calls are resolved by the classes and by what is declared in them. -/
theorem callee?_congr (hmethods : h'.methodAt = h.methodAt)
    (habstract : ∀ m, h'.isAbstract? m = h.isAbstract? m) (type : Option ClassId) (call : Call) :
    h'.callee? type call = h.callee? type call := by
  unfold callee? dispatch? superclasses concreteMethod? declaredMethod?
  simp only [superclassesUpTo_congr hclasses, hclasses, hmethods, habstract]

end

theorem callee?_headers (h : Hierarchy) (type : Option ClassId) (call : Call) :
    h.headers.callee? type call = h.callee? type call := by
  refine callee?_congr ?_ ?_ h.isAbstract?_headers type call <;> rfl

theorem resolveField_headers (h : Hierarchy) (ref : FieldRef) :
    h.headers.resolveField ref = h.resolveField ref := rfl

end Hierarchy

/-! ## The order of objects -/

/-- Items that keep their keys keep their order. -/
theorem pairwise_filterMap_key {α β κ : Type} {R : κ → κ → Prop} {f : α → Option β} {g : α → κ} {k : β → κ}
    (hf : ∀ x y, f x = some y → k y = g x) {l : List α} (hl : l.Pairwise fun x y => R (g x) (g y)) :
    (l.filterMap f).Pairwise fun x y => R (k x) (k y) := by
  rw [List.pairwise_filterMap]
  refine hl.imp fun hxy a ha b hb => ?_
  rw [hf _ a ha, hf _ b hb]
  exact hxy

namespace Heap
variable {p : Program} {a b : ObjId} {x y : Obj}

theorem pairwise_allocations (p : Program) : (allocations p).Pairwise fun x y => x.site.Before y.site := by
  refine pairwise_filterMap_key (g := Prod.fst) (fun x obj hobj => ?_) p.pairwise_stmts
  obtain ⟨site, st⟩ := x
  cases st with
  | alloc lhs cls =>
    obtain ⟨_, _, rfl⟩ := Option.map_eq_some_iff.mp hobj
    rfl
  | _ => cases hobj

theorem before_of_lt (ha : (perSite p).obj? a = some x) (hb : (perSite p).obj? b = some y) (hlt : a < b) :
    x.site.Before y.site := by
  rw [obj?_perSite] at ha hb
  obtain ⟨hi, rfl⟩ := List.getElem?_eq_some_iff.mp ha
  obtain ⟨hj, rfl⟩ := List.getElem?_eq_some_iff.mp hb
  exact List.pairwise_iff_getElem.mp (pairwise_allocations p) a.idx b.idx hi hj hlt

theorem lt_iff_before (ha : (perSite p).obj? a = some x) (hb : (perSite p).obj? b = some y) :
    a < b ↔ x.site.Before y.site := by
  refine ⟨before_of_lt ha hb, fun h => ?_⟩
  rcases Nat.lt_trichotomy a.idx b.idx with hlt | heq | hgt
  · exact hlt
  · cases Id.ext_idx heq
    cases Option.some.inj (ha.symm.trans hb)
    exact absurd h h.not_before
  · exact absurd h (before_of_lt hb ha hgt).not_before

theorem eq_of_site (ha : (perSite p).obj? a = some x) (hb : (perSite p).obj? b = some y)
    (hsite : x.site = y.site) : a = b := by
  have hself : ∀ site : StmtId, ¬ site.Before site := fun _ h => h.not_before h
  rcases Nat.lt_trichotomy a.idx b.idx with hlt | heq | hgt
  · have hbefore := before_of_lt ha hb hlt
    rw [hsite] at hbefore
    exact absurd hbefore (hself _)
  · exact Id.ext_idx heq
  · have hbefore := before_of_lt hb ha hgt
    rw [hsite] at hbefore
    exact absurd hbefore (hself _)

theorem objAt?_of_obj? (ha : (perSite p).obj? a = some x) : (perSite p).objAt? x.site = some a := by
  obtain ⟨_, _, hs, _⟩ := mem_allocations.mp (mem_allocations_of_obj? ha)
  obtain ⟨b, y, hb, hy, hsite⟩ := perSite_object hs
  rw [hb, eq_of_site hy ha hsite]

/-- The number in `h'` of the object of the same site. Without one, the object comes after all of `h'`. -/
def moved (h h' : Heap) (o : ObjId) : ObjId :=
  ((h.obj? o).bind fun obj => h'.objAt? obj.site).getD ⟨h'.objects.size + o.idx⟩

theorem moved_cases (h h' : Heap) (o : ObjId) :
    (∃ obj, h.obj? o = some obj ∧ h'.objAt? obj.site = some (h.moved h' o)) ∨
      h.moved h' o = ⟨h'.objects.size + o.idx⟩ := by
  unfold moved
  cases ho : (h.obj? o).bind fun obj => h'.objAt? obj.site with
  | none => exact Or.inr rfl
  | some c => exact Or.inl (Option.bind_eq_some_iff.mp ho)

theorem moved_injective (p p' : Program) : Function.Injective ((perSite p).moved (perSite p')) := by
  have hlt : ∀ {site o}, (perSite p').objAt? site = some o → o.idx < (perSite p').objects.size := by
    intro site o ho
    obtain ⟨obj, hobj, _⟩ := object_of_objAt? ho
    exact (Array.getElem?_eq_some_iff.mp hobj).1
  intro a b hab
  rcases moved_cases (perSite p) (perSite p') a with ⟨x, hx, ha⟩ | ha <;>
    rcases moved_cases (perSite p) (perSite p') b with ⟨y, hy, hb⟩ | hb
  · rw [hab] at ha
    obtain ⟨z, hz, hzx⟩ := object_of_objAt? ha
    obtain ⟨z', hz', hzy⟩ := object_of_objAt? hb
    cases Option.some.inj (hz.symm.trans hz')
    exact eq_of_site hx hy (hzx.symm.trans hzy)
  · have hin := hlt ha
    rw [hab, hb] at hin
    exact absurd hin (by simp)
  · have hin := hlt hb
    rw [← hab, ha] at hin
    exact absurd hin (by simp)
  · rw [ha, hb] at hab
    exact Id.ext_idx (Nat.add_left_cancel (Id.mk.inj hab))

theorem obj?_moved_of_mem {p' : Program} (ha : (perSite p).obj? a = some x) (hx : x ∈ allocations p') :
    (perSite p').obj? ((perSite p).moved (perSite p') a) = some x := by
  obtain ⟨i, hi⟩ := List.mem_iff_getElem?.mp hx
  have hi : (perSite p').obj? ⟨i⟩ = some x := (obj?_perSite p' ⟨i⟩).trans hi
  have hmoved : (perSite p).moved (perSite p') a = ⟨i⟩ := by
    simp [moved, ha, objAt?_of_obj? hi]
  rw [hmoved, hi]

end Heap

namespace Program.Agrees
variable {live : MethodId → Prop} {p p' : Program} (h : p.Agrees live p') {a b : ObjId} {x y : Obj}
include h

theorem obj?_moved (ha : (Heap.perSite p).obj? a = some x) (hx : live x.site.method) :
    (Heap.perSite p').obj? ((Heap.perSite p).moved (.perSite p') a) = some x := by
  obtain ⟨lhs, method, hs, hm, hc⟩ := Heap.mem_allocations.mp (Heap.mem_allocations_of_obj? ha)
  refine Heap.obj?_moved_of_mem ha (Heap.mem_allocations.mpr ⟨lhs, method, ?_, (h.method _ hx).trans hm, hc⟩)
  unfold stmt? at hs ⊢
  rw [h.method _ hx, hs]

theorem moved_lt (ha : (Heap.perSite p).obj? a = some x) (hb : (Heap.perSite p).obj? b = some y)
    (hx : live x.site.method) (hy : live y.site.method) (hlt : a < b) :
    (Heap.perSite p).moved (.perSite p') a < (Heap.perSite p).moved (.perSite p') b :=
  (Heap.lt_iff_before (h.obj?_moved ha hx) (h.obj?_moved hb hy)).mpr (Heap.before_of_lt ha hb hlt)

end Program.Agrees

/-! ## Accesses of one variable -/

namespace AccessIndex
variable {h : Hierarchy} {v : VarId}

theorem share_of_not_used {x : StmtId × Stmt} (hv : v ∉ x.2.used) : share h v x = .empty := by
  obtain ⟨site, st⟩ := x
  cases st with
  | loadField lhs base ref | storeField base ref rhs =>
    cases base with
    | none => rfl
    | some b =>
      have hb : ¬ b = v := by rintro rfl; simp [Stmt.used] at hv
      simp [share, fieldStore?, fieldLoad?, arrayStore?, arrayLoad?, callOn?, Accesses.empty, hb]
  | loadArray lhs base | storeArray base rhs =>
    have hb : ¬ base = v := by rintro rfl; simp [Stmt.used] at hv
    simp [share, fieldStore?, fieldLoad?, arrayStore?, arrayLoad?, callOn?, Accesses.empty, hb]
  | invoke call =>
    have hr : ¬ call.receiver = some v := by intro hr; simp [Stmt.used, hr] at hv
    simp [share, fieldStore?, fieldLoad?, arrayStore?, arrayLoad?, callOn?, Accesses.empty, hr]
  | _ => rfl

theorem foldl_share_of_not_used : ∀ {l : List (StmtId × Stmt)} (a : Accesses), (∀ x ∈ l, v ∉ x.2.used) →
    l.foldl (fun a x => a.append (share h v x)) a = a
  | [], _, _ => rfl
  | x :: l, a, hl => by
    rw [List.foldl_cons, share_of_not_used (hl x (by simp)), Accesses.append_empty]
    exact foldl_share_of_not_used a fun y hy => hl y (by simp [hy])

/-- The accesses of a variable stand in the method that it belongs to. -/
theorem accessesOf_of_owner {index : AccessIndex} (hi : ofHierarchy h = .ok index) {entry m : MethodId}
    {method : Method} (hcheck : h.program.check = .ok entry) (hv : h.program.owner? v = some m)
    (hm : h.program.method? m = some method) :
    index.accessesOf v = (h.program.body m).foldl (fun a x => a.append (share h v x)) .empty := by
  obtain ⟨l, l', hl⟩ := List.append_of_mem (Program.mem_methodIds.mpr ⟨method, hm⟩)
  have hnodup : (m :: (l ++ l')).Nodup := by
    rw [← List.nodup_middle, ← hl]
    exact h.program.pairwise_methodIds.imp fun hlt heq => Nat.ne_of_lt hlt (congrArg Id.idx heq)
  have hskip : ∀ k, k ⊆ l ++ l' → ∀ a : Accesses,
      (k.flatMap h.program.body).foldl (fun a x => a.append (share h v x)) a = a := by
    intro k hk a
    refine foldl_share_of_not_used a fun x hx hused => ?_
    obtain ⟨n, hn, hx⟩ := List.mem_flatMap.mp hx
    obtain ⟨hsite, hs⟩ := Program.mem_body.mp hx
    have howner := Program.owner_of_used hcheck hs hused
    rw [hsite, hv] at howner
    exact (List.nodup_cons.mp hnodup).1 (Option.some.inj howner ▸ hk hn)
  unfold ofHierarchy at hi
  rw [accessesOf_foldlM v hi, Program.stmts, hl, List.flatMap_append, List.flatMap_cons, List.foldl_append,
    List.foldl_append, hskip l (by simp), hskip l' (by simp)]
  simp [accessesOf, accesses?, empty]

theorem share_headers (h : Hierarchy) (v : VarId) : share h.headers v = share h v := rfl

end AccessIndex

/-! ## Mirrored tasks -/

theorem Selector.mirrors_ofSensitivity (ρ : ObjId → ObjId) (sens : Sensitivity) :
    (ofSensitivity sens).Mirrors ρ (ofSensitivity sens) := by
  obtain ⟨kind, k⟩ := sens
  cases kind <;> constructor <;> intros <;>
    simp [ofSensitivity, insensitive, callSite, object, type, hybrid, Context.rename, Context.map_suffix,
      Context.map_append, Element.rename] <;> rfl

section
variable {w : World} {sel : Selector} (hheap : w.heap = .perSite w.program) {o : Instance}
include hheap

theorem Allocates.site_eq {c : Context} {site : StmtId} {obj : Obj} (h : Allocates w sel c site o obj) :
    obj.site = site := by
  have hplace := h.place
  have hobj := h.object
  rw [hheap] at hplace hobj
  obtain ⟨obj', hobj', hsite⟩ := Heap.object_of_objAt? hplace
  cases Option.some.inj (hobj.symm.trans hobj')
  exact hsite

/-- An object that is pointed to has its allocation in a reached method. -/
theorem Derives.obj_reached {p : Cell} (d : Derives w sel (.points p o)) :
    ∃ obj, w.heap.obj? o.obj = some obj ∧ ∃ c, Derives w sel (.reaches ⟨c, obj.site.method⟩) := by
  obtain ⟨c, site, obj, hmade⟩ := d.allocated
  refine ⟨obj, hmade.object, c, ?_⟩
  rw [hmade.site_eq hheap]
  exact hmade.reached

end

namespace Program.Agrees
variable {live : MethodId → Prop} {p p' : Program} (h : p.Agrees live p')
include h

theorem hierarchy_headers : (Hierarchy.ofProgram p').headers = (Hierarchy.ofProgram p).headers := by
  rw [← Hierarchy.ofProgram_headers, h.headers, Hierarchy.ofProgram_headers]

theorem signature? (m : MethodId) : p'.signature? m = p.signature? m := by
  rw [← p'.signature?_headers, h.headers, p.signature?_headers]

theorem varText? (v : VarId) : p'.varText? v = p.varText? v := by
  rw [← p'.varText?_headers, h.headers, p.varText?_headers]

theorem classes : p'.classes = p.classes := (Program.mk.inj h.headers).1

theorem vars : p'.vars = p.vars := (Program.mk.inj h.headers).2.2.2.1

theorem entry : p'.entry = p.entry := (Program.mk.inj h.headers).2.2.2.2

theorem callee? (type : Option ClassId) (call : Call) :
    (Hierarchy.ofProgram p').callee? type call = (Hierarchy.ofProgram p).callee? type call := by
  rw [← Hierarchy.callee?_headers, h.hierarchy_headers, Hierarchy.callee?_headers]

theorem resolveField (ref : FieldRef) :
    (Hierarchy.ofProgram p').resolveField ref = (Hierarchy.ofProgram p).resolveField ref := by
  rw [← Hierarchy.resolveField_headers, h.hierarchy_headers, Hierarchy.resolveField_headers]

theorem share (v : VarId) :
    AccessIndex.share (.ofProgram p') v = AccessIndex.share (.ofProgram p) v := by
  rw [← AccessIndex.share_headers, h.hierarchy_headers, AccessIndex.share_headers]

theorem stmt? {site : StmtId} (hlive : live site.method) : p'.stmt? site = p.stmt? site := by
  unfold Program.stmt?
  rw [h.method _ hlive]

theorem body {m : MethodId} (hlive : live m) : p'.body m = p.body m := by
  unfold Program.body
  rw [h.method m hlive]

end Program.Agrees

structure World.PerSite (w : World) : Prop extends w.Valid where
  heap : w.heap = .perSite w.program

theorem World.perSite_of_ofProgram {p : Program} {w : World} (h : ofProgram p = .ok w) : w.PerSite :=
  ⟨valid_of_withHeap h, heap_of_ofProgram h⟩

def Task.Live (t : Task) (m : MethodId) : Prop := ∃ c, t.Derives (.reaches ⟨c, m⟩)

section
variable {t t' : Task} (h : t.world.program.Agrees t.Live t'.world.program) (hw : t.world.PerSite)
  (hw' : t'.world.PerSite)
include h hw hw'

theorem Task.Live.obj?_moved {a : ObjId} {x : Obj} (ha : t.world.heap.obj? a = some x)
    (hx : t.Live x.site.method) : t'.world.heap.obj? (t.world.heap.moved t'.world.heap a) = some x := by
  rw [hw.heap] at ha
  rw [hw.heap, hw'.heap]
  exact h.obj?_moved ha hx

theorem Task.accessesOf_of_agrees (ht : t.Valid) (ht' : t'.Valid) {c : Context} {v : VarId} {o : Instance}
    (hd : t.Derives (.points (.var c v) o)) : t'.index.accessesOf v = t.index.accessesOf v := by
  obtain ⟨m, howner, hreach⟩ := hd.owner hw.toValid
  obtain ⟨method, hm⟩ := hreach.grounded hw.toValid
  have hm' : t'.world.program.method? m = some method := (h.method m ⟨c, hreach⟩).trans hm
  have howner' : t'.world.program.owner? v = some m := by
    unfold Program.owner? Program.var? at howner ⊢
    rw [h.vars]
    exact howner
  rw [AccessIndex.accessesOf_of_owner ht.index hw.check howner hm,
    AccessIndex.accessesOf_of_owner ht'.index hw'.check howner' hm']
  show (t'.world.program.body m).foldl _ _ = (t.world.program.body m).foldl _ _
  rw [hw.hierarchy, hw'.hierarchy, h.share, h.body ⟨c, hreach⟩]

theorem Task.mirrors_of_agrees (ht : t.Valid) (ht' : t'.Valid)
    (hsel : t.selector.Mirrors (t.world.heap.moved t'.world.heap) t'.selector) :
    t.Mirrors (t.world.heap.moved t'.world.heap) t' where
  injective := by
    rw [hw.heap, hw'.heap]
    exact Heap.moved_injective _ _
  selector := hsel
  entry := by
    have hentry := h.entry
    rw [Program.entry_of_check hw.check, Program.entry_of_check hw'.check] at hentry
    exact Option.some.inj hentry
  callee type call := by
    rw [hw.hierarchy, hw'.hierarchy]
    exact h.callee? type call
  signature := h.signature?
  method hr := h.method _ ⟨_, hr⟩
  objAt {c site o} hr ho := by
    rw [hw.heap] at ho
    obtain ⟨obj, hobj, rfl⟩ := Heap.object_of_objAt? ho
    have hmoved := Task.Live.obj?_moved h hw hw' (hw.heap ▸ hobj) ⟨c, hr⟩
    rw [hw'.heap] at hmoved ⊢
    exact Heap.objAt?_of_obj? hmoved
  obj hd := by
    obtain ⟨obj, hobj, hlive⟩ := hd.obj_reached hw.heap
    rw [hobj]
    exact Task.Live.obj?_moved h hw hw' hobj hlive
  staticField {c site st ref} hr hs href := by
    have hs' : t'.world.program.stmt? site = some st := (h.stmt? ⟨c, hr⟩).trans hs
    obtain ⟨f, hf, hresolve⟩ := AccessIndex.staticField?_of_stmt ht.index hs href
    obtain ⟨f', hf', hresolve'⟩ := AccessIndex.staticField?_of_stmt ht'.index hs' href
    rw [hw.hierarchy] at hresolve
    rw [hw'.hierarchy, h.resolveField, hresolve] at hresolve'
    rw [hf, hf', Except.ok.inj hresolve']
  accesses hd := Task.accessesOf_of_agrees h hw hw' ht ht' hd

end

/-! ## Reports under other numbers -/

theorem Ascending.ofList_map {ρ : ObjId → ObjId} {l : List ObjId}
    (hρ : ∀ a ∈ l, ∀ b ∈ l, a < b → ρ a < ρ b) : ofList (l.map ρ) = (ofList l).map ρ := by
  refine eq_of_mem_iff (asc_ofList _) ?_ fun o => ?_
  · rw [Asc, List.pairwise_map]
    exact (asc_ofList l).imp_of_mem fun ha hb hlt => hρ _ (mem_ofList.mp ha) _ (mem_ofList.mp hb) hlt
  · simp [mem_ofList]

namespace Renames
variable {ρ : ObjId → ObjId} {s : State} {contexts : Table Context} {objs : Table CSObj}
  (h : Renames ρ s contexts objs) (name : String)
include h

theorem stats : (s.dress contexts objs).stats = s.stats := by
  have hcontexts : contexts.size = s.entities.contexts.size := by simp [Table.size_eq, h.contexts]
  have hobjs : objs.size = s.entities.objs.size := by simp [Table.size_eq, h.objs]
  simp [State.stats, State.dress, hcontexts, hobjs]

theorem objOf? (j : CSObjId) : (Outcome.ofState name (s.dress contexts objs)).objOf? j =
    ((Outcome.ofState name s).objOf? j).map ρ := by
  have hget : objs.get? j.idx = (s.entities.objs.get? j.idx).map (.rename ρ) := by
    rw [Table.get?_eq, Table.get?_eq, h.objs, List.getElem?_map]
  show (objs.get? j.idx).map CSObj.obj = ((s.entities.objs.get? j.idx).map CSObj.obj).map ρ
  rw [hget, Option.map_map, Option.map_map]
  rfl

theorem pointsTo {v : VarId} (hρ : ∀ a ∈ (Outcome.ofState name s).pointsTo v,
      ∀ b ∈ (Outcome.ofState name s).pointsTo v, a < b → ρ a < ρ b) :
    (Outcome.ofState name (s.dress contexts objs)).pointsTo v =
      ((Outcome.ofState name s).pointsTo v).map ρ := by
  unfold Outcome.pointsTo at hρ ⊢
  rw [← Ascending.ofList_map fun a ha b hb => hρ a (Ascending.mem_ofList.mpr ha) b (Ascending.mem_ofList.mpr hb),
    List.map_filterMap, ← funext (h.objOf? name)]
  rfl

end Renames

structure World.SameTexts (w w' : World) : Prop where
  signature : ∀ m, w'.program.signature? m = w.program.signature? m
  varIds : w'.program.varIds = w.program.varIds
  varText : ∀ v, w'.program.varText? v = w.program.varText? v

namespace World.SameTexts
variable {w w' : World} (h : w.SameTexts w') {r r' : Outcome} {ρ : ObjId → ObjId}
  (hpoints : ∀ v, r'.pointsTo v = (r.pointsTo v).map ρ)
  (htext : ∀ v, ∀ o ∈ r.pointsTo v, w'.objText? (ρ o) = w.objText? o)
include h hpoints htext

theorem reportPointsTo : r'.reportPointsTo? w' = r.reportPointsTo? w := by
  have hobjs : ∀ v, (r'.pointsTo v).mapM w'.objText? = (r.pointsTo v).mapM w.objText? := by
    intro v
    have htexts : (r.pointsTo v).map (w'.objText? ∘ ρ) = (r.pointsTo v).map w.objText? :=
      List.map_congr_left (htext v)
    rw [hpoints, List.mapM_map]
    show (r.pointsTo v).mapM (id ∘ w'.objText? ∘ ρ) = (r.pointsTo v).mapM (id ∘ w.objText?)
    rw [← List.mapM_map, ← List.mapM_map, htexts]
  unfold Outcome.reportPointsTo?
  rw [h.varIds]
  congr 1
  funext entries v
  have hobjs := hobjs v
  rw [hpoints] at hobjs ⊢
  cases hv : r.pointsTo v with
  | nil => rfl
  | cons o os =>
    rw [hv] at hobjs
    simp only [List.map_cons, h.varText] at hobjs ⊢
    rw [hobjs]

theorem report (hname : r'.selector = r.selector) (hcalls : r'.callGraph = r.callGraph)
    (hstats : r'.stats = r.stats) : r'.report? w' = r.report? w := by
  have hedge : Outcome.reportEdge? w' = Outcome.reportEdge? w := by
    funext e
    simp only [Outcome.reportEdge?, h.signature]
  unfold Outcome.report?
  rw [h.reportPointsTo hpoints htext, hname, hcalls, hstats, hedge, funext h.signature]

end World.SameTexts

/-- The calls, the objects under the numbers of the other world, and the report are the same. -/
structure Outcome.Renumbered (w w' : World) (r r' : Outcome) : Prop where
  callGraph : r'.callGraph = r.callGraph
  pointsTo : ∀ v, r'.pointsTo v = (r.pointsTo v).map (w.heap.moved w'.heap)
  report : r'.report? w' = r.report? w

section
variable {t t' : Task} (h : t.world.program.Agrees t.Live t'.world.program) (hw : t.world.PerSite)
  (hw' : t'.world.PerSite)
include h

theorem Task.sameTexts_of_agrees : t.world.SameTexts t'.world where
  signature := h.signature?
  varIds := by rw [Program.varIds, Program.varIds, h.vars]
  varText := h.varText?

include hw hw'

theorem Task.Live.objText_moved {a : ObjId} {x : Obj} (ha : t.world.heap.obj? a = some x)
    (hx : t.Live x.site.method) :
    t'.world.objText? (t.world.heap.moved t'.world.heap a) = t.world.objText? a := by
  unfold World.objText? Program.class?
  rw [ha, Task.Live.obj?_moved h hw hw' ha hx, h.classes]
  simp only [h.signature?]

/-- In the final states of both tasks a variable points to the same objects, under other numbers. -/
theorem State.Final.pointsTo_dress {s : State} (hs : s.Final t) (ht : t.Valid) {contexts : Table Context}
    {objs : Table CSObj} (hrename : Renames (t.world.heap.moved t'.world.heap) s contexts objs)
    (name : String) (v : VarId) : (Outcome.ofState name (s.dress contexts objs)).pointsTo v =
      ((Outcome.ofState name s).pointsTo v).map (t.world.heap.moved t'.world.heap) := by
  refine hrename.pointsTo name fun a ha b hb hlt => ?_
  obtain ⟨_, _, hda⟩ := (hs.mem_pointsTo ht name v a).mp ha
  obtain ⟨_, _, hdb⟩ := (hs.mem_pointsTo ht name v b).mp hb
  obtain ⟨x, hx, hlive⟩ := hda.obj_reached hw.heap
  obtain ⟨y, hy, hlive'⟩ := hdb.obj_reached hw.heap
  rw [hw.heap] at hx hy ⊢
  rw [hw'.heap]
  exact h.moved_lt hx hy hlive hlive' hlt

/-- The second task succeeds with the calls, the objects and the report of the first. -/
theorem Task.solve_of_agrees (ht : t.Valid) (ht' : t'.Valid) {X : Nat} (hample : t'.Ample X)
    (hsel : t.selector.Mirrors (t.world.heap.moved t'.world.heap) t'.selector) {order : Order} {s : State}
    (hs : t.solve order = .ok s) : ∃ s', t'.solve order = .ok s' ∧
      ∀ name, (Outcome.ofState name s).Renumbered t.world t'.world (Outcome.ofState name s') := by
  have hmirrors := Task.mirrors_of_agrees h hw hw' ht ht' hsel
  obtain ⟨contexts, objs, hrename, hs'⟩ := hmirrors.solve_of_ample ht hample hs
  have hfinal := Task.final_of_solve ht hs
  refine ⟨_, hs', fun name => ?_⟩
  have hpoints := hfinal.pointsTo_dress h hw hw' ht hrename name
  refine ⟨rfl, hpoints, (Task.sameTexts_of_agrees h).report hpoints (fun v o ho => ?_) rfl rfl hrename.stats⟩
  obtain ⟨_, _, hd⟩ := (hfinal.mem_pointsTo ht name v o).mp ho
  obtain ⟨x, hx, hlive⟩ := hd.obj_reached hw.heap
  exact Task.Live.objText_moved h hw hw' hx hlive

end

/-- **Unreached code has no influence.** If two valid programs differ in the bodies of methods that the
analysis of the first does not reach, and the field accesses of the second resolve, then its analysis
succeeds with the same calls, the same objects under other numbers, and the same report. -/
theorem unreached_code_irrelevant {p p' : Program} {w w' : World} {c : Config} {sens : Sensitivity}
    {r : Outcome} {t' : Task} (hw : World.ofProgram p = .ok w) (hw' : World.ofProgram p' = .ok w')
    (hr : analyzeAt w c sens = .ok r) (ht' : Task.ofSensitivity w' sens = .ok t')
    (hagree : p.Agrees (fun m => r.callGraph.isReachable m = true) p') :
    ∃ r' report, analyzeAt w' c sens = .ok r' ∧ r'.callGraph = r.callGraph ∧
      (∀ v, r'.pointsTo v = (r.pointsTo v).map (w.heap.moved w'.heap)) ∧
      r.report? w = some report ∧ r'.report? w' = some report := by
  have hper := World.perSite_of_ofProgram hw
  have hper' := World.perSite_of_ofProgram hw'
  obtain ⟨report, hreport⟩ := exists_report hw hr
  have hreach := (projects_of_analyzeWith hper.toValid hr).reachable
  rw [← World.program_of_ofProgram hw, ← World.program_of_ofProgram hw'] at hagree
  obtain ⟨t, s, ht, hs, hstate⟩ := analyzeWith_ok hr
  have hvalid := Task.valid_of_new ht hper.toValid
  have hvalid' := Task.valid_of_new ht' hper'.toValid
  have hample := Task.ample_of_sensitivity hper'.toValid ht'
  obtain ⟨rfl, hsel, _⟩ := Task.new_eq ht
  obtain ⟨hworld', hsel', _⟩ := Task.new_eq ht'
  subst hworld'
  have hlive : t.world.program.Agrees t.Live t'.world.program := by
    refine ⟨hagree.headers, fun m hm => hagree.method m ((hreach m).mpr ?_)⟩
    rw [← hsel]
    exact hm
  have hmirrors : t.selector.Mirrors (t.world.heap.moved t'.world.heap) t'.selector := by
    rw [hsel, hsel']
    exact Selector.mirrors_ofSensitivity _ sens
  obtain ⟨s', hs', hsame⟩ := Task.solve_of_agrees hlive hper hper' hvalid hvalid' hample hmirrors hs
  have hsame := hsame (Selector.ofSensitivity sens).name
  obtain ⟨r', hr'⟩ := analyzeWith_of_solve ht' hs'
  obtain ⟨t₁, s₁, ht₁, hs₁, hstate'⟩ := analyzeWith_ok hr'
  cases Except.ok.inj (ht'.symm.trans ht₁)
  cases Except.ok.inj (hs'.symm.trans hs₁)
  refine ⟨r', report, hr', ?_⟩
  -- the alias index does not show in calls, objects and report
  obtain rfl | rfl := hstate <;> obtain rfl | rfl := hstate' <;>
    exact ⟨hsame.callGraph, hsame.pointsTo, hreport, hsame.report.trans hreport⟩

/-! ## A method that nothing calls -/

namespace Idle

def runCall : Call := ⟨.virtual, ⟨⟨0⟩, "run()"⟩, some ⟨1⟩, [], none⟩

/-- `main` runs an object. The method before it is not called, and makes an object if it is `busy`. -/
def program (busy : Bool) : Program where
  classes := #[⟨"Main", none, [], false, false, [⟨0⟩, ⟨1⟩, ⟨2⟩], []⟩]
  methods := #[
    ⟨"idle", ⟨0⟩, "idle()", true, false, none, [], if busy then #[.alloc ⟨0⟩ ⟨0⟩] else #[]⟩,
    ⟨"main", ⟨0⟩, "main()", true, false, none, [], #[.alloc ⟨1⟩ ⟨0⟩, .invoke runCall]⟩,
    ⟨"run", ⟨0⟩, "run()", false, false, some ⟨2⟩, [], #[]⟩]
  fields := #[]
  vars := #[⟨"x", ⟨0⟩⟩, ⟨"y", ⟨1⟩⟩, ⟨"this", ⟨2⟩⟩]
  entry := some ⟨1⟩

def world (busy : Bool) : World := ⟨.ofProgram (program busy), .perSite (program busy), ⟨1⟩⟩

theorem world_eq (busy : Bool) : World.ofProgram (program busy) = .ok (world busy) := by
  have hcheck : (program busy).check = .ok ⟨1⟩ := by cases busy <;> rfl
  exact World.withHeap_of_check hcheck _

theorem no_access (busy : Bool) : ∀ x ∈ (program busy).stmts, AccessIndex.access? x.2 = none := by
  cases busy <;> decide

theorem exists_outcome (busy : Bool) (c : Config) (sens : Sensitivity) :
    ∃ r, analyzeAt (world busy) c sens = .ok r := by
  have hfit : (program busy).CallsFit := by cases busy <;> decide
  exact exists_outcome_of_callsFit (world_eq busy) (no_access busy) hfit c sens

theorem not_called {busy : Bool} {site : StmtId} {call : Call} {type : Option ClassId}
    (hs : (world busy).program.stmt? site = some (.invoke call)) :
    (world busy).hierarchy.callee? type call ≠ .ok (some ⟨0⟩) := by
  have hall : ∀ x ∈ (program busy).stmts, ∀ call ∈ x.2.call?, call.target.subsignature = "run()" := by
    cases busy <;> decide
  intro hc
  obtain ⟨method, hm, hsig⟩ := Hierarchy.callee?_spec hc
  rw [hall _ (Program.mem_stmts.mpr hs) call rfl] at hsig
  cases Option.some.inj hm
  exact absurd (show "idle()" = "run()" from hsig) (by decide)

theorem not_reached {busy : Bool} {sel : Selector} {c : Context} :
    ¬ Derives (world busy) sel (.reaches ⟨c, ⟨0⟩⟩) := by
  have hall : ∀ m, Derives (world busy) sel (.reaches m) → m.method ≠ ⟨0⟩ := by
    intro m hd
    cases hd.cases with
    | entry => exact show (⟨1⟩ : MethodId) ≠ ⟨0⟩ by decide
    | callee he =>
      cases he.cases with
      | staticCall _ hs _ hc =>
        rintro rfl
        exact not_called hs hc
      | instanceCall d _ _ =>
        rintro rfl
        exact not_called d.stmt d.callee
  exact fun hd => hall _ hd rfl

theorem agrees {c : Config} {sens : Sensitivity} {r : Outcome} (hr : analyzeAt (world false) c sens = .ok r) :
    (program false).Agrees (fun m => r.callGraph.isReachable m = true) (program true) := by
  refine ⟨by simp [Program.headers, program, Method.header], fun m hm => ?_⟩
  have hproj := projects_of_analyzeWith (World.valid_of_withHeap (world_eq false)) hr
  obtain ⟨_, hd⟩ := (hproj.reachable m).mp hm
  obtain ⟨i⟩ := m
  cases i with
  | zero => exact absurd hd not_reached
  | succ i => rfl

end Idle

/-- The object of `main` is another one if the idle method makes one too. -/
theorem unreached_code_irrelevant_idle : ∃ r r' report,
    analyzeAt (Idle.world false) .standard ⟨.object, 1⟩ = .ok r ∧
    analyzeAt (Idle.world true) .standard ⟨.object, 1⟩ = .ok r' ∧
    (Idle.world false).heap.moved (Idle.world true).heap ⟨0⟩ = ⟨1⟩ ∧
    r.report? (Idle.world false) = some report ∧ r'.report? (Idle.world true) = some report := by
  obtain ⟨r, hr⟩ := Idle.exists_outcome false .standard ⟨.object, 1⟩
  obtain ⟨t, ht⟩ := Task.exists_of_no_access (w := Idle.world true) (Idle.no_access true) _ _
  obtain ⟨r', report, hr', _, _, hreport, hreport'⟩ :=
    unreached_code_irrelevant (Idle.world_eq false) (Idle.world_eq true) hr ht (Idle.agrees hr)
  have hobj : (Heap.perSite (Idle.program true)).obj? ⟨1⟩ = some ⟨⟨⟨1⟩, 0⟩, ⟨0⟩, ⟨0⟩⟩ := rfl
  refine ⟨r, r', report, hr, hr', ?_, hreport, hreport'⟩
  show ((Heap.perSite (Idle.program true)).objAt? ⟨⟨1⟩, 0⟩).getD _ = _
  rw [Heap.objAt?_of_obj? hobj]
  rfl

end PointsTo
