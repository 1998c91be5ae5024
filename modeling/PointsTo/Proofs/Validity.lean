import PointsTo.Proofs.Walks
import PointsTo.World

/-!
# What validity gives

The facts about a program that a successful check promises, and those that the
indices of its class hierarchy promise: every variable that a statement or a
method header mentions belongs to that method, and what is looked up is there.
-/

namespace PointsTo

section
variable {ε α β : Type}

theorem except_bind_ok {x : Except ε α} {f : α → Except ε β} {r : β} :
    x >>= f = .ok r ↔ ∃ a, x = .ok a ∧ f a = .ok r := by
  cases x with
  | error e => exact ⟨fun h => (by cases h), fun ⟨_, h, _⟩ => (by cases h)⟩
  | ok a => exact ⟨fun h => ⟨a, rfl, h⟩, fun ⟨b, h, hb⟩ => (by cases h; exact hb)⟩

theorem forM_ok {f : α → Except ε Unit} {l : List α} :
    l.forM f = .ok () ↔ ∀ x ∈ l, f x = .ok () := by
  induction l with
  | nil => simp [pure, Except.pure]
  | cons a l ih =>
    show (f a >>= fun _ => l.forM f) = .ok () ↔ _
    rw [except_bind_ok]
    constructor
    · rintro ⟨_, ha, hl⟩ x hx
      rcases List.mem_cons.mp hx with rfl | hx
      · exact ha
      · exact ih.mp hl x hx
    · intro h
      exact ⟨(), h a (by simp), ih.mpr fun x hx => h x (by simp [hx])⟩

end

section
variable {α κ ν : Type} [BEq κ] [LawfulBEq κ] [Hashable κ] (key : α → κ) (val : α → ν) (k : κ)

/-- Of several insertions under one key the last one counts. -/
theorem getElem?_foldl_insert_eq : ∀ (l : List α) (index : Std.HashMap κ ν),
    (l.foldl (fun index x => index.insert (key x) (val x)) index)[k]? =
      ((l.reverse.find? fun x => key x == k).map val).or index[k]?
  | [], index => by simp
  | x :: l, index => by
    rw [List.foldl_cons, getElem?_foldl_insert_eq l, List.reverse_cons, List.find?_append,
      Std.HashMap.getElem?_insert]
    cases l.reverse.find? fun x => key x == k with
    | some y => simp
    | none => by_cases hx : key x = k <;> simp [hx]

/-- What a chain of insertions finds was inserted, unless it was there before. -/
theorem getElem?_foldl_insert (v : ν) (l : List α) (index : Std.HashMap κ ν)
    (h : (l.foldl (fun index x => index.insert (key x) (val x)) index)[k]? = some v) :
    index[k]? = some v ∨ ∃ x ∈ l, key x = k ∧ val x = v := by
  rw [getElem?_foldl_insert_eq] at h
  rcases Option.or_eq_some_iff.mp h with h | ⟨_, h⟩
  · obtain ⟨x, hx, hv⟩ := Option.map_eq_some_iff.mp h
    have hmem := List.mem_of_find?_eq_some hx
    have hkey := List.find?_some hx
    exact Or.inr ⟨x, List.mem_reverse.mp hmem, by simpa using hkey, hv⟩
  · exact Or.inl h

end

/-! ## Statements -/

/-- By method, then by place. -/
def StmtId.Before (a b : StmtId) : Prop := a.method < b.method ∨ a.method = b.method ∧ a.index < b.index

theorem StmtId.Before.not_before {a b : StmtId} (h : a.Before b) : ¬ b.Before a := by
  unfold Before at *
  simp only [Id.lt_def] at *
  rintro (hm | ⟨hm, hi⟩)
  · rcases h with h | ⟨h, _⟩
    · omega
    · rw [h] at hm; omega
  · rcases h with h | ⟨_, h⟩
    · rw [hm] at h; omega
    · omega

theorem StmtId.Before.ne {a b : StmtId} (h : a.Before b) : a ≠ b := by
  intro he
  subst he
  exact h.not_before h

namespace Program
variable {p : Program}

def owner? (p : Program) (v : VarId) : Option MethodId := (p.var? v).map Var.method

theorem mem_body {m : MethodId} {site : StmtId} {s : Stmt} :
    (site, s) ∈ p.body m ↔ site.method = m ∧ p.stmt? site = some s := by
  obtain ⟨n, i⟩ := site
  unfold body stmt?
  cases hm : p.method? m with
  | none =>
    refine ⟨fun h => (by simp at h), ?_⟩
    rintro ⟨rfl, h⟩
    simp [hm] at h
  | some method =>
    simp only [List.mem_map, Prod.exists, Prod.mk.injEq, StmtId.mk.injEq, List.mem_zipIdx_iff_getElem?]
    constructor
    · rintro ⟨t, j, ht, ⟨rfl, rfl⟩, rfl⟩
      simpa [hm] using ht
    · rintro ⟨rfl, h⟩
      refine ⟨s, i, ?_, ⟨rfl, rfl⟩, rfl⟩
      simpa [hm] using h

theorem method?_of_stmt? {site : StmtId} {s : Stmt} (h : p.stmt? site = some s) :
    ∃ method, p.method? site.method = some method ∧ method.body[site.index]? = some s := by
  unfold stmt? at h
  exact Option.bind_eq_some_iff.mp h

theorem mem_stmts {site : StmtId} {s : Stmt} : (site, s) ∈ p.stmts ↔ p.stmt? site = some s := by
  unfold stmts
  rw [List.mem_flatMap]
  constructor
  · rintro ⟨m, _, h⟩
    exact (mem_body.mp h).2
  · intro h
    refine ⟨site.method, ?_, mem_body.mpr ⟨rfl, h⟩⟩
    obtain ⟨method, hm, _⟩ := method?_of_stmt? h
    exact mem_methodIds.mpr ⟨method, hm⟩

theorem length_body_le (p : Program) (m : MethodId) : (p.body m).length ≤ p.stmts.length := by
  cases hm : p.method? m with
  | none => simp [body, hm]
  | some method =>
    obtain ⟨l, l', hl⟩ := List.append_of_mem (mem_methodIds.mpr ⟨method, hm⟩)
    unfold stmts
    rw [hl, List.flatMap_append, List.flatMap_cons]
    simp only [List.length_append]
    omega

theorem pairwise_body (p : Program) (m : MethodId) :
    (p.body m).Pairwise fun x y => x.1.Before y.1 := by
  unfold body
  cases p.method? m with
  | none => exact .nil
  | some method =>
    have hplaces : (method.body.toList.zipIdx.map Prod.snd).Pairwise (· < ·) := by
      rw [List.zipIdx_map_snd]
      exact List.pairwise_lt_range'
    rw [List.pairwise_map] at hplaces ⊢
    exact hplaces.imp fun hlt => Or.inr ⟨rfl, hlt⟩

theorem pairwise_methodIds (p : Program) : p.methodIds.Pairwise (· < ·) := by
  unfold methodIds
  rw [List.pairwise_map]
  exact List.pairwise_lt_range

theorem pairwise_stmts (p : Program) : p.stmts.Pairwise fun x y => x.1.Before y.1 := by
  unfold stmts
  rw [List.pairwise_flatMap]
  refine ⟨fun m _ => p.pairwise_body m, p.pairwise_methodIds.imp fun hlt x hx y hy => Or.inl ?_⟩
  rw [(mem_body.mp hx).1, (mem_body.mp hy).1]
  exact hlt

/-! ## Variables -/

theorem checkVar_ok {m : MethodId} {method : Method} {v : VarId} :
    p.checkVar m method v = .ok () ↔ p.owner? v = some m := by
  unfold checkVar owner?
  cases p.var? v with
  | none => simp
  | some var =>
    by_cases h : var.method = m
    · simp [h]
    · simp [h]

theorem checkClassRef_ok {owner : String} {c : ClassId} :
    p.checkClassRef owner c = .ok () ↔ c.idx < p.classes.size := by
  unfold checkClassRef
  by_cases h : c.idx < p.classes.size
  · simp [h]
  · simp [h]

section
variable {entry : MethodId} (h : p.check = .ok entry)
include h

theorem check_class {c : ClassId} {cls : Class} (hc : p.class? c = some cls) :
    p.checkClass c cls = .ok () := by
  unfold check at h
  obtain ⟨_, h, _⟩ := except_bind_ok.mp h
  refine forM_ok.mp h (cls, c.idx) ?_
  rw [List.mem_zipIdx_iff_getElem?, Array.getElem?_toList]
  exact hc

theorem check_field {f : FieldId} {field : Field} (hf : p.field? f = some field) :
    p.checkField field = .ok () := by
  unfold check at h
  obtain ⟨_, _, h⟩ := except_bind_ok.mp h
  obtain ⟨_, _, h⟩ := except_bind_ok.mp h
  obtain ⟨_, h, _⟩ := except_bind_ok.mp h
  exact forM_ok.mp h field (Array.mem_toList_iff.mpr (Array.mem_of_getElem? hf))

theorem check_method {m : MethodId} {method : Method} (hm : p.method? m = some method) :
    p.checkMethod m method = .ok () := by
  unfold check at h
  obtain ⟨_, _, h⟩ := except_bind_ok.mp h
  obtain ⟨_, _, h⟩ := except_bind_ok.mp h
  obtain ⟨_, _, h⟩ := except_bind_ok.mp h
  obtain ⟨_, h, _⟩ := except_bind_ok.mp h
  refine forM_ok.mp h (method, m.idx) ?_
  rw [List.mem_zipIdx_iff_getElem?, Array.getElem?_toList]
  exact hm

theorem check_entry : p.checkEntry = .ok entry := by
  unfold check at h
  obtain ⟨_, _, h⟩ := except_bind_ok.mp h
  obtain ⟨_, _, h⟩ := except_bind_ok.mp h
  obtain ⟨_, _, h⟩ := except_bind_ok.mp h
  obtain ⟨_, _, h⟩ := except_bind_ok.mp h
  exact h

theorem entry_known : ∃ main, p.method? entry = some main := by
  have he := check_entry h
  unfold checkEntry at he
  split at he
  · cases he
  · split at he
    · cases he
    · rename_i main hm
      split at he
      · cases he; exact ⟨main, hm⟩
      · cases he

theorem class_lt_of_method {m : MethodId} {method : Method} (hm : p.method? m = some method) :
    method.cls.idx < p.classes.size := by
  have hc := check_method h hm
  unfold checkMethod at hc
  obtain ⟨_, hc, _⟩ := except_bind_ok.mp hc
  exact checkClassRef_ok.mp hc

theorem class_lt_of_field {f : FieldId} {field : Field} (hf : p.field? f = some field) :
    field.cls.idx < p.classes.size := checkClassRef_ok.mp (check_field h hf)

theorem class_lt_of_supertype {c d : ClassId} (hd : d ∈ p.supertypes c) : d.idx < p.classes.size := by
  unfold supertypes at hd
  cases hc : p.class? c with
  | none => simp [hc] at hd
  | some cls =>
    have hcheck := check_class h hc
    unfold checkClass at hcheck
    obtain ⟨_, hcheck, _⟩ := except_bind_ok.mp hcheck
    exact checkClassRef_ok.mp (forM_ok.mp hcheck d (by simpa [hc] using hd))

/-- The static methods are those without `this`. -/
theorem isStatic_iff {m : MethodId} {method : Method} (hm : p.method? m = some method) :
    method.isStatic = true ↔ method.thisVar = none := by
  have hc := check_method h hm
  unfold checkMethod at hc
  obtain ⟨_, _, hc⟩ := except_bind_ok.mp hc
  obtain ⟨_, hc, _⟩ := except_bind_ok.mp hc
  unfold checkThis at hc
  cases hs : method.isStatic <;> cases hthis : method.thisVar <;> simp [hs, hthis] at hc ⊢

theorem signature?_of_method {m : MethodId} {method : Method} (hm : p.method? m = some method) :
    ∃ text, p.signature? m = some text := by
  have hc := class_lt_of_method h hm
  unfold signature? class?
  rw [hm]
  simp [hc]

theorem owner_of_this {m : MethodId} {method : Method} (hm : p.method? m = some method) {v : VarId}
    (hv : method.thisVar = some v) : p.owner? v = some m := by
  have hc := check_method h hm
  unfold checkMethod at hc
  obtain ⟨_, _, hc⟩ := except_bind_ok.mp hc
  obtain ⟨_, _, hc⟩ := except_bind_ok.mp hc
  obtain ⟨_, hc, _⟩ := except_bind_ok.mp hc
  exact checkVar_ok.mp (forM_ok.mp hc v (by simp [hv]))

theorem owner_of_param {m : MethodId} {method : Method} (hm : p.method? m = some method) {v : VarId}
    (hv : v ∈ method.params) : p.owner? v = some m := by
  have hc := check_method h hm
  unfold checkMethod at hc
  obtain ⟨_, _, hc⟩ := except_bind_ok.mp hc
  obtain ⟨_, _, hc⟩ := except_bind_ok.mp hc
  obtain ⟨_, _, hc⟩ := except_bind_ok.mp hc
  obtain ⟨_, hc, _⟩ := except_bind_ok.mp hc
  exact checkVar_ok.mp (forM_ok.mp hc v hv)

theorem check_stmt {site : StmtId} {s : Stmt} (hs : p.stmt? site = some s) :
    ∃ method, p.checkStmt site.method method s = .ok () := by
  obtain ⟨method, hm, hb⟩ := method?_of_stmt? hs
  have hc := check_method h hm
  unfold checkMethod at hc
  obtain ⟨_, _, hc⟩ := except_bind_ok.mp hc
  obtain ⟨_, _, hc⟩ := except_bind_ok.mp hc
  obtain ⟨_, _, hc⟩ := except_bind_ok.mp hc
  obtain ⟨_, _, hc⟩ := except_bind_ok.mp hc
  refine ⟨method, forM_ok.mp hc s ?_⟩
  rw [Array.mem_toList_iff]
  exact Array.mem_of_getElem? hb

theorem check_target {site : StmtId} {s : Stmt} (hs : p.stmt? site = some s) :
    ∃ method, p.checkTarget method s = .ok () := by
  obtain ⟨method, hc⟩ := check_stmt h hs
  unfold checkStmt at hc
  obtain ⟨_, _, hc⟩ := except_bind_ok.mp hc
  obtain ⟨_, _, hc⟩ := except_bind_ok.mp hc
  exact ⟨method, hc⟩

theorem owner_of_defined {site : StmtId} {s : Stmt} (hs : p.stmt? site = some s) {v : VarId}
    (hv : s.defined = some v) : p.owner? v = some site.method := by
  obtain ⟨method, hc⟩ := check_stmt h hs
  unfold checkStmt at hc
  obtain ⟨_, hc, _⟩ := except_bind_ok.mp hc
  exact checkVar_ok.mp (forM_ok.mp hc v (by simp [hv]))

theorem owner_of_used {site : StmtId} {s : Stmt} (hs : p.stmt? site = some s) {v : VarId}
    (hv : v ∈ s.used) : p.owner? v = some site.method := by
  obtain ⟨method, hc⟩ := check_stmt h hs
  unfold checkStmt at hc
  obtain ⟨_, _, hc⟩ := except_bind_ok.mp hc
  obtain ⟨_, hc, _⟩ := except_bind_ok.mp hc
  exact checkVar_ok.mp (forM_ok.mp hc v hv)

/-- A returned variable is used by a `return` statement of the method. -/
theorem owner_of_returnVar {m : MethodId} {method : Method} (hm : p.method? m = some method)
    {v : VarId} (hv : v ∈ method.returnVars) : p.owner? v = some m := by
  unfold Method.returnVars at hv
  obtain ⟨s, hs, hv⟩ := List.mem_filterMap.mp hv
  obtain ⟨i, hi⟩ := List.mem_iff_getElem?.mp hs
  rw [Array.getElem?_toList] at hi
  have hst : p.stmt? ⟨m, i⟩ = some s := by
    unfold stmt?
    rw [hm]; exact hi
  refine owner_of_used h hst ?_
  cases s with
  | ret value => simpa [Stmt.used] using hv
  | _ => cases hv

end

end Program

/-! ## The class hierarchy -/

namespace Hierarchy
variable {p : Program}

theorem declaredMethod?_spec {c : ClassId} {sig : Subsignature} {m : MethodId}
    (h : (ofProgram p).declaredMethod? c sig = some m) :
    ∃ method, p.method? m = some method ∧ method.cls = c ∧ method.subsignature = sig := by
  rcases getElem?_foldl_insert (fun x : Method × Nat => (x.1.cls, x.1.subsignature))
    (fun x => (⟨x.2⟩ : MethodId)) _ _ _ _ h with h | ⟨⟨method, i⟩, hm, hk, hv⟩
  · simp at h
  · cases hk; cases hv
    rw [List.mem_zipIdx_iff_getElem?, Array.getElem?_toList] at hm
    exact ⟨method, hm, rfl, rfl⟩

theorem declaredField?_spec {c : ClassId} {name : String} {f : FieldId}
    (h : (ofProgram p).declaredField? c name = some f) :
    ∃ field, p.field? f = some field ∧ field.cls = c ∧ field.name = name := by
  rcases getElem?_foldl_insert (fun x : Field × Nat => (x.1.cls, x.1.name))
    (fun x => (⟨x.2⟩ : FieldId)) _ _ _ _ h with h | ⟨⟨field, i⟩, hm, hk, hv⟩
  · simp at h
  · cases hk; cases hv
    rw [List.mem_zipIdx_iff_getElem?, Array.getElem?_toList] at hm
    exact ⟨field, hm, rfl, rfl⟩

theorem resolveField_known {ref : FieldRef} {f : FieldId}
    (h : (ofProgram p).resolveField ref = .ok f) : ∃ field, p.field? f = some field := by
  unfold resolveField at h
  split at h
  · cases h
  · split at h
    · rename_i field hf
      cases h
      obtain ⟨c, _, hc⟩ := List.exists_of_findSome?_eq_some hf
      obtain ⟨field, hf, _⟩ := declaredField?_spec hc
      exact ⟨field, hf⟩
    · cases h

/-- A walk over the supertypes starts at the class itself. -/
theorem supertypes_eq_cons (h : Hierarchy) (c : ClassId) : ∃ l, h.supertypes c = c :: l := by
  cases Walk.visits_depthFirst h.upward c with
  | skip hc => cases hc
  | expand _ hrest => exact hrest.grows

/-- A field of the class itself is what a reference means. -/
theorem resolveField_declared {h : Hierarchy} {ref : FieldRef} {name : String} {f : FieldId}
    (hc : h.className? ref.cls = some name) (hf : h.declaredField? ref.cls ref.name = some f) :
    h.resolveField ref = .ok f := by
  obtain ⟨l, hl⟩ := h.supertypes_eq_cons ref.cls
  unfold resolveField
  rw [hc, hl, List.findSome?_cons, hf]

theorem dispatch?_spec {c : ClassId} {sig : Subsignature} {m : MethodId}
    (h : (ofProgram p).dispatch? c sig = some m) :
    ∃ method, p.method? m = some method ∧ method.subsignature = sig := by
  unfold dispatch? at h
  obtain ⟨d, _, hd⟩ := List.exists_of_findSome?_eq_some h
  unfold concreteMethod? at hd
  rw [Option.filter_eq_some_iff] at hd
  obtain ⟨method, hm, _, hs⟩ := declaredMethod?_spec hd.1
  exact ⟨method, hm, hs⟩

/-- What a call resolves to is a method with the subsignature of the call. -/
theorem callee?_spec {type : Option ClassId} {call : Call} {m : MethodId}
    (h : (ofProgram p).callee? type call = .ok (some m)) :
    ∃ method, p.method? m = some method ∧ method.subsignature = call.target.subsignature := by
  have hdispatch : ∀ c, (ofProgram p).dispatch? c call.target.subsignature = some m →
      ∃ method, p.method? m = some method ∧ method.subsignature = call.target.subsignature :=
    fun _ => dispatch?_spec
  unfold callee? at h
  dsimp only at h
  split at h
  · obtain ⟨method, hm, _, hs⟩ := declaredMethod?_spec (Except.ok.inj h)
    exact ⟨method, hm, hs⟩
  · exact hdispatch _ (Except.ok.inj h)
  all_goals
    split at h
    · exact hdispatch _ (Except.ok.inj h)
    · cases h

/-- With a class at hand every call can be looked up. -/
theorem callee?_some (h : Hierarchy) (c : ClassId) (call : Call) : ∃ r, h.callee? (some c) call = .ok r := by
  unfold callee?
  dsimp only
  split <;> exact ⟨_, rfl⟩

theorem callee?_of_static (h : Hierarchy) {call : Call} (hk : call.isStatic = true)
    (type : Option ClassId) :
    h.callee? type call = .ok (h.declaredMethod? call.target.cls call.target.subsignature) := by
  have hk : call.kind = .static := by simpa [Call.isStatic] using hk
  unfold callee?
  simp only [hk]

theorem callee?_static (h : Hierarchy) {call : Call} (hk : call.isStatic = true) (type : Option ClassId) :
    ∃ r, h.callee? type call = .ok r := ⟨_, h.callee?_of_static hk type⟩

end Hierarchy

/-! ## Worlds -/

structure World.Valid (w : World) : Prop where
  hierarchy : w.hierarchy = .ofProgram w.program
  check : w.program.check = .ok w.entry

theorem World.withHeap_of_check {p : Program} {entry : MethodId} (h : p.check = .ok entry) (heap : Heap) :
    World.withHeap p heap = .ok ⟨.ofProgram p, heap, entry⟩ := by
  unfold withHeap
  rw [h]

theorem World.valid_of_withHeap {p : Program} {heap : Heap} {w : World}
    (h : World.withHeap p heap = .ok w) : w.Valid := by
  unfold withHeap at h
  split at h
  · rename_i entry he
    cases h
    exact ⟨rfl, he⟩
  · cases h

end PointsTo
