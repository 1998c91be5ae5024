import PointsTo.Proofs.Unreached

/-!
# Programs with calls blanked out

A valid program stays valid when calls give way to `nop`. Methods, fields and
objects keep their numbers, and calls that are left resolve as before.
-/

namespace PointsTo

def Stmt.blank (dead : StmtId → Bool) (site : StmtId) : Stmt → Stmt
  | .invoke call => if dead site then .nop else .invoke call
  | st => st

def Method.blank (dead : StmtId → Bool) (m : MethodId) (method : Method) : Method :=
  { method with body := method.body.mapIdx fun i st => st.blank dead ⟨m, i⟩ }

def Program.blank (dead : StmtId → Bool) (p : Program) : Program :=
  { p with methods := p.methods.mapIdx fun i method => method.blank dead ⟨i⟩ }

section
variable (dead : StmtId → Bool)

theorem Stmt.blank_cases (site : StmtId) (st : Stmt) :
    st.blank dead site = st ∨ ∃ call, st = .invoke call ∧ dead site = true ∧ st.blank dead site = .nop := by
  cases st with
  | invoke call =>
    cases hd : dead site with
    | false => exact Or.inl (by simp [blank, hd])
    | true => exact Or.inr ⟨call, rfl, rfl, by simp [blank, hd]⟩
  | _ => exact Or.inl rfl

theorem Method.returnVars_blank (m : MethodId) (method : Method) :
    (method.blank dead m).returnVars = method.returnVars := by
  unfold returnVars blank
  rw [Array.toList_mapIdx, List.mapIdx_eq_zipIdx_map, List.filterMap_map]
  conv_rhs => rw [← List.zipIdx_map_fst 0 method.body.toList, List.filterMap_map]
  congr 1
  funext x
  rcases x.1.blank_cases dead ⟨m, x.2⟩ with h | ⟨call, hst, _, h⟩
  · simp [h]
  · simp only [Function.comp_apply, h]
    rw [hst]

namespace Program
variable (p : Program)

theorem method?_blank (m : MethodId) : (p.blank dead).method? m = (p.method? m).map (.blank dead m) := by
  simp [method?, blank]

theorem stmt?_blank (site : StmtId) : (p.blank dead).stmt? site = (p.stmt? site).map (.blank dead site) := by
  unfold stmt?
  rw [method?_blank]
  cases p.method? site.method with
  | none => rfl
  | some method => simp [Method.blank]

theorem body_blank (m : MethodId) :
    (p.blank dead).body m = (p.body m).map fun x => (x.1, x.2.blank dead x.1) := by
  unfold body
  rw [method?_blank]
  cases p.method? m with
  | none => rfl
  | some method =>
    refine List.ext_getElem? fun i => ?_
    cases h : method.body[i]? <;> simp [Method.blank, h]

theorem stmts_blank : (p.blank dead).stmts = p.stmts.map fun x => (x.1, x.2.blank dead x.1) := by
  unfold stmts
  rw [List.map_flatMap, ← funext (p.body_blank dead)]
  simp [methodIds, blank]

theorem agrees_blank : p.Agrees (fun _ => False) (p.blank dead) where
  headers := by
    have hmethods : (p.blank dead).methods.map Method.header = p.methods.map Method.header := by
      refine Array.ext_getElem? fun i => ?_
      cases h : p.methods[i]? <;> simp [blank, h, Method.blank, Method.header]
    unfold headers
    rw [hmethods]
    rfl
  method _ := False.elim

/-! ## Validity -/

section
variable {p}

theorem checkListedMethod_blank (c : ClassId) (cls : Class) (m : MethodId) :
    (p.blank dead).checkListedMethod c cls m = p.checkListedMethod c cls m := by
  unfold checkListedMethod
  rw [method?_blank]
  cases p.method? m <;> rfl

theorem checkClass_blank (c : ClassId) (cls : Class) :
    (p.blank dead).checkClass c cls = p.checkClass c cls := by
  unfold checkClass
  rw [funext (checkListedMethod_blank dead c cls)]
  rfl

theorem visit_blank : ∀ (depth : Nat) (c : ClassId) (marks : Marks),
    (p.blank dead).visit depth c marks = p.visit depth c marks
  | 0, _, _ => rfl
  | depth + 1, c, marks => by
    unfold visit
    simp only [visit_blank depth]
    rfl

theorem checkAcyclic_blank : (p.blank dead).checkAcyclic = p.checkAcyclic := by
  have hcycle : (p.blank dead).findCycle = p.findCycle := by
    unfold findCycle findCycleWithin
    simp only [visit_blank dead]
    rfl
  unfold checkAcyclic
  rw [hcycle]
  rfl

theorem checkMethod_blank {m : MethodId} {method : Method} (h : p.checkMethod m method = .ok ()) :
    (p.blank dead).checkMethod m (method.blank dead m) = .ok () := by
  unfold checkMethod at h ⊢
  obtain ⟨_, hcls, h⟩ := except_bind_ok.mp h
  obtain ⟨_, hthis, h⟩ := except_bind_ok.mp h
  obtain ⟨_, hvar, h⟩ := except_bind_ok.mp h
  obtain ⟨_, hparams, hbody⟩ := except_bind_ok.mp h
  refine except_bind_ok.mpr ⟨(), hcls, except_bind_ok.mpr ⟨(), hthis, except_bind_ok.mpr ⟨(), hvar,
    except_bind_ok.mpr ⟨(), hparams, forM_ok.mpr fun st' hst' => ?_⟩⟩⟩⟩
  obtain ⟨i, hi, rfl⟩ := Array.mem_mapIdx.mp (Array.mem_toList_iff.mp hst')
  have hst := forM_ok.mp hbody _ (Array.getElem_mem_toList hi)
  rcases (method.body[i]).blank_cases dead ⟨m, i⟩ with h | ⟨_, _, _, h⟩
  · rw [h]
    exact hst
  · rw [h]
    rfl

theorem checkEntry_blank : (p.blank dead).checkEntry = p.checkEntry := by
  unfold checkEntry
  rw [show (p.blank dead).entry = p.entry from rfl]
  cases p.entry with
  | none => rfl
  | some m =>
    simp only [method?_blank]
    cases p.method? m <;> rfl

theorem check_blank {entry : MethodId} (h : p.check = .ok entry) : (p.blank dead).check = .ok entry := by
  unfold check at h ⊢
  obtain ⟨_, hclasses, h⟩ := except_bind_ok.mp h
  obtain ⟨_, hacyclic, h⟩ := except_bind_ok.mp h
  obtain ⟨_, hfields, h⟩ := except_bind_ok.mp h
  obtain ⟨_, hmethods, hentry⟩ := except_bind_ok.mp h
  refine except_bind_ok.mpr ⟨(), ?_, except_bind_ok.mpr ⟨(), ?_, except_bind_ok.mpr ⟨(), hfields,
    except_bind_ok.mpr ⟨(), forM_ok.mpr fun x hx => ?_, ?_⟩⟩⟩⟩
  · simp only [checkClass_blank]
    exact hclasses
  · rw [checkAcyclic_blank]
    exact hacyclic
  · obtain ⟨method', i⟩ := x
    rw [List.mem_zipIdx_iff_getElem?, Array.getElem?_toList] at hx
    obtain ⟨method, hm, rfl⟩ : ∃ method, p.method? ⟨i⟩ = some method ∧ method.blank dead ⟨i⟩ = method' := by
      exact Option.map_eq_some_iff.mp ((p.method?_blank dead ⟨i⟩).symm.trans hx)
    refine checkMethod_blank dead (forM_ok.mp hmethods (method, i) ?_)
    rw [List.mem_zipIdx_iff_getElem?, Array.getElem?_toList]
    exact hm
  · rw [checkEntry_blank]
    exact hentry

end

end Program

/-! ## Objects and accesses -/

theorem Heap.allocations_blank (p : Program) : allocations (p.blank dead) = allocations p := by
  unfold allocations
  rw [p.stmts_blank, List.filterMap_map]
  congr 1
  funext ⟨site, st⟩
  rcases st.blank_cases dead site with h | ⟨call, hst, _, h⟩
  · simp only [Function.comp_apply, h, p.method?_blank, Option.map_map]
    rfl
  · simp only [Function.comp_apply, h]
    rw [hst]

theorem Heap.perSite_blank (p : Program) : perSite (p.blank dead) = perSite p := by
  unfold perSite
  rw [allocations_blank]

theorem World.ofProgram_blank {p : Program} {w : World} (h : ofProgram p = .ok w) :
    ofProgram (p.blank dead) = .ok ⟨.ofProgram (p.blank dead), w.heap, w.entry⟩ := by
  have hcheck : p.check = .ok w.entry := by
    rw [← program_of_ofProgram h]
    exact (valid_of_withHeap h).check
  rw [heap_of_ofProgram h, program_of_ofProgram h, ← Heap.perSite_blank dead p]
  exact withHeap_of_check (Program.check_blank dead hcheck) _

theorem World.size_blank {p : Program} {w w' : World} (hw : ofProgram p = .ok w)
    (hw' : ofProgram (p.blank dead) = .ok w') : w'.size = w.size := by
  have hprogram := program_of_ofProgram hw
  rw [ofProgram_blank dead hw] at hw'
  cases Except.ok.inj hw'
  unfold size
  rw [hprogram, show World.program ⟨.ofProgram (p.blank dead), w.heap, w.entry⟩ = p.blank dead from rfl,
    p.stmts_blank, List.length_map]
  simp [Program.blank]

def Accesses.blank (a : Accesses) : Accesses := { a with calls := a.calls.filter fun site => !dead site }

theorem Accesses.append_blank (a b : Accesses) :
    (a.append b).blank dead = (a.blank dead).append (b.blank dead) := by
  unfold blank Accesses.append
  rw [List.filter_append]

namespace AccessIndex

theorem share_blank (h : Hierarchy) (v : VarId) (site : StmtId) (st : Stmt) :
    share h v (site, st.blank dead site) = (share h v (site, st)).blank dead := by
  cases st with
  | invoke call =>
    cases hd : dead site <;> by_cases hr : call.receiver = some v <;>
      simp [share, Accesses.blank, Stmt.blank, fieldStore?, fieldLoad?, arrayStore?, arrayLoad?, callOn?, hd, hr]
  | _ => rfl

theorem resolve_headers (h : Hierarchy) : resolve h.headers = resolve h := rfl

theorem resolve_blank (p : Program) : resolve (.ofProgram (p.blank dead)) = resolve (.ofProgram p) := by
  rw [← resolve_headers, (p.agrees_blank dead).hierarchy_headers, resolve_headers]

section
variable {p : Program} {index index' : AccessIndex} (hi : ofHierarchy (.ofProgram p) = .ok index)
include hi

/-- The accesses that are left resolve as before. -/
theorem ofHierarchy_blank : ∃ index', ofHierarchy (.ofProgram (p.blank dead)) = .ok index' := by
  refine foldlM_add_ok _ _ fun x hx base ref haccess => ?_
  have hx : x ∈ (p.blank dead).stmts := hx
  rw [p.stmts_blank] at hx
  obtain ⟨⟨site, st⟩, hst, rfl⟩ := List.mem_map.mp hx
  have hst := Program.mem_stmts.mp hst
  rw [resolve_blank]
  cases st with
  | loadField lhs b r =>
    cases haccess
    exact resolve_of_load hi hst
  | storeField b r rhs =>
    cases haccess
    exact resolve_of_store hi hst
  | invoke call =>
    dsimp only [Stmt.blank] at haccess
    split at haccess <;> cases haccess
  | _ => cases haccess

variable (hi' : ofHierarchy (.ofProgram (p.blank dead)) = .ok index')
include hi'

theorem accessesOf_blank (v : VarId) : index'.accessesOf v = (index.accessesOf v).blank dead := by
  have hempty : empty.accessesOf v = .empty := by simp [accessesOf, accesses?, empty]
  unfold ofHierarchy at hi hi'
  rw [accessesOf_foldlM v hi', accessesOf_foldlM v hi, hempty]
  show (p.blank dead).stmts.foldl _ _ = _
  rw [p.stmts_blank, (p.agrees_blank dead).share, List.foldl_map]
  simp only [share_blank]
  show p.stmts.foldl _ (Accesses.empty.blank dead) = _
  exact List.foldl_hom (Accesses.blank dead) (by intro a x; exact (a.append_blank dead _).symm)

theorem staticField?_blank {site : StmtId} {st : Stmt} {ref : FieldRef} (hs : p.stmt? site = some st)
    (href : staticRef? st = some ref) : index'.staticField? site = index.staticField? site := by
  have hs' : (p.blank dead).stmt? site = some st := by
    rw [p.stmt?_blank, hs, Option.map_some]
    cases st with
    | invoke call => cases href
    | _ => rfl
  obtain ⟨f, hf, hresolve⟩ := staticField?_of_stmt hi hs href
  obtain ⟨f', hf', hresolve'⟩ := staticField?_of_stmt hi' hs' href
  rw [(p.agrees_blank dead).resolveField, hresolve] at hresolve'
  rw [hf, hf', Except.ok.inj hresolve']

end

end AccessIndex

end

end PointsTo
