import PointsTo.Proofs.Derivation
import PointsTo.Proofs.Validity

/-!
# Derivable facts are about the program

In the world of a valid program, whatever a derivable fact mentions is there:
the methods and objects are known, a variable belongs to a method that is
reached under the same context, and a call edge starts at a call of its caller.
-/

namespace PointsTo

section
variable (w : World) (sel : Selector)

def Cell.Grounded : Cell → Prop
  | .var c v => ∃ m, w.program.owner? v = some m ∧ Derives w sel (.reaches ⟨c, m⟩)
  | .staticField f => ∃ field, w.program.field? f = some field
  | .instanceField o f =>
    (∃ p, Derives w sel (.points p o)) ∧ ∃ field, w.program.field? f = some field
  | .arrayIndex o => ∃ p, Derives w sel (.points p o)

structure Link.Grounded (e : Link) : Prop where
  caller : Derives w sel (.reaches e.caller)
  site : e.site = ⟨e.caller.context, e.site.stmt⟩
  method : e.site.stmt.method = e.caller.method
  joins : ∃ call method, Joins w e call method

def Fact.Grounded : Fact → Prop
  | .reaches m => ∃ method, w.program.method? m.method = some method
  | .points p o => p.Grounded w sel ∧ ∃ obj, w.heap.obj? o.obj = some obj
  | .flows p q => p.Grounded w sel ∧ q.Grounded w sel
  | .calls e => e.Grounded w sel

end

section
variable {w : World} {sel : Selector} (hw : w.Valid)
include hw

theorem callee_known {type : Option ClassId} {call : Call} {m : MethodId}
    (h : w.hierarchy.callee? type call = .ok (some m)) :
    ∃ method, w.program.method? m = some method := by
  rw [hw.hierarchy] at h
  obtain ⟨method, hm, _⟩ := Hierarchy.callee?_spec h
  exact ⟨method, hm⟩

theorem field_known {ref : FieldRef} {f : FieldId} (h : w.hierarchy.resolveField ref = .ok f) :
    ∃ field, w.program.field? f = some field := by
  rw [hw.hierarchy] at h
  exact Hierarchy.resolveField_known h

theorem Cell.grounded_of_used {c : Context} {site : StmtId} {s : Stmt} {v : VarId}
    (hr : Derives w sel (.reaches ⟨c, site.method⟩)) (hs : w.program.stmt? site = some s)
    (hv : v ∈ s.used) : (Cell.var c v).Grounded w sel :=
  ⟨site.method, Program.owner_of_used hw.check hs hv, hr⟩

theorem Cell.grounded_of_defined {c : Context} {site : StmtId} {s : Stmt} {v : VarId}
    (hr : Derives w sel (.reaches ⟨c, site.method⟩)) (hs : w.program.stmt? site = some s)
    (hv : s.defined = some v) : (Cell.var c v).Grounded w sel :=
  ⟨site.method, Program.owner_of_defined hw.check hs hv, hr⟩

theorem Link.Grounded.used {e : Link} {call : Call} (he : e.Grounded w sel)
    (hs : w.program.stmt? e.site.stmt = some (.invoke call)) {v : VarId} (hv : v ∈ call.args) :
    (Cell.var e.caller.context v).Grounded w sel := by
  refine Cell.grounded_of_used hw ?_ hs (by simp [Stmt.used, hv])
  rw [he.method]; exact he.caller

theorem Link.Grounded.defined {e : Link} {call : Call} (he : e.Grounded w sel)
    (hs : w.program.stmt? e.site.stmt = some (.invoke call)) {v : VarId} (hv : call.result = some v) :
    (Cell.var e.caller.context v).Grounded w sel := by
  refine Cell.grounded_of_defined hw ?_ hs hv
  rw [he.method]; exact he.caller

theorem Derives.grounded {f : Fact} (d : Derives w sel f) : f.Grounded w sel := by
  refine Derives.induct (P := Fact.Grounded w sel) (fun f r => ?_) d
  cases r with
  | entry => exact Program.entry_known hw.check
  | alloc hr hs ho hb => exact ⟨Cell.grounded_of_defined hw hr.1 hs rfl, _, hb⟩
  | copy hr hs =>
    exact ⟨Cell.grounded_of_used hw hr.1 hs (by simp [Stmt.used]),
      Cell.grounded_of_defined hw hr.1 hs rfl⟩
  | loadStatic hr hs hf => exact ⟨field_known hw hf, Cell.grounded_of_defined hw hr.1 hs rfl⟩
  | storeStatic hr hs hf =>
    exact ⟨Cell.grounded_of_used hw hr.1 hs (by simp [Stmt.used]), field_known hw hf⟩
  | loadField hr hs hf ho =>
    exact ⟨⟨⟨_, ho.1⟩, field_known hw hf⟩, Cell.grounded_of_defined hw hr.1 hs rfl⟩
  | storeField hr hs hf ho =>
    exact ⟨Cell.grounded_of_used hw hr.1 hs (by simp [Stmt.used]), ⟨_, ho.1⟩, field_known hw hf⟩
  | loadArray hr hs ho => exact ⟨⟨_, ho.1⟩, Cell.grounded_of_defined hw hr.1 hs rfl⟩
  | storeArray hr hs ho =>
    exact ⟨Cell.grounded_of_used hw hr.1 hs (by simp [Stmt.used]), ⟨_, ho.1⟩⟩
  | staticCall hr hs hk hc =>
    obtain ⟨method, hm⟩ := callee_known hw hc
    exact ⟨hr.1, rfl, rfl, _, method, hs, hm⟩
  | instanceCall dp hm ht => exact ⟨dp.reached.1, rfl, rfl, _, _, dp.stmt, hm⟩
  | this dp hm ht =>
    refine ⟨⟨_, Program.owner_of_this hw.check hm ht, ?_⟩, _, dp.object⟩
    have hc : Derives w sel (.calls _) := .rule (.instanceCall (dp.mono fun _ hf => hf.1) hm ht)
    exact hc.callee
  | callee he =>
    obtain ⟨call, method, hj⟩ := he.2.joins
    exact ⟨method, hj.callee⟩
  | arg he hj hn ha =>
    refine ⟨he.2.used hw hj.stmt (List.of_mem_zip ha).1, _,
      Program.owner_of_param hw.check hj.callee (List.of_mem_zip ha).2, ?_⟩
    exact he.1.callee
  | result he hj hn hr hv =>
    refine ⟨⟨_, Program.owner_of_returnVar hw.check hj.callee hv, ?_⟩, he.2.defined hw hj.stmt hr⟩
    exact he.1.callee
  | flow hf ho => exact ⟨hf.2.2, ho.2.2⟩

/-- The call that an edge starts at, under the context of the caller. -/
theorem Derives.call {e : Link} (d : Derives w sel (.calls e)) : ∃ call,
    e.site = ⟨e.caller.context, e.site.stmt⟩ ∧ e.site.stmt.method = e.caller.method ∧
    w.program.stmt? e.site.stmt = some (.invoke call) ∧ e.kind = .ofCall call.kind := by
  have hg := d.grounded hw
  cases d.cases with
  | @staticCall c site call m hr hs hk hc =>
    refine ⟨call, hg.site, hg.method, hs, ?_⟩
    rw [of_decide_eq_true hk]; rfl
  | instanceCall dp hm ht => exact ⟨_, hg.site, hg.method, dp.stmt, rfl⟩

/-- A variable that points to something belongs to a method reached under its context. -/
theorem Derives.owner {c : Context} {v : VarId} {o : Instance}
    (d : Derives w sel (.points (.var c v) o)) :
    ∃ m, w.program.owner? v = some m ∧ Derives w sel (.reaches ⟨c, m⟩) := (d.grounded hw).1

/-- The statement of a reached method that uses a variable which points to something. -/
theorem Derives.reaches_of_used {c : Context} {v : VarId} {o : Instance}
    (d : Derives w sel (.points (.var c v) o)) {site : StmtId} {s : Stmt}
    (hs : w.program.stmt? site = some s) (hv : v ∈ s.used) :
    Derives w sel (.reaches ⟨c, site.method⟩) := by
  obtain ⟨m, hm, hr⟩ := d.owner hw
  rw [Program.owner_of_used hw.check hs hv] at hm
  cases hm
  exact hr

end

end PointsTo
