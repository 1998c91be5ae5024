import PointsTo.Proofs.Safety

/-!
# Calls and the methods they lead to

An edge of a call on a receiver leads to a method that takes one, and a run
that meets such a call with a static target fails. Static calls are not looked
at in this way: their edge leads to whatever the named class declares.
-/

namespace PointsTo

structure World.Misnames (w : World) (x : Link) : Prop where
  kind : x.kind = .static
  call : ∃ call, w.program.stmt? x.site.stmt = some (.invoke call) ∧ call.isStatic = true ∧
    w.hierarchy.declaredMethod? call.target.cls call.target.subsignature = some x.callee.method
  callee : ∃ method, w.program.method? x.callee.method = some method ∧ method.isStatic = false

def World.Agree (w : World) (x : Link) : Prop :=
  ∃ method, w.program.method? x.callee.method = some method ∧
    (method.isStatic = true ↔ method.thisVar = none) ∧ (x.kind = .static ↔ method.isStatic = true)

section
variable {w : World} {sel : Selector} (hw : w.Valid)
include hw

theorem Dispatches.not_static {X : Fact → Prop} {c : Context} {site : StmtId} {call : Call} {o : Instance}
    {obj : Obj} {m : MethodId} (d : Dispatches w X c site call o obj m) : call.kind ≠ .static := by
  obtain ⟨v, hv, _⟩ := d.receiver
  obtain ⟨_, hcheck⟩ := Program.check_target hw.check d.stmt
  intro hk
  unfold Program.checkTarget at hcheck
  obtain ⟨_, _, hfits⟩ := except_bind_ok.mp hcheck
  simp [Program.receiverFits, hk, hv] at hfits

theorem Derives.agree_or_misnames {x : Link} (hd : Derives w sel (.calls x)) : w.Agree x ∨ w.Misnames x := by
  cases hd.cases with
  | @staticCall c site call m hr hs hk hc =>
    obtain ⟨method, hm⟩ := callee_known hw hc
    have hiff := Program.isStatic_iff hw.check hm
    cases hstatic : method.isStatic with
    | true => exact Or.inl ⟨method, hm, hiff, by simp [hstatic]⟩
    | false =>
      have hkind : call.kind = .static := by simpa [Call.isStatic] using hk
      have hdeclared : w.hierarchy.declaredMethod? call.target.cls call.target.subsignature = some m := by
        simpa [Hierarchy.callee?, hkind] using hc
      exact Or.inr ⟨rfl, ⟨call, hs, hk, hdeclared⟩, method, hm, hstatic⟩
  | @instanceCall c site call o obj m method this d hm hthis =>
    have hiff := Program.isStatic_iff hw.check hm
    have hinstance : ¬ method.isStatic = true := fun hs => by simp [hiff.mp hs] at hthis
    have hkind := d.not_static hw
    refine Or.inl ⟨method, hm, hiff, ?_⟩
    cases hk : call.kind <;> simp_all [EdgeKind.ofCall]

end

def World.MeetsStatic (w : World) (sel : Selector) : Prop :=
  ∃ c site call o obj m method, Dispatches w (Derives w sel) c site call o obj m ∧
    w.program.method? m = some method ∧ method.isStatic = true

theorem World.MeetsStatic.fault {w : World} {sel : Selector} (hw : w.Valid) (h : w.MeetsStatic sel) :
    ∃ e, Fault w (Derives w sel) e := by
  obtain ⟨c, site, call, o, obj, m, method, d, hm, hstatic⟩ := h
  obtain ⟨text, htext⟩ := Program.signature?_of_method hw.check hm
  exact ⟨_, .staticTarget d hm ((Program.isStatic_iff hw.check hm).mp hstatic) htext⟩

theorem Task.malformed_of_meetsStatic {p : Program} {w : World} {sens : Sensitivity} {t : Task}
    (hw : World.ofProgram p = .ok w) (ht : Task.ofSensitivity w sens = .ok t)
    (h : w.MeetsStatic (.ofSensitivity sens)) (order : Order) :
    ∃ cause, t.solve order = .error (.malformed cause) := by
  have hvalid := World.valid_of_withHeap hw
  have hample := Task.ample_of_sensitivity hvalid ht
  obtain ⟨rfl, hsel, _⟩ := Task.new_eq ht
  rw [← hsel] at h
  obtain ⟨e, hfault⟩ := h.fault hvalid
  cases hs : t.solve order with
  | ok s => exact absurd hfault ((hample.solve_ok_iff order).mp ⟨s, hs⟩ e)
  | error e' =>
    cases (fault_iff_callFault hw).mp (hample.solve_error hs) with
    | arity | staticTarget => exact ⟨_, rfl⟩

structure Outcome.KindsFit (w : World) (sel : Selector) (r : Outcome) : Prop where
  edges : ∀ e ∈ r.calls.edges.toList, ∃ x, r.entities.linkOf? e = some x ∧ (w.Agree x ∨ w.Misnames x)
  /-- No call on a receiver has led to a static method. -/
  dispatches : ¬ w.MeetsStatic sel

theorem kindsFit_of_analyzeWith {w : World} {c : Config} {sel : Selector} {limit : Nat} {r : Outcome}
    (hw : w.Valid) (hr : analyzeWith w c sel limit = .ok r) : r.KindsFit w sel where
  edges := by
    intro e he
    obtain ⟨t, s, ht, hs, hstate⟩ := analyzeWith_ok hr
    have hfinal := Task.final_of_solve (Task.valid_of_new ht hw) hs
    have hcalls : r.calls = s.calls ∧ r.entities = s.entities := by
      obtain rfl | rfl := hstate <;> exact ⟨rfl, rfl⟩
    rw [hcalls.1] at he
    obtain ⟨x, hx, hd⟩ := hfinal.invariant.justified.calls e he
    obtain ⟨rfl, _⟩ := Task.new_eq ht
    exact ⟨x, hcalls.2 ▸ hx, hd.agree_or_misnames hw⟩
  dispatches := by
    intro hmeets
    obtain ⟨e, hfault⟩ := hmeets.fault hw
    exact no_fault_of_analyzeWith hw hr e hfault

namespace Mixed

/-- The main class is told to run itself, which takes an object of it, or an object of it is told to
make another one, which takes none. -/
def call : Bool → Call
  | true => ⟨.static, ⟨⟨0⟩, "run()"⟩, none, [], none⟩
  | false => ⟨.virtual, ⟨⟨0⟩, "make()"⟩, some ⟨0⟩, [], none⟩

def program (static : Bool) : Program where
  classes := #[⟨"Main", none, [], false, false, [⟨0⟩, ⟨1⟩, ⟨2⟩], []⟩]
  methods := #[
    ⟨"main", ⟨0⟩, "main()", true, false, none, [], #[.alloc ⟨0⟩ ⟨0⟩, .invoke (call static)]⟩,
    ⟨"run", ⟨0⟩, "run()", false, false, some ⟨1⟩, [], #[]⟩,
    ⟨"make", ⟨0⟩, "make()", true, false, none, [], #[]⟩]
  fields := #[]
  vars := #[⟨"x", ⟨0⟩⟩, ⟨"this", ⟨1⟩⟩]
  entry := some ⟨0⟩

def world (static : Bool) : World := ⟨.ofProgram (program static), .perSite (program static), ⟨0⟩⟩

theorem world_eq (static : Bool) : World.ofProgram (program static) = .ok (world static) := by
  have hcheck : (program static).check = .ok ⟨0⟩ := by cases static <;> rfl
  exact World.withHeap_of_check hcheck _

theorem no_access (static : Bool) : ∀ x ∈ (program static).stmts, AccessIndex.access? x.2 = none := by
  revert static
  decide

theorem exists_outcome (c : Config) (sens : Sensitivity) : ∃ r, analyzeAt (world true) c sens = .ok r := by
  have hfit : (program true).CallsFit := by decide
  exact exists_outcome_of_callsFit (world_eq true) (no_access true) hfit c sens

def runEdge : Edge StmtId MethodId := ⟨.static, ⟨0⟩, ⟨⟨0⟩, 1⟩, ⟨1⟩⟩

theorem hasEdge_run {c : Config} {sel : Selector} {limit : Nat} {r : Outcome}
    (hr : analyzeWith (world true) c sel limit = .ok r) : r.callGraph.hasEdge runEdge = true := by
  have hdeclared : (world true).hierarchy.declaredMethod? ⟨0⟩ "run()" = some ⟨1⟩ := by cbv
  have hcallee : (world true).hierarchy.callee? none (call true) = .ok (some ⟨1⟩) :=
    congrArg Except.ok hdeclared
  have hreach : Derives (world true) sel (.reaches ⟨sel.entry, ⟨0⟩⟩) := .rule .entry
  have hstmt : (world true).program.stmt? ⟨⟨0⟩, 1⟩ = some (.invoke (call true)) := rfl
  have hd := Derives.rule (.staticCall hreach hstmt rfl hcallee)
  exact ((projects_of_analyzeWith (World.valid_of_withHeap (world_eq true)) hr).edges _).mpr ⟨_, hd, rfl⟩

theorem meetsStatic (sel : Selector) : (world false).MeetsStatic sel := by
  have hreach : Derives (world false) sel (.reaches ⟨sel.entry, ⟨0⟩⟩) := .rule .entry
  have hs : (world false).program.stmt? ⟨⟨0⟩, 0⟩ = some (.alloc ⟨0⟩ ⟨0⟩) := rfl
  obtain ⟨o, obj, ho, hobj, _⟩ := Heap.perSite_object hs
  have hcls : obj.cls = ⟨0⟩ := by
    have hall : ∀ obj ∈ Heap.allocations (program false), obj.cls = ⟨0⟩ := by decide
    exact hall obj (Heap.mem_allocations_of_obj? hobj)
  have hdispatch : (world false).hierarchy.dispatch? ⟨0⟩ "make()" = some ⟨2⟩ := by cbv
  have hcallee : (world false).hierarchy.callee? (some obj.cls) (call false) = .ok (some ⟨2⟩) := by
    rw [hcls, Hierarchy.callee?_of_dispatches rfl]
    exact congrArg Except.ok hdispatch
  exact ⟨_, ⟨⟨0⟩, 1⟩, call false, _, obj, ⟨2⟩, _,
    ⟨hreach, rfl, ⟨⟨0⟩, rfl, .rule (.alloc hreach hs ho hobj)⟩, hobj, hcallee⟩, rfl, rfl⟩

end Mixed

/-- **Calls fit their targets, but for static calls of instance methods.** After a successful run, with
any heap, selector and order, an edge is that of a static call exactly if its callee is static, unless it
is that of a static call which names an instance method, and no call on a receiver has led to a static
method. With an object for each allocation and any sensitivity, a run that meets such a call fails as
malformed. -/
theorem calls_fit_or_misname {p : Program} {heap : Heap} {w : World} (hw : World.withHeap p heap = .ok w) :
    (∀ c sel limit r, analyzeWith w c sel limit = .ok r → r.KindsFit w sel) ∧
    (heap = .perSite p → ∀ sens t order, Task.ofSensitivity w sens = .ok t →
      w.MeetsStatic (.ofSensitivity sens) → ∃ cause, t.solve order = .error (.malformed cause)) := by
  refine ⟨fun c sel limit r hr => kindsFit_of_analyzeWith (World.valid_of_withHeap hw) hr, ?_⟩
  rintro rfl sens t order ht hmeets
  exact Task.malformed_of_meetsStatic hw ht hmeets order

/-- Both mismatches: the static call is let through, the call on a receiver is not. -/
theorem calls_fit_or_misname_mixed : (∃ r, analyze (Mixed.world true) .standard = .ok r ∧
      r.KindsFit (Mixed.world true) .insensitive) ∧
    ∃ t cause, Task.ofSensitivity (Mixed.world false) ⟨.object, 2⟩ = .ok t ∧
      t.solve .fifo = .error (.malformed cause) := by
  obtain ⟨r, hr⟩ := Mixed.exists_outcome .standard .insensitive
  obtain ⟨t, ht⟩ := Task.exists_of_no_access (w := Mixed.world false) (Mixed.no_access false)
    (.ofSensitivity ⟨.object, 2⟩) (Task.limitFor (Mixed.world false) 2)
  obtain ⟨cause, hcause⟩ :=
    (calls_fit_or_misname (Mixed.world_eq false)).2 rfl _ t .fifo ht (Mixed.meetsStatic _)
  exact ⟨⟨r, hr, (calls_fit_or_misname (Mixed.world_eq true)).1 _ _ _ r hr⟩, t, cause, ht, hcause⟩

/-- A static call has an edge to a method that takes a receiver. -/
theorem static_edge_to_instance : ∃ r method, analyze (Mixed.world true) .standard = .ok r ∧
    r.callGraph.hasEdge Mixed.runEdge = true ∧ Mixed.runEdge.kind = .static ∧
    (Mixed.program true).method? Mixed.runEdge.callee = some method ∧
    method.isStatic = false ∧ method.thisVar = some ⟨1⟩ := by
  obtain ⟨r, hr⟩ := Mixed.exists_outcome .standard .insensitive
  exact ⟨r, _, hr, Mixed.hasEdge_run hr, rfl, rfl, rfl, rfl⟩

end PointsTo
