import PointsTo.Analysis
import PointsTo.Proofs.CallGraphs
import PointsTo.Proofs.Success

/-!
# Outcomes without contexts

An outcome whose contexts are forgotten has exactly the facts that can be
derived under some context. With a sensitivity an analysis has an outcome
exactly if no fault can be derived.
-/

namespace PointsTo

def Edge.project (e : Link) : Edge StmtId MethodId := ⟨e.kind, e.caller.method, e.site.stmt, e.callee.method⟩

namespace Outcome

/-- `r` has the facts of the rules, with contexts forgotten. -/
structure Projects (w : World) (sel : Selector) (r : Outcome) : Prop where
  pointsTo : ∀ v o, o ∈ r.pointsTo v ↔ ∃ c h, Derives w sel (.points (.var c v) ⟨h, o⟩)
  edges : ∀ x, r.callGraph.hasEdge x = true ↔ ∃ e, Derives w sel (.calls e) ∧ e.project = x
  reachable : ∀ m, r.callGraph.isReachable m = true ↔ ∃ c, Derives w sel (.reaches ⟨c, m⟩)

structure Refines (r r' : Outcome) : Prop where
  pointsTo : ∀ v, r.pointsTo v ⊆ r'.pointsTo v
  calls : r.callGraph.Within r'.callGraph

theorem mem_csPointsTo {r : Outcome} {v : VarId} {j : CSObjId} : j ∈ r.csPointsTo v ↔
    ∃ p ∈ r.entities.pointersOf v, j ∈ r.entities.pointsTo p := by
  have hempty : j ∉ ObjSet.empty := List.not_mem_nil
  unfold csPointsTo
  rw [foldl_gather (P := fun (set : ObjSet) j => j ∈ set) (R := fun p j => j ∈ r.entities.pointsTo p)
    fun _ _ _ => ObjSet.mem_union]
  simp [hempty]

end Outcome

namespace Entities
variable {e : Entities}

theorem obj_of_objectOf? {j : CSObjId} {x : Instance} (h : e.objectOf? j = some x) :
    (e.obj? j).map CSObj.obj = some x.obj := by
  obtain ⟨_, hj, _⟩ := objectOf?_eq_some.mp h
  simp [hj]

theorem method_of_frameOf? {i : CSMethodId} {x : Frame} (h : e.frameOf? i = some x) :
    (e.method? i).map CSMethod.method = some x.method := by
  obtain ⟨_, hi, _⟩ := frameOf?_eq_some.mp h
  simp [hi]

theorem stmt_of_siteOf? {i : CSCallSiteId} {x : Site} (h : e.siteOf? i = some x) :
    (e.site? i).map CSCallSite.site = some x.stmt := by
  obtain ⟨_, hi, _⟩ := siteOf?_eq_some.mp h
  simp [hi]

theorem edge_of_linkOf? {i : Edge CSCallSiteId CSMethodId} {x : Link} (h : e.linkOf? i = some x) :
    (⟨i.kind, ((e.method? i.caller).map CSMethod.method).getD default,
      ((e.site? i.site).map CSCallSite.site).getD default,
      ((e.method? i.callee).map CSMethod.method).getD default⟩ : Edge _ _) = x.project := by
  obtain ⟨hk, hcaller, hsite, hcallee⟩ := linkOf?_eq_some.mp h
  rw [method_of_frameOf? hcaller, stmt_of_siteOf? hsite, method_of_frameOf? hcallee, hk]
  rfl

end Entities

namespace State.Final
variable {t : Task} {s : State} (h : s.Final t) (ht : t.Valid) (name : String)
include h ht

theorem mem_pointsTo (v : VarId) (o : ObjId) : o ∈ (Outcome.ofState name s).pointsTo v ↔
    ∃ c k, t.Derives (.points (.var c v) ⟨k, o⟩) := by
  unfold Outcome.pointsTo
  rw [Ascending.mem_ofList, List.mem_filterMap]
  constructor
  · intro hj
    obtain ⟨j, hj, ho⟩ := hj
    obtain ⟨p, hp, hj⟩ := Outcome.mem_csPointsTo.mp hj
    obtain ⟨i, hp⟩ := h.invariant.indexed.mem_pointersOf.mp hp
    obtain ⟨cell, x, hcell, hx, hd⟩ := h.invariant.justified.points p j hj
    obtain ⟨a, ha, hac⟩ := Entities.cellOf?_eq_some.mp hcell
    cases Option.some.inj (hp.symm.trans ha)
    obtain ⟨c, _, rfl⟩ := Option.map_eq_some_iff.mp hac
    cases Option.some.inj (ho.symm.trans (Entities.obj_of_objectOf? hx))
    exact ⟨c, x.heap, hd⟩
  · intro hd
    obtain ⟨c, k, hd⟩ := hd
    obtain ⟨p, j, hp, hj, hmem⟩ : s.Points (.var c v) ⟨k, o⟩ := (h.has_iff ht _).mpr hd
    obtain ⟨a, ha, hac⟩ := Entities.cellOf?_eq_some.mp hp
    obtain ⟨i, rfl, _⟩ := Entities.cell?_eq_var.mp hac
    have hp := h.invariant.indexed.mem_pointersOf.mpr ⟨i, ha⟩
    exact ⟨j, Outcome.mem_csPointsTo.mpr ⟨p, hp, hmem⟩, Entities.obj_of_objectOf? hj⟩

theorem hasEdge_callGraph (x : Edge StmtId MethodId) :
    (Outcome.ofState name s).callGraph.hasEdge x = true ↔ ∃ e, t.Derives (.calls e) ∧ e.project = x := by
  unfold Outcome.callGraph
  rw [CallGraph.hasEdge_map]
  constructor
  · intro hi
    obtain ⟨i, hi, rfl⟩ := hi
    obtain ⟨e, he, hd⟩ := h.invariant.justified.calls i hi
    exact ⟨e, hd, (Entities.edge_of_linkOf? he).symm⟩
  · intro hd
    obtain ⟨e, hd, rfl⟩ := hd
    obtain ⟨i, hi, he⟩ : s.Calls e := (h.has_iff ht _).mpr hd
    exact ⟨i, hi, Entities.edge_of_linkOf? he⟩

theorem isReachable_callGraph (m : MethodId) :
    (Outcome.ofState name s).callGraph.isReachable m = true ↔ ∃ c, t.Derives (.reaches ⟨c, m⟩) := by
  unfold Outcome.callGraph
  rw [CallGraph.isReachable_map]
  constructor
  · intro hi
    obtain ⟨i, hi, rfl⟩ := hi
    obtain ⟨f, hf, hd⟩ := h.invariant.justified.reachable i hi
    refine ⟨f.context, ?_⟩
    rw [show (Outcome.ofState name s).entities = s.entities from rfl, Entities.method_of_frameOf? hf]
    exact hd
  · intro hd
    obtain ⟨c, hd⟩ := hd
    obtain ⟨i, hi, hf⟩ : s.Reaches ⟨c, m⟩ := (h.has_iff ht _).mpr hd
    refine ⟨i, hi, ?_⟩
    rw [show (Outcome.ofState name s).entities = s.entities from rfl, Entities.method_of_frameOf? hf]
    rfl

theorem projects : (Outcome.ofState name s).Projects t.world t.selector :=
  ⟨h.mem_pointsTo ht name, h.hasEdge_callGraph ht name, h.isReachable_callGraph ht name⟩

end State.Final

section
variable {w : World} {c : Config} {sel : Selector} {limit : Nat} {r : Outcome}

theorem analyzeWith_ok (h : analyzeWith w c sel limit = .ok r) : ∃ t s, Task.new w sel limit = .ok t ∧
    t.solve c.order = .ok s ∧
    (r = .ofState sel.name s ∨ r = (Outcome.ofState sel.name s).withAliasIndex) := by
  obtain ⟨t, ht, h⟩ := except_bind_ok.mp h
  obtain ⟨s, hs, h⟩ := except_bind_ok.mp h
  refine ⟨t, s, ht, hs, ?_⟩
  cases Except.ok.inj h
  cases c.aliasIndex with
  | false => exact Or.inl rfl
  | true => exact Or.inr rfl

theorem projects_of_analyzeWith (hw : w.Valid) (h : analyzeWith w c sel limit = .ok r) :
    r.Projects w sel := by
  obtain ⟨t, s, ht, hs, hr⟩ := analyzeWith_ok h
  have hvalid := Task.valid_of_new ht hw
  obtain ⟨rfl, rfl, _, _⟩ := Task.new_eq ht
  have hproj := (Task.final_of_solve hvalid hs).projects hvalid t.selector.name
  obtain rfl | rfl := hr
  · exact hproj
  · exact ⟨hproj.pointsTo, hproj.edges, hproj.reachable⟩

theorem no_fault_of_analyzeWith (hw : w.Valid) (h : analyzeWith w c sel limit = .ok r) (e : Error) :
    ¬ Fault w (Derives w sel) e := by
  obtain ⟨t, s, ht, hs, _⟩ := analyzeWith_ok h
  have hvalid := Task.valid_of_new ht hw
  obtain ⟨rfl, rfl, _, _⟩ := Task.new_eq ht
  exact (Task.final_of_solve hvalid hs).no_fault hvalid e

/-- Whether there is a task depends on the program only. -/
theorem Task.exists_new {t : Task} (h : Task.new w sel limit = .ok t) (sel' : Selector) (limit' : Nat) :
    ∃ t', Task.new w sel' limit' = .ok t' :=
  ⟨_, except_bind_ok.mpr ⟨t.index, (Task.new_eq h).2.2.2, rfl⟩⟩

end

/-- A run with a sensitivity, with the limit that it needs. -/
abbrev analyzeAt (w : World) (c : Config) (sens : Sensitivity) : Except Error Outcome :=
  analyzeWith w c (.ofSensitivity sens) (Task.limitFor w sens.depth)

section
variable {w : World} {t : Task} {sel : Selector} {limit : Nat} (ht : Task.new w sel limit = .ok t)
include ht

theorem analyzeWith_of_solve {c : Config} {s : State} (hs : t.solve c.order = .ok s) :
    ∃ r, analyzeWith w c sel limit = .ok r :=
  ⟨_, except_bind_ok.mpr ⟨t, ht, except_bind_ok.mpr ⟨s, hs, rfl⟩⟩⟩

theorem analyzeAt_of_no_fault (hw : w.Valid) (c : Config) {sens : Sensitivity}
    (hno : ∀ e, ¬ Fault w (Derives w (.ofSensitivity sens)) e) : ∃ r, analyzeAt w c sens = .ok r := by
  obtain ⟨t, ht⟩ := Task.exists_new ht (.ofSensitivity sens) (Task.limitFor w sens.depth)
  have hample := Task.ample_of_sensitivity hw ht
  have hsolve := hample.solve_ok_iff c.order
  unfold Task.Derives at hsolve
  rw [(Task.new_eq ht).1, (Task.new_eq ht).2.1] at hsolve
  obtain ⟨s, hs⟩ := hsolve.mpr hno
  exact analyzeWith_of_solve ht hs

end

theorem exists_outcome_of_callsFit {p : Program} {w : World} (hw : World.ofProgram p = .ok w)
    (hno : ∀ x ∈ w.program.stmts, AccessIndex.access? x.2 = none) (hfit : w.program.CallsFit) (c : Config)
    (sens : Sensitivity) : ∃ r, analyzeAt w c sens = .ok r := by
  obtain ⟨t, ht⟩ := Task.exists_of_no_access hno .insensitive 0
  exact analyzeAt_of_no_fault ht (World.valid_of_withHeap hw) c (no_fault_perSite hw hfit _)

theorem Sample.exists_outcome (c : Config) (sens : Sensitivity) : ∃ r, analyzeAt world c sens = .ok r := by
  obtain ⟨t, ht, hsolve⟩ := exists_solution sens
  obtain ⟨s, hs⟩ := hsolve c.order
  exact analyzeWith_of_solve ht hs

end PointsTo
