import PointsTo.Proofs.Transport
import PointsTo.Proofs.Unreached

/-!
# Longer programs

Statements added at the ends of bodies take nothing away: no rule needs a fact
to be missing. What can be derived for the shorter program can be derived for
the longer one, with each object under the number of the same allocation.
-/

namespace PointsTo

def Fact.rename (ρ : ObjId → ObjId) (f : Fact) : Fact := Transport.onFact ⟨.rename ρ, .rename ρ, ρ⟩ f

theorem World.Embeds.derives {ρ : ObjId → ObjId} {w w' : World} {sel sel' : Selector} (h : w.Embeds ρ w')
    (hsel : sel.Mirrors ρ sel') {f : Fact} (d : Derives w sel f) : Derives w' sel' (f.rename ρ) := by
  have hcarries : Transport.Carries ⟨.rename ρ, .rename ρ, ρ⟩ w w' sel sel' := by
    refine ⟨h, hsel.entry.symm, ?_, ?_, ?_⟩ <;> intros
    · exact (hsel.static _ _ _).symm
    · exact (hsel.onObject _ _ _ _ _ _).symm
    · exact (hsel.heap _ _ _).symm
  exact hcarries.derives d

theorem Method.covers_of_prefix {method method' : Method} (hheader : method'.header = method.header)
    (hbody : method.body.toList <+: method'.body.toList) : method.Covers method' where
  thisVar := (congrArg Method.thisVar hheader :)
  params := (congrArg Method.params hheader :)
  returnVars := (hbody.filterMap _).subset

namespace Program

/-- `p'` is `p` with statements added at the ends of bodies. Variables may be added or be others. -/
structure Extends (p p' : Program) : Prop where
  classes : p'.classes = p.classes
  fields : p'.fields = p.fields
  methods : p'.methods.map Method.header = p.methods.map Method.header
  bodies : ∀ m method method', p.method? m = some method → p'.method? m = some method' →
    method.body.toList <+: method'.body.toList
  entry : p'.entry = p.entry

namespace Extends
variable {p p' : Program} (h : p.Extends p')
include h

/-- Variables apart, all but the bodies is the same. -/
theorem agrees : p.Agrees (fun _ => False) { p' with vars := p.vars } where
  headers := by
    unfold Program.headers
    simp only [h.classes, h.fields, h.methods, h.entry]
  method _ := False.elim

theorem callee? (type : Option ClassId) (call : Call) :
    (Hierarchy.ofProgram p').callee? type call = (Hierarchy.ofProgram p).callee? type call := by
  rw [← h.agrees.callee?]
  refine Hierarchy.callee?_congr ?_ ?_ (fun _ => ?_) type call <;> rfl

theorem resolveField (ref : FieldRef) :
    (Hierarchy.ofProgram p').resolveField ref = (Hierarchy.ofProgram p).resolveField ref :=
  h.agrees.resolveField ref

theorem method? {m : MethodId} {method : Method} (hm : p.method? m = some method) : ∃ method',
    p'.method? m = some method' ∧ method'.header = method.header ∧
      method.body.toList <+: method'.body.toList := by
  have hheader : (p'.method? m).map Method.header = some method.header := by
    unfold Program.method? at hm ⊢
    rw [← Array.getElem?_map, h.methods, Array.getElem?_map, hm]
    rfl
  obtain ⟨method', hm', heq⟩ := Option.map_eq_some_iff.mp hheader
  exact ⟨method', hm', heq, h.bodies m method method' hm hm'⟩

theorem stmt? {site : StmtId} {st : Stmt} (hs : p.stmt? site = some st) : p'.stmt? site = some st := by
  obtain ⟨method, hm, hst⟩ := method?_of_stmt? hs
  obtain ⟨method', hm', _, added, hbody⟩ := h.method? hm
  unfold Program.stmt?
  rw [hm', Option.bind_some, ← Array.getElem?_toList, ← hbody]
  rw [← Array.getElem?_toList] at hst
  rw [List.getElem?_append_left (List.getElem?_eq_some_iff.mp hst).1, hst]

theorem mem_allocations {obj : Obj} (hobj : obj ∈ Heap.allocations p) : obj ∈ Heap.allocations p' := by
  obtain ⟨lhs, method, hs, hm, hc⟩ := Heap.mem_allocations.mp hobj
  obtain ⟨method', hm', hheader, _⟩ := h.method? hm
  exact Heap.mem_allocations.mpr ⟨lhs, method', h.stmt? hs, hm', (congrArg Method.cls hheader).trans hc⟩

/-- Objects keep their allocation. -/
theorem obj?_moved {o : ObjId} {obj : Obj} (ho : (Heap.perSite p).obj? o = some obj) :
    (Heap.perSite p').obj? ((Heap.perSite p).moved (.perSite p') o) = some obj :=
  Heap.obj?_moved_of_mem ho (h.mem_allocations (Heap.mem_allocations_of_obj? ho))

theorem embeds {w w' : World} (hw : World.ofProgram p = .ok w) (hw' : World.ofProgram p' = .ok w') :
    w.Embeds (w.heap.moved w'.heap) w' := by
  have hper := World.perSite_of_ofProgram hw
  have hper' := World.perSite_of_ofProgram hw'
  obtain rfl := World.program_of_ofProgram hw
  obtain rfl := World.program_of_ofProgram hw'
  constructor
  case entry =>
    have hentry := h.entry
    rw [entry_of_check hper.check, entry_of_check hper'.check] at hentry
    exact Option.some.inj hentry
  case stmt => exact h.stmt?
  case method =>
    intro m method hm
    obtain ⟨method', hm', hheader, hbody⟩ := h.method? hm
    exact ⟨method', hm', Method.covers_of_prefix hheader hbody⟩
  case callee =>
    rw [hper.hierarchy, hper'.hierarchy]
    exact h.callee?
  case resolveField =>
    rw [hper.hierarchy, hper'.hierarchy]
    exact h.resolveField
  all_goals rw [hper.heap, hper'.heap]
  case objAt =>
    intro site o ho
    obtain ⟨obj, hobj, rfl⟩ := Heap.object_of_objAt? ho
    exact Heap.objAt?_of_obj? (h.obj?_moved hobj)
  case obj => exact h.obj?_moved

end Extends

end Program

/-- **Longer bodies, more facts.** If a valid program has statements added to the bodies of another, and
the analyses of both succeed under the same sensitivity, each in any order, then every fact of the
shorter one is a fact of the longer one. Each object stands for the object of the same allocation. -/
theorem facts_of_extension {p p' : Program} {w w' : World} {sens : Sensitivity} {t t' : Task}
    {order order' : Order} {s s' : State} (hext : p.Extends p') (hw : World.ofProgram p = .ok w)
    (hw' : World.ofProgram p' = .ok w') (ht : Task.ofSensitivity w sens = .ok t)
    (ht' : Task.ofSensitivity w' sens = .ok t') (hs : t.solve order = .ok s) (hs' : t'.solve order' = .ok s') :
    (∀ f, s.Has f → s'.Has (f.rename (w.heap.moved w'.heap))) ∧
    ∀ o obj, w.heap.obj? o = some obj → w'.heap.obj? (w.heap.moved w'.heap o) = some obj := by
  have hembeds := hext.embeds hw hw'
  have hvalid := Task.valid_of_new ht (World.valid_of_withHeap hw)
  have hvalid' := Task.valid_of_new ht' (World.valid_of_withHeap hw')
  obtain ⟨rfl, hsel, _⟩ := Task.new_eq ht
  obtain ⟨rfl, hsel', _⟩ := Task.new_eq ht'
  refine ⟨fun f hf => ?_, fun o obj => hembeds.obj⟩
  have hd := ((Task.final_of_solve hvalid hs).has_iff hvalid f).mp hf
  refine ((Task.final_of_solve hvalid' hs').has_iff hvalid' _).mpr ?_
  refine hembeds.derives ?_ hd
  rw [hsel, hsel']
  exact Selector.mirrors_ofSensitivity _ sens

/-! ## A maker that comes to make more -/

namespace Growing

def makeCall : Call := ⟨.static, ⟨⟨0⟩, "make()"⟩, none, [], some ⟨2⟩⟩

/-- `main` makes an object of its own after it has called a maker, which makes one more object and gives
back the first one if the program is `grown`. -/
def program (grown : Bool) : Program where
  classes := #[⟨"Main", none, [], false, false, [⟨0⟩, ⟨1⟩], []⟩]
  methods := #[
    ⟨"make", ⟨0⟩, "make()", true, false, none, [],
      if grown then #[.alloc ⟨0⟩ ⟨0⟩, .alloc ⟨3⟩ ⟨0⟩, .ret (some ⟨0⟩)] else #[.alloc ⟨0⟩ ⟨0⟩]⟩,
    ⟨"main", ⟨0⟩, "main()", true, false, none, [], #[.invoke makeCall, .alloc ⟨1⟩ ⟨0⟩]⟩]
  fields := #[]
  vars := #[⟨"x", ⟨0⟩⟩, ⟨"y", ⟨1⟩⟩, ⟨"z", ⟨1⟩⟩] ++ if grown then #[⟨"more", ⟨0⟩⟩] else #[]
  entry := some ⟨1⟩

def world (grown : Bool) : World := ⟨.ofProgram (program grown), .perSite (program grown), ⟨1⟩⟩

theorem world_eq (grown : Bool) : World.ofProgram (program grown) = .ok (world grown) := by
  have hcheck : (program grown).check = .ok ⟨1⟩ := by cases grown <;> rfl
  exact World.withHeap_of_check hcheck _

theorem exists_outcome (grown : Bool) (c : Config) (sens : Sensitivity) :
    ∃ r, analyzeAt (world grown) c sens = .ok r := by
  have hno : ∀ x ∈ (program grown).stmts, AccessIndex.access? x.2 = none := by cases grown <;> decide
  have hfit : (program grown).CallsFit := by cases grown <;> decide
  exact exists_outcome_of_callsFit (world_eq grown) hno hfit c sens

theorem extends_grown : (program false).Extends (program true) where
  classes := rfl
  fields := rfl
  methods := by simp [program, Method.header]
  bodies m method method' hm hm' := by
    obtain ⟨i⟩ := m
    cases i with
    | zero =>
      cases hm
      cases hm'
      exact ⟨[.alloc ⟨3⟩ ⟨0⟩, .ret (some ⟨0⟩)], rfl⟩
    | succ i =>
      cases hm.symm.trans hm'
      exact List.prefix_refl _
  entry := rfl

/-- The object of `main` has another number. -/
theorem moved_eq : (world false).heap.moved (world true).heap ⟨1⟩ = ⟨2⟩ := by
  have hobj : (Heap.perSite (program true)).obj? ⟨2⟩ = some ⟨⟨⟨1⟩, 1⟩, ⟨0⟩, ⟨0⟩⟩ := rfl
  show ((Heap.perSite (program true)).objAt? ⟨⟨1⟩, 1⟩).getD _ = _
  rw [Heap.objAt?_of_obj? hobj]
  rfl

theorem points_main (k : Nat) :
    Derives (world false) (.callSite k) (.points (.var .empty ⟨1⟩) ⟨.empty, ⟨1⟩⟩) := by
  have hs : (world false).program.stmt? ⟨⟨1⟩, 1⟩ = some (.alloc ⟨1⟩ ⟨0⟩) := rfl
  have hobj : (Heap.perSite (program false)).obj? ⟨1⟩ = some ⟨⟨⟨1⟩, 1⟩, ⟨0⟩, ⟨0⟩⟩ := rfl
  exact .rule (.alloc (.rule .entry) hs (Heap.objAt?_of_obj? hobj) hobj)

end Growing

theorem facts_of_extension_growing : ∃ t t' s s',
    Task.ofSensitivity (Growing.world false) ⟨.callSite, 1⟩ = .ok t ∧ t.solve .fifo = .ok s ∧
    Task.ofSensitivity (Growing.world true) ⟨.callSite, 1⟩ = .ok t' ∧ t'.solve .fifo = .ok s' ∧
    s.Has (.points (.var .empty ⟨1⟩) ⟨.empty, ⟨1⟩⟩) ∧ s'.Has (.points (.var .empty ⟨1⟩) ⟨.empty, ⟨2⟩⟩) := by
  obtain ⟨r, hr⟩ := Growing.exists_outcome false .standard ⟨.callSite, 1⟩
  obtain ⟨r', hr'⟩ := Growing.exists_outcome true .standard ⟨.callSite, 1⟩
  obtain ⟨t, s, ht, hs, _⟩ := analyzeWith_ok hr
  obtain ⟨t', s', ht', hs', _⟩ := analyzeWith_ok hr'
  have hvalid := Task.valid_of_new ht (World.valid_of_withHeap (Growing.world_eq false))
  have hhas : s.Has (.points (.var .empty ⟨1⟩) ⟨.empty, ⟨1⟩⟩) := by
    refine ((Task.final_of_solve hvalid hs).has_iff hvalid _).mpr ?_
    obtain ⟨hworld, hsel, _⟩ := Task.new_eq ht
    unfold Task.Derives
    rw [hworld, hsel]
    exact Growing.points_main 1
  have hgrown := (facts_of_extension Growing.extends_grown (Growing.world_eq false) (Growing.world_eq true)
    ht ht' hs hs').1 _ hhas
  refine ⟨t, t', s, s', ht, hs, ht', hs', hhas, ?_⟩
  rw [← Growing.moved_eq]
  exact hgrown

end PointsTo
