import PointsTo.Proofs.Renumbering
import PointsTo.Proofs.Success

/-!
# Confluence

The order in which the worklist is emptied decides how things are numbered and
how often entries are taken, and nothing else.
-/

namespace PointsTo

structure State.Decodes (s : State) : Prop where
  objects : ∀ i : CSObjId, i.idx < s.entities.objs.size → ∃ o, s.entities.objectOf? i = some o
  sites : ∀ i : CSCallSiteId, i.idx < s.entities.sites.size → ∃ x, s.entities.siteOf? i = some x
  methods : ∀ i : CSMethodId, i.idx < s.entities.methods.size → ∃ m, s.entities.frameOf? i = some m
  pointers : ∀ i : PointerId, i.idx < s.entities.pointers.size → ∃ p, s.entities.cellOf? i = some p
  points : ∀ i, ∀ j ∈ s.entities.pointsTo i, ∃ p o, s.entities.cellOf? i = some p ∧
    s.entities.objectOf? j = some o
  flows : ∀ i, ∀ j ∈ s.flow.successors i, ∃ p q, s.entities.cellOf? i = some p ∧
    s.entities.cellOf? j = some q
  reachable : ∀ i ∈ s.calls.reachable.toList, ∃ m, s.entities.frameOf? i = some m
  edges : ∀ i ∈ s.calls.edges.toList, ∃ e, s.entities.linkOf? i = some e

/-- Two states are the same but for the numbers of their handles. -/
structure State.SameContents (s s' : State) : Prop where
  contexts : ∀ c, c ∈ s.entities.contexts.toList ↔ c ∈ s'.entities.contexts.toList
  objects : ∀ o, (∃ i, s.entities.objectOf? i = some o) ↔ ∃ i, s'.entities.objectOf? i = some o
  sites : ∀ x, (∃ i, s.entities.siteOf? i = some x) ↔ ∃ i, s'.entities.siteOf? i = some x
  methods : ∀ m, (∃ i, s.entities.frameOf? i = some m) ↔ ∃ i, s'.entities.frameOf? i = some m
  pointers : ∀ p, s.Knows p ↔ s'.Knows p
  points : ∀ p o, s.Points p o ↔ s'.Points p o
  flows : ∀ p q, s.Flows p q ↔ s'.Flows p q
  reachable : ∀ m, s.Reaches m ↔ s'.Reaches m
  edges : ∀ e, s.Calls e ↔ s'.Calls e

namespace State.Final
variable {t : Task} {s s' : State} (h : s.Final t) (h' : s'.Final t) (ht : t.Valid)
include h ht

theorem decodes : s.Decodes := by
  have hj := h.invariant.justified
  constructor
  case objects => exact fun i hi => (h.enumerates_objects ht).decodes i (mem_idsBelow.mpr hi)
  case pointers => exact fun i hi => (h.enumerates_pointers ht).decodes i (mem_idsBelow.mpr hi)
  case reachable => exact (h.enumerates_reachable ht).decodes
  case edges => exact (h.enumerates_edges ht).decodes
  case sites =>
    intro i hi
    obtain ⟨x, hx⟩ := Table.exists_of_lt hi
    obtain ⟨c, hc, _⟩ := hj.entities.sites x (Table.mem_toList.mpr ⟨_, hx⟩)
    exact ⟨⟨c, x.site⟩, Entities.siteOf?_eq_some.mpr ⟨x.context, hx, hc⟩⟩
  case methods =>
    intro i hi
    obtain ⟨x, hx⟩ := Table.exists_of_lt hi
    obtain ⟨c, hc, _⟩ := hj.entities.methods x (Table.mem_toList.mpr ⟨_, hx⟩)
    exact ⟨⟨c, x.method⟩, Entities.frameOf?_eq_some.mpr ⟨x.context, hx, hc⟩⟩
  case points =>
    intro i j hij
    obtain ⟨p, o, hp, ho, _⟩ := hj.points i j hij
    exact ⟨p, o, hp, ho⟩
  case flows =>
    intro i j hij
    obtain ⟨p, q, hp, hq, _⟩ := hj.flows i j hij
    exact ⟨p, q, hp, hq⟩

include h'

/-- Both states hold what can be derived. -/
theorem sameContents (he : t.selector.entry = .empty) : s.SameContents s' := by
  have hhas : ∀ f, s.Has f ↔ s'.Has f := fun f => (h.has_iff ht f).trans (h'.has_iff ht f).symm
  constructor
  case contexts => exact fun c => (h.context_iff ht he).trans (h'.context_iff ht he).symm
  case objects => exact fun o => (h.object_iff ht).trans (h'.object_iff ht).symm
  case sites => exact fun x => (h.site_iff ht).trans (h'.site_iff ht).symm
  case methods => exact fun m => (h.frame_iff ht).trans (h'.frame_iff ht).symm
  case pointers => exact fun p => (h.knows_iff ht).trans (h'.knows_iff ht).symm
  case points => exact fun p o => hhas (.points p o)
  case flows => exact fun p q => hhas (.flows p q)
  case reachable => exact fun m => hhas (.reaches m)
  case edges => exact fun e => hhas (.calls e)

theorem unresolved_congr : s.unresolved = s'.unresolved := by
  rw [h.unresolved_eq, h'.unresolved_eq,
    (h.enumerates_reachable ht).sum_eq (h'.enumerates_reachable ht),
    (h.enumerates_points ht).sum_eq (h'.enumerates_points ht)]

/-- All counts but those of the worklist. -/
theorem stats_congr (he : t.selector.entry = .empty) : s'.stats = { s.stats with
    worklistEntries := s'.popped, effectivePropagations := s'.effective } := by
  have hreachable : s.calls.reachable.size = s'.calls.reachable.size := by
    rw [Table.size_eq, Table.size_eq]
    exact (h.enumerates_reachable ht).length_eq (h'.enumerates_reachable ht)
  have hedges : s.calls.edges.size = s'.calls.edges.size := by
    rw [Table.size_eq, Table.size_eq]
    exact (h.enumerates_edges ht).length_eq (h'.enumerates_edges ht)
  have hflows : s.flow.edgeCount = s'.flow.edgeCount := by
    rw [h.invariant.justified.edgeCount_eq h.invariant.counted,
      h'.invariant.justified.edgeCount_eq h'.invariant.counted, ← length_sigma, ← length_sigma]
    exact (h.enumerates_flows ht).length_eq (h'.enumerates_flows ht)
  have hpointers : s.entities.pointers.size = s'.entities.pointers.size := by
    simpa using (h.enumerates_pointers ht).length_eq (h'.enumerates_pointers ht)
  have hobjects : s.entities.objs.size = s'.entities.objs.size := by
    simpa using (h.enumerates_objects ht).length_eq (h'.enumerates_objects ht)
  have hcontexts : s.entities.contexts.size = s'.entities.contexts.size := by
    rw [Table.size_eq, Table.size_eq]
    exact (h.enumerates_contexts ht he).length_eq (h'.enumerates_contexts ht he)
  unfold stats
  rw [hreachable, hedges, hflows, hpointers, hobjects, hcontexts, h.unresolved_congr h' ht]

end State.Final

/-- **Confluence.** A run succeeds in one order if and only if it does in the other. The states at
the end have the same contents, and their statistics differ in the counts of the worklist only. -/
theorem solve_confluent {p : Program} {heap : Heap} {w : World} {sens : Sensitivity} {t : Task}
    (order order' : Order) (hw : World.withHeap p heap = .ok w) (ht : Task.ofSensitivity w sens = .ok t) :
    ((∃ s, t.solve order = .ok s) ↔ ∃ s, t.solve order' = .ok s) ∧
    ∀ s s', t.solve order = .ok s → t.solve order' = .ok s' →
      s.Decodes ∧ s'.Decodes ∧ s.SameContents s' ∧ s'.stats = { s.stats with
        worklistEntries := s'.stats.worklistEntries
        effectivePropagations := s'.stats.effectivePropagations } := by
  have hample := Task.ample_of_sensitivity (World.valid_of_withHeap hw) ht
  have hvalid := hample.valid
  have he : t.selector.entry = .empty := by
    rw [(Task.new_eq ht).2.1]; exact Selector.entry_ofSensitivity sens
  refine ⟨(hample.solve_ok_iff order).trans (hample.solve_ok_iff order').symm, fun s s' hs hs' => ?_⟩
  have h := Task.final_of_solve hvalid hs
  have h' := Task.final_of_solve hvalid hs'
  exact ⟨h.decodes hvalid, h'.decodes hvalid, h.sameContents h' hvalid he, h.stats_congr h' hvalid he⟩

/-- The boxes in both orders, three calls deep. -/
theorem solve_confluent_sample : ∃ t s s', Task.ofSensitivity Sample.world ⟨.callSite, 3⟩ = .ok t ∧
    t.solve .fifo = .ok s ∧ t.solve .lifo = .ok s' ∧ s.SameContents s' ∧
    s.stats.unresolvedCalls = s'.stats.unresolvedCalls := by
  obtain ⟨t, ht, hsolve⟩ := Sample.exists_solution ⟨.callSite, 3⟩
  obtain ⟨s, hs⟩ := hsolve .fifo
  obtain ⟨s', hs'⟩ := hsolve .lifo
  obtain ⟨_, _, hsame, hstats⟩ := (solve_confluent .fifo .lifo Sample.world_eq ht).2 s s' hs hs'
  exact ⟨t, s, s', ht, hs, hs', hsame, by rw [hstats]⟩

end PointsTo
