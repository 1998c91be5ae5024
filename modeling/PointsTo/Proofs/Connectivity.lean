import Mathlib.Logic.Relation
import PointsTo.Proofs.Projection

/-!
# Call graphs are rooted at their entry

An edge of an outcome's call graph starts at a call of its caller, both its
ends are reachable, and a path of edges leads from the entry to each reachable
method. The graph without contexts is the image of the one with contexts and
inherits all this from it.
-/

namespace PointsTo

namespace CallGraph

section
variable {σ μ : Type} [DecidableEq σ] [Hashable σ] [DecidableEq μ] [Hashable μ]

def Linked (g : CallGraph σ μ) (m m' : μ) : Prop := ∃ e ∈ g.edges.toList, e.caller = m ∧ e.callee = m'

structure Rooted (g : CallGraph σ μ) (entry : μ) : Prop where
  entries : g.entries.toList = [entry]
  nodup : g.reachable.toList.Nodup
  caller : ∀ e ∈ g.edges.toList, e.caller ∈ g.reachable.toList
  callee : ∀ e ∈ g.edges.toList, e.callee ∈ g.reachable.toList
  path : ∀ m ∈ g.reachable.toList, Relation.ReflTransGen g.Linked entry m

variable {α : Type} (l : List α) (g : CallGraph σ μ)

theorem entries_foldl_addReachable (f : α → μ) :
    (l.foldl (fun g a => (g.addReachable (f a)).2) g).entries = g.entries := by
  induction l generalizing g with
  | nil => rfl
  | cons a l ih => exact ih _

theorem entries_foldl_addEdge (f : α → Edge σ μ) :
    (l.foldl (fun g a => (g.addEdge (f a)).2) g).entries = g.entries := by
  induction l generalizing g with
  | nil => rfl
  | cons a l ih => rw [List.foldl_cons, ih, addEdge_entries]

end

section
variable {σ μ σ' μ' : Type} [DecidableEq σ] [Hashable σ] [DecidableEq μ] [Hashable μ] [DecidableEq σ']
  [Hashable σ'] [DecidableEq μ'] [Hashable μ']
variable {g : CallGraph σ μ} {site : σ → σ'} {method : μ → μ'}

theorem mem_reachable_map {m : μ'} : m ∈ (g.map site method).reachable.toList ↔
    ∃ i ∈ g.reachable.toList, method i = m := by
  rw [← isReachable_iff, isReachable_map]

theorem mem_edges_map {e : Edge σ' μ'} : e ∈ (g.map site method).edges.toList ↔
    ∃ i ∈ g.edges.toList, ⟨i.kind, method i.caller, site i.site, method i.callee⟩ = e := by
  rw [← hasEdge_iff, hasEdge_map]

theorem Rooted.map {entry : μ} (h : g.Rooted entry) : (g.map site method).Rooted (method entry) where
  entries := by
    unfold CallGraph.map
    rw [entries_foldl_addEdge, entries_foldl_addReachable, h.entries]
    simp [addEntry, empty, Table.toList_insert]
  nodup := Table.nodup_toList _
  caller e he := by
    obtain ⟨i, hi, rfl⟩ := mem_edges_map.mp he
    exact mem_reachable_map.mpr ⟨i.caller, h.caller i hi, rfl⟩
  callee e he := by
    obtain ⟨i, hi, rfl⟩ := mem_edges_map.mp he
    exact mem_reachable_map.mpr ⟨i.callee, h.callee i hi, rfl⟩
  path m hm := by
    obtain ⟨i, hi, rfl⟩ := mem_reachable_map.mp hm
    refine (h.path i hi).lift method fun a b hab => ?_
    obtain ⟨e, he, rfl, rfl⟩ := hab
    exact ⟨_, mem_edges_map.mpr ⟨e, he, rfl⟩, rfl, rfl⟩

end

end CallGraph

/-! ## The entry -/

structure State.Entered (t : Task) (s : State) : Prop where
  before : s.started = false → s.calls.entries.toList = []
  after : s.started = true → ∃ i, s.calls.entries.toList = [i] ∧
    s.entities.frameOf? i = some ⟨t.selector.entry, t.world.entry⟩

section
variable {t : Task} {s s' : State}

theorem State.entered_initial (t : Task) (order : Order) : (initial order).Entered t :=
  ⟨fun _ => rfl, fun h => by cases h⟩

theorem State.Entered.of_entries (h : s.Entered t) (hx : s.entities.Extends s'.entities)
    (he : s'.calls.entries = s.calls.entries) (hs : s'.started = s.started) : s'.Entered t := by
  constructor
  · intro hstart
    rw [he]
    exact h.before (hs ▸ hstart)
  · intro hstart
    obtain ⟨i, hi, hf⟩ := h.after (hs ▸ hstart)
    exact ⟨i, by rw [he, hi], hx.frame hf⟩

theorem Move.entries (m : Move t s s') : s'.calls.entries = s.calls.entries := by
  cases m with
  | link _ _ => exact CallGraph.addEdge_entries _ _
  | _ => rfl

theorem Change.entered (h : Change t s s') (hs : s.Entered t) : s'.Entered t := by
  cases h with
  | move m => exact hs.of_entries m.grows.entities m.entries m.grows.started
  | absorb _ => exact hs.of_entries Entities.extends_extend rfl rfl
  | reach _ => exact hs.of_entries (.refl _) rfl rfl
  | launch hstart =>
    obtain ⟨i, _, hcalls, hi⟩ := s.frameOf?_launched t
    constructor
    · intro h
      cases h
    · intro _
      refine ⟨i, ?_, hi⟩
      rw [hcalls, CallGraph.addEntry, Table.toList_insert, hs.before hstart]
      simp

theorem Evolves.entered (h : Evolves t s s') (hs : s.Entered t) : s'.Entered t := by
  induction h with
  | refl => exact hs
  | tail _ c ih => exact c.entered ih

end

/-! ## Paths -/

/-- `P` of the method that a fact has reached, or that it calls from. -/
def Fact.Led (P : Frame → Prop) : Fact → Prop
  | .reaches f => P f
  | .calls e => P e.caller
  | _ => True

namespace State.Final
variable {t : Task} {s : State} (h : s.Final t) (ht : t.Valid)
include h ht

theorem mem_reachable {i : CSMethodId} {f : Frame} (hi : s.entities.frameOf? i = some f)
    (hd : t.Derives (.reaches f)) : i ∈ s.calls.reachable.toList := by
  obtain ⟨j, hj, hf⟩ : s.Reaches f := (h.has_iff ht _).mpr hd
  rw [Entities.frameOf?_inj hi hf]; exact hj

/-- Induction along a derivation: the rule that reaches a method uses a call edge, and the caller of
that edge has been reached before. -/
theorem led {entry : CSMethodId}
    (hentry : s.entities.frameOf? entry = some ⟨t.selector.entry, t.world.entry⟩) {fact : Fact}
    (hd : t.Derives fact) : fact.Led fun f => ∀ i, s.entities.frameOf? i = some f →
      Relation.ReflTransGen s.calls.Linked entry i := by
  refine Derives.induct (P := Fact.Led _) (fun fact r => ?_) hd
  cases r with
  | entry =>
    intro i hi
    rw [Entities.frameOf?_inj hi hentry]
  | staticCall hr _ _ _ => exact hr.2
  | instanceCall d _ _ => exact d.reached.2
  | callee he =>
    intro i hi
    obtain ⟨k, hk, hlink⟩ : s.Calls _ := (h.has_iff ht _).mpr he.1
    obtain ⟨_, hcaller, _, hcallee⟩ := Entities.linkOf?_eq_some.mp hlink
    rw [Entities.frameOf?_inj hi hcallee]
    exact (he.2 k.caller hcaller).tail ⟨k, hk, rfl, rfl⟩
  | _ => trivial

theorem rooted (he : s.Entered t) : ∃ entry,
    s.entities.frameOf? entry = some ⟨t.selector.entry, t.world.entry⟩ ∧ s.calls.Rooted entry := by
  obtain ⟨entry, hentries, hentry⟩ := he.after h.started
  refine ⟨entry, hentry, hentries, Table.nodup_toList _, fun e he => ?_, fun e he => ?_, fun i hi => ?_⟩
  · obtain ⟨x, hx, hd⟩ := h.invariant.justified.calls e he
    exact h.mem_reachable ht (Entities.linkOf?_eq_some.mp hx).2.1 (hd.grounded ht.world).caller
  · refine (h.invariant.waits.callee e he).resolve_right ?_
    rw [h.pending]; exact List.not_mem_nil
  · obtain ⟨f, hf, hd⟩ := h.invariant.justified.reachable i hi
    exact h.led ht hentry hd i hf

end State.Final

/-! ## Outcomes -/

structure Outcome.WellFormed (w : World) (sel : Selector) (r : Outcome) : Prop where
  /-- An edge is a call of its caller, under the context of its caller. -/
  edges : ∀ e ∈ r.calls.edges.toList, ∃ c site call, r.entities.method? e.caller = some ⟨c, site.method⟩ ∧
    r.entities.site? e.site = some ⟨c, site⟩ ∧ w.program.stmt? site = some (.invoke call) ∧
    e.kind = .ofCall call.kind
  rooted : ∃ entry, r.entities.frameOf? entry = some ⟨sel.entry, w.entry⟩ ∧ r.calls.Rooted entry
  /-- A variable has a pointer only where its method is reachable. -/
  vars : ∀ p c v, r.entities.pointer? p = some (.var c v) → ∃ m, w.program.owner? v = some m ∧
    ∃ i ∈ r.calls.reachable.toList, r.entities.method? i = some ⟨c, m⟩
  reachable : ∀ m, m ∈ r.callGraph.reachable.toList ↔ ∃ i ∈ r.calls.reachable.toList, ∃ c,
    r.entities.method? i = some ⟨c, m⟩
  calls : ∀ e, e ∈ r.callGraph.edges.toList ↔ ∃ i ∈ r.calls.edges.toList, ∃ x,
    r.entities.linkOf? i = some x ∧ x.project = e
  projected : r.callGraph.Rooted w.entry

section
variable {t : Task} {s : State}

theorem State.Justified.edge (h : s.Justified t) (ht : t.Valid) {e : Edge CSCallSiteId CSMethodId}
    (he : e ∈ s.calls.edges.toList) : ∃ c site call, s.entities.method? e.caller = some ⟨c, site.method⟩ ∧
      s.entities.site? e.site = some ⟨c, site⟩ ∧ t.world.program.stmt? site = some (.invoke call) ∧
      e.kind = .ofCall call.kind := by
  obtain ⟨x, hx, hd⟩ := h.calls e he
  obtain ⟨hk, hcaller, hsite, _⟩ := Entities.linkOf?_eq_some.mp hx
  obtain ⟨call, hcontext, hmethod, hstmt, hkind⟩ := hd.call ht.world
  obtain ⟨c, hcaller, hc⟩ := Entities.frameOf?_eq_some.mp hcaller
  obtain ⟨c', hsite, hc'⟩ := Entities.siteOf?_eq_some.mp hsite
  rw [hcontext] at hc'
  cases Entities.context?_inj hc hc'
  exact ⟨c, x.site.stmt, call, hmethod ▸ hcaller, hsite, hstmt, hk.trans hkind⟩

theorem State.Justified.owner (h : s.Justified t) (ht : t.Valid) {p : PointerId} {i : ContextId}
    {v : VarId} (hp : s.entities.pointer? p = some (.var i v)) : ∃ c m, s.entities.context? i = some c ∧
      t.world.program.owner? v = some m ∧ t.Derives (.reaches ⟨c, m⟩) := by
  obtain ⟨cell, hcell, hocc⟩ := h.entities.pointers _ (Table.mem_toList.mpr ⟨_, hp⟩)
  obtain ⟨c, hc, rfl⟩ := Option.map_eq_some_iff.mp hcell
  obtain ⟨m, hm, hd⟩ := hocc.grounded ht
  exact ⟨c, m, hc, hm, hd⟩

theorem State.Final.wellFormed (h : s.Final t) (ht : t.Valid) (he : s.Entered t) (name : String) :
    (Outcome.ofState name s).WellFormed t.world t.selector := by
  have hrooted := h.rooted ht he
  constructor
  case edges => exact fun e he => h.invariant.justified.edge ht he
  case rooted => exact hrooted
  case vars =>
    intro p i v hp
    obtain ⟨c, m, hc, hm, hd⟩ := h.invariant.justified.owner ht hp
    obtain ⟨j, hj, hf⟩ : s.Reaches ⟨c, m⟩ := (h.has_iff ht _).mpr hd
    obtain ⟨k, hmethod, hk⟩ := Entities.frameOf?_eq_some.mp hf
    cases Entities.context?_inj hc hk
    exact ⟨m, hm, j, hj, hmethod⟩
  case reachable =>
    intro m
    unfold Outcome.callGraph
    rw [CallGraph.mem_reachable_map]
    refine exists_congr fun i => and_congr_right fun hi => ?_
    obtain ⟨f, hf, _⟩ := h.invariant.justified.reachable i hi
    obtain ⟨c, hmethod, _⟩ := Entities.frameOf?_eq_some.mp hf
    simp [show (Outcome.ofState name s).entities.method? i = _ from hmethod]
  case calls =>
    intro e
    unfold Outcome.callGraph
    rw [CallGraph.mem_edges_map]
    refine exists_congr fun i => and_congr_right fun hi => ?_
    obtain ⟨x, hx, _⟩ := h.invariant.justified.calls i hi
    rw [Entities.edge_of_linkOf? (e := (Outcome.ofState name s).entities) hx]
    simp [show (Outcome.ofState name s).entities.linkOf? i = _ from hx]
  case projected =>
    obtain ⟨entry, hentry, hroot⟩ := hrooted
    have hmap : (Outcome.ofState name s).callGraph.Rooted
        (((s.entities.method? entry).map CSMethod.method).getD default) := hroot.map
    rw [Entities.method_of_frameOf? hentry] at hmap
    exact hmap

end

/-- **Well-formed call graphs.** After every successful run on a valid program, whatever the heap, the
selector and the configuration. -/
theorem outcome_wellFormed {p : Program} {heap : Heap} {w : World} {c : Config} {sel : Selector}
    {limit : Nat} {r : Outcome} (hw : World.withHeap p heap = .ok w)
    (h : analyzeWith w c sel limit = .ok r) : r.WellFormed w sel := by
  obtain ⟨t, s, ht, hs, hr⟩ := analyzeWith_ok h
  have hvalid := Task.valid_of_new ht (World.valid_of_withHeap hw)
  obtain ⟨rfl, rfl, _, _⟩ := Task.new_eq ht
  have hentered := (Task.evolves_of_solve hvalid hs).entered (State.entered_initial t c.order)
  have hformed := (Task.final_of_solve hvalid hs).wellFormed hvalid hentered t.selector.name
  obtain rfl | rfl := hr
  · exact hformed
  · exact { hformed with }

/-- The boxes, with objects told apart by the object that made them. -/
theorem outcome_wellFormed_sample : ∃ r, analyzeAt Sample.world default ⟨.object, 2⟩ = .ok r ∧
    r.WellFormed Sample.world (.ofSensitivity ⟨.object, 2⟩) := by
  obtain ⟨r, hr⟩ := Sample.exists_outcome default ⟨.object, 2⟩
  exact ⟨r, hr, outcome_wellFormed Sample.world_eq hr⟩

end PointsTo
