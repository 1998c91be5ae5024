import PointsTo.Proofs.Acceptance
import PointsTo.Proofs.Coverage
import PointsTo.Proofs.Dispatch
import PointsTo.Proofs.FirstHits

/-!
# Calls by the class hierarchy

The targets of a call are what runs on the subtypes of the class that it names.
The call graph of the class hierarchy has the methods that are called from the
entry through such targets, and nothing else. Targets and graph are collected in
loops over a queue, which come to an end as no class and no method is expanded
twice.
-/

namespace PointsTo

/-! ## Subtypes -/

namespace Hierarchy
variable {p : Program}

theorem mem_supertypes {c d : ClassId} : d ∈ (ofProgram p).supertypes c ↔ Walk.Leads p.supertypes c d :=
  Walk.mem_depthFirst

/-- A supertype has fewer supertypes: all of its own are shared, and the lower class is none of them. -/
theorem length_supertypes_lt (hp : p.Acyclic) {c d : ClassId} (hd : d ∈ p.supertypes c) :
    ((ofProgram p).supertypes d).length < ((ofProgram p).supertypes c).length := by
  have hc : c ∉ (ofProgram p).supertypes d := by
    intro hc
    exact hp c (.head' hd (mem_supertypes.mp hc))
  have hnodup : (c :: (ofProgram p).supertypes d).Nodup := List.nodup_cons.mpr ⟨hc, Table.nodup_toList _⟩
  have hsub : ∀ x ∈ c :: (ofProgram p).supertypes d, x ∈ (ofProgram p).supertypes c := by
    intro x hx
    rw [mem_supertypes]
    rcases List.mem_cons.mp hx with rfl | hx
    · exact .refl
    · exact .head hd (mem_supertypes.mp hx)
  exact (List.subperm_of_subset hnodup hsub).length_le

/-- A search from below for `d`, from the last supertype of each class to the first and with no record
of where it was, ends. -/
theorem exists_finds_supertype (hp : p.Acyclic) {c d : ClassId} (hc : (p.class? c).isSome) :
    ∃ r, Walk.Finds (fun a => (p.supertypes a).reverse) (Option.guard (· == d)) [c] r ∧
      (ofProgram p).isSubtype? c d = some r.isSome := by
  have hrank : ∀ a, ∀ b ∈ (p.supertypes a).reverse,
      ((ofProgram p).supertypes b).length < ((ofProgram p).supertypes a).length :=
    fun a b hb => length_supertypes_lt hp (List.mem_reverse.mp hb)
  obtain ⟨r, hr⟩ := Walk.exists_finds (g := Option.guard (· == d)) hrank c
  refine ⟨r, hr, ?_⟩
  have hleads : Walk.Leads (fun a => (p.supertypes a).reverse) c d ↔ Walk.Leads p.supertypes c d := by
    simp only [Walk.Leads, List.mem_reverse]
  have hsome : r.isSome = true ↔ Walk.Leads p.supertypes c d := by
    rw [hr.isSome_iff, ← hleads]
    simp
  have hlt : c.idx < p.classes.size := by simpa [Program.class?] using hc
  by_cases hd : Walk.Leads p.supertypes c d
  · rw [hsome.mpr hd, isSubtype?_iff.mpr hd]
  · rw [Bool.eq_false_iff.mpr fun h => hd (hsome.mp h)]
    exact isSubtype?_known hlt fun h => hd (isSubtype?_iff.mp h)

end Hierarchy

/-! ## The targets of a call -/

/-- What a list adds to the items that are known already. -/
def fresh {α : Type} [DecidableEq α] (known new : List α) : List α := (new.filter (· ∉ known)).eraseDups

section
variable {α : Type} [DecidableEq α] {known : List α}

theorem fresh_append (known a b : List α) :
    fresh known (a ++ b) = fresh known a ++ fresh (known ++ fresh known a) b := by
  unfold fresh
  rw [List.filter_append, List.eraseDups_append, List.removeAll, List.filter_filter]
  congr 2
  apply List.filter_congr
  intro x _
  by_cases hx : x ∈ known <;> simp [hx]

theorem fresh_nil (new : List α) : fresh [] new = new.eraseDups := by simp [fresh]

theorem fresh_cons_of_mem {a : α} (ha : a ∈ known) (l : List α) : fresh known (a :: l) = fresh known l := by
  simp [fresh, ha]

theorem fresh_cons_of_not_mem {a : α} (ha : a ∉ known) (l : List α) :
    fresh known (a :: l) = a :: fresh (known ++ [a]) l := by
  have hone : fresh known [a] = [a] := by simp [fresh, ha, List.eraseDups_cons]
  rw [← List.singleton_append, fresh_append, hone, List.singleton_append]

theorem eraseDups_append_fresh (a b : List α) : (a ++ b).eraseDups = a.eraseDups ++ fresh a.eraseDups b := by
  have h := fresh_append [] a b
  rwa [fresh_nil, fresh_nil, List.nil_append] at h

end

namespace Hierarchy

/-- The collection of targets, turn by turn: the next class of the queue is asked what runs on it, and
its subtypes join the queue unless they have been there. -/
inductive Gathers (h : Hierarchy) (s : Subsignature) :
    (queue visited : List ClassId) → (found all : List MethodId) → Prop
  | done {visited : List ClassId} {found : List MethodId} : Gathers h s [] visited found found
  | next {c : ClassId} {queue visited : List ClassId} {r : Option MethodId} {found all : List MethodId} :
      h.Climbs s (some c) r →
      Gathers h s (queue ++ fresh visited (h.directSubtypes c)) (visited ++ fresh visited (h.directSubtypes c))
        (found ++ fresh found r.toList) all →
      Gathers h s (c :: queue) visited found all

inductive Resolves (h : Hierarchy) (call : Call) : (targets : List MethodId) → Prop
  | static : call.kind = .static →
      Resolves h call (h.declaredMethod? call.target.cls call.target.subsignature).toList
  | special {r : Option MethodId} : call.kind = .special →
      h.Climbs call.target.subsignature (some call.target.cls) r → Resolves h call r.toList
  | noReceiver : call.kind = .dynamic → call.receiver = none → Resolves h call []
  | onObject {all : List MethodId} : call.kind.dispatches = true →
      ¬ (call.kind = .dynamic ∧ call.receiver = none) →
      h.Gathers call.target.subsignature [call.target.cls] [call.target.cls] [] all → Resolves h call all

theorem Gathers.det {h : Hierarchy} {s : Subsignature} {queue visited : List ClassId}
    {found all all' : List MethodId} (hall : h.Gathers s queue visited found all)
    (hall' : h.Gathers s queue visited found all') : all = all' := by
  induction hall with
  | done => cases hall'; rfl
  | next hr _ ih =>
    cases hall' with
    | next hr' hall' =>
      cases hr.det hr'
      exact ih hall'

section
variable {p : Program} (hp : p.Acyclic)
include hp

/-- The walk puts a class on its agenda as often as it comes to it, and the queue only at the first
time. -/
theorem gathers_of_visits (s : Subsignature) {agenda seen all : List ClassId}
    (h : Walk.Visits (ofProgram p).directSubtypes .back agenda seen all) :
    (ofProgram p).Gathers s (fresh seen agenda) (seen ++ fresh seen agenda)
      (seen.filterMap ((ofProgram p).dispatch? · s)).eraseDups
      (all.filterMap ((ofProgram p).dispatch? · s)).eraseDups := by
  induction h with
  | done => exact .done
  | skip ha _ ih => rwa [fresh_cons_of_mem ha]
  | @expand c agenda seen all hc _ ih =>
    have hqueue : fresh (seen ++ [c]) (Walk.End.back.join ((ofProgram p).directSubtypes c) agenda) =
        fresh (seen ++ [c]) agenda ++ fresh (seen ++ c :: fresh (seen ++ [c]) agenda)
          ((ofProgram p).directSubtypes c) := by
      rw [Walk.End.join, fresh_append, List.append_assoc, List.singleton_append]
    have hfound : ((seen ++ [c]).filterMap ((ofProgram p).dispatch? · s)).eraseDups =
        (seen.filterMap ((ofProgram p).dispatch? · s)).eraseDups ++
          fresh (seen.filterMap ((ofProgram p).dispatch? · s)).eraseDups
            ((ofProgram p).dispatch? c s).toList := by
      rw [List.filterMap_append, eraseDups_append_fresh]
      cases hr : (ofProgram p).dispatch? c s <;> simp [hr]
    rw [hqueue, hfound] at ih
    rw [fresh_cons_of_not_mem hc]
    exact .next (climbs_dispatch? hp s c) (by simpa using ih)

theorem gathers_iff {s : Subsignature} {c : ClassId} {all : List MethodId} :
    (ofProgram p).Gathers s [c] [c] [] all ↔
      all = (((ofProgram p).subtypes c).filterMap ((ofProgram p).dispatch? · s)).eraseDups := by
  have hgathers := gathers_of_visits hp s (Walk.visits_breadthFirst (ofProgram p).downward c)
  exact ⟨fun h => h.det hgathers, fun h => h ▸ hgathers⟩

/-- Every call finds its targets. -/
theorem resolves_iff {call : Call} {ts : List MethodId} :
    (ofProgram p).Resolves call ts ↔ ts = (ofProgram p).targets call := by
  have hobject : call.kind.dispatches = true → ¬ (call.kind = .dynamic ∧ call.receiver = none) → ∀ all,
      (ofProgram p).Gathers call.target.subsignature [call.target.cls] [call.target.cls] [] all ↔
        all = (ofProgram p).targets call := by
    intro hk hd all
    rw [targets_of_dispatches hk, if_neg hd, Table.toList_ofList]
    exact gathers_iff hp
  constructor
  · intro h
    cases h with
    | static hk => simp [targets, hk]
    | special hk hr => simp [targets, hk, (climbs_iff hp).mp hr]
    | noReceiver hk hr => simp [targets, hk, hr]
    | onObject hk hd hall => exact (hobject hk hd ts).mp hall
  · intro h
    subst h
    cases hk : call.kind with
    | static =>
      simp only [targets, hk]
      exact .static hk
    | special =>
      simp only [targets, hk]
      exact .special hk (climbs_dispatch? hp _ _)
    | dynamic =>
      by_cases hr : call.receiver = none
      · simp only [targets, hk, hr, and_self, if_true]
        exact .noReceiver hk hr
      · have hd : call.kind.dispatches = true := by rw [hk]; rfl
        have hno : ¬ (call.kind = .dynamic ∧ call.receiver = none) := fun h => hr h.2
        exact .onObject hd hno ((hobject hd hno _).mpr rfl)
    | virtual | interface =>
      have hd : call.kind.dispatches = true := by rw [hk]; rfl
      have hno : ¬ (call.kind = .dynamic ∧ call.receiver = none) := by simp [hk]
      exact .onObject hd hno ((hobject hd hno _).mpr rfl)

end

end Hierarchy

theorem Program.acyclic_of_check {p : Program} {entry : MethodId} (hp : p.check = .ok entry) : p.Acyclic :=
  (check_iff_wellFormed.mp hp).acyclic

/-- **Targets.** In a valid program the search for the targets of a call on an object ends. They are
listed once each, and are what runs on some subtype of the class that the call names. A subtype is what
leads to that class, and what runs is declared as near as possible, the last of its class, and concrete.
The searches for what runs and for a supertype end as well. -/
theorem targets_exact {p : Program} {entry : MethodId} (hp : p.check = .ok entry) (call : Call)
    (hcall : call.kind = .virtual ∨ call.kind = .interface ∨ call.kind = .dynamic ∧ call.receiver ≠ none) :
    (∀ ts, (Hierarchy.ofProgram p).Resolves call ts ↔ ts = (Hierarchy.ofProgram p).targets call) ∧
    ((Hierarchy.ofProgram p).targets call).Nodup ∧
    (∀ m, m ∈ (Hierarchy.ofProgram p).targets call ↔
      ∃ c, (Hierarchy.ofProgram p).isSubtype? c call.target.cls = some true ∧
        (Hierarchy.ofProgram p).dispatch? c call.target.subsignature = some m) ∧
    (∀ c d, (Hierarchy.ofProgram p).isSubtype? c d = some true ↔ Walk.Leads p.supertypes c d) ∧
    (∀ c s m, (Hierarchy.ofProgram p).dispatch? c s = some m ↔ p.Runs c s m) ∧
    (∀ c s r, (Hierarchy.ofProgram p).Climbs s (some c) r ↔ r = (Hierarchy.ofProgram p).dispatch? c s) ∧
    ∀ c d, (p.class? c).isSome →
      ∃ r, Walk.Finds (fun a => (p.supertypes a).reverse) (Option.guard (· == d)) [c] r ∧
        (Hierarchy.ofProgram p).isSubtype? c d = some r.isSome := by
  have hacyclic := Program.acyclic_of_check hp
  have hkind : call.kind.dispatches = true := by
    rw [CallKind.dispatches_iff]
    exact hcall.imp id fun h => h.imp id And.left
  have hreceiver : call.kind = .dynamic → call.receiver ≠ none := by
    intro hk
    rcases hcall with h | h | h
    · rw [hk] at h; cases h
    · rw [hk] at h; cases h
    · exact h.2
  refine ⟨fun ts => Hierarchy.resolves_iff hacyclic, Hierarchy.nodup_targets _ call, fun m => ?_,
    fun c d => Hierarchy.isSubtype?_iff, fun c s m => Hierarchy.dispatch?_iff hacyclic,
    fun c s r => Hierarchy.climbs_iff hacyclic, fun c d => Hierarchy.exists_finds_supertype hacyclic⟩
  rw [Hierarchy.mem_targets hkind, and_iff_right hreceiver]
  simp only [Hierarchy.mem_subtypes]

namespace Shapes

theorem square_leads : Walk.Leads (program 1).supertypes ⟨3⟩ ⟨1⟩ :=
  .tail (.tail .refl (by decide : (⟨2⟩ : ClassId) ∈ _)) (by decide)

theorem dispatch?_draw : (Hierarchy.ofProgram (program 1)).dispatch? ⟨3⟩ "draw()" = some ⟨2⟩ := by cbv

theorem mem_targets_draw : ⟨2⟩ ∈ (Hierarchy.ofProgram (program 1)).targets (drawCall 1) := by
  have hsquare := Hierarchy.mem_subtypes.mpr (Hierarchy.isSubtype?_iff.mpr square_leads)
  exact (Hierarchy.mem_targets rfl).mpr ⟨nofun, ⟨3⟩, hsquare, dispatch?_draw⟩

end Shapes

/-- A shape may be drawn by the method that draws squares, which is that of their base. -/
theorem targets_exact_shapes : (Shapes.program 1).check = .ok ⟨0⟩ ∧ (Shapes.drawCall 1).kind = .interface ∧
    (∃ ts, (Hierarchy.ofProgram (Shapes.program 1)).Resolves (Shapes.drawCall 1) ts ∧ ⟨2⟩ ∈ ts) ∧
    (Shapes.program 1).Runs ⟨3⟩ "draw()" ⟨2⟩ := by
  have hcheck : (Shapes.program 1).check = .ok ⟨0⟩ := rfl
  obtain ⟨hresolves, _, htargets, hsubtype, hruns, _⟩ :=
    targets_exact hcheck (Shapes.drawCall 1) (Or.inr (Or.inl rfl))
  have hsquare := (hsubtype _ _).mpr Shapes.square_leads
  exact ⟨hcheck, rfl, ⟨_, (hresolves _).mpr rfl, (htargets _).mpr ⟨⟨3⟩, hsquare, Shapes.dispatch?_draw⟩⟩,
    (hruns _ _ _).mp Shapes.dispatch?_draw⟩

/-! ## The graph -/

/-- The methods that are called from the entry, as far as the class hierarchy tells. -/
inductive World.Called (w : World) : MethodId → Prop
  | entry : Called w w.entry
  | call {site : StmtId} {call : Call} {m : MethodId} : Called w site.method →
      w.program.stmt? site = some (.invoke call) → m ∈ w.hierarchy.targets call → Called w m

theorem World.called_iff {w : World} {m : MethodId} :
    w.Called m ↔ Walk.Leads (fun m => (w.hierarchyEdges m).map (·.callee)) w.entry m := by
  constructor
  · intro h
    induction h with
    | entry => exact .refl
    | @call site call m _ hs hm ih =>
      have hedge : ⟨EdgeKind.ofCall call.kind, site.method, site, m⟩ ∈ w.hierarchyEdges site.method :=
        mem_hierarchyEdges.mpr ⟨rfl, rfl, call, hs, rfl, hm⟩
      exact ih.tail (List.mem_map_of_mem hedge)
  · intro h
    induction h with
    | refl => exact .entry
    | tail _ hstep ih =>
      obtain ⟨e, he, rfl⟩ := List.mem_map.mp hstep
      obtain ⟨_, hsite, call, hs, _, hm⟩ := mem_hierarchyEdges.mp he
      exact .call (hsite ▸ ih) hs hm

inductive World.Follows (w : World) (m : MethodId) :
    (calls : List (StmtId × Call)) → (edges : List (Edge StmtId MethodId)) → Prop
  | done : Follows w m [] []
  | next {site : StmtId} {call : Call} {calls : List (StmtId × Call)} {targets : List MethodId}
      {edges : List (Edge StmtId MethodId)} :
      w.hierarchy.Resolves call targets → Follows w m calls edges →
      Follows w m ((site, call) :: calls)
        (targets.map (fun callee => ⟨.ofCall call.kind, m, site, callee⟩) ++ edges)

/-- The graph as it is built, turn by turn: the next method of the queue, unless it was there before,
brings the edges of its calls, and all their callees join the queue. -/
inductive World.Builds (w : World) : (queue : List MethodId) → (g all : CallGraph StmtId MethodId) → Prop
  | done {g : CallGraph StmtId MethodId} : Builds w [] g g
  | skip {m : MethodId} {queue : List MethodId} {g all : CallGraph StmtId MethodId} :
      (g.addReachable m).1 = false → Builds w queue (g.addReachable m).2 all → Builds w (m :: queue) g all
  | expand {m : MethodId} {queue : List MethodId} {edges : List (Edge StmtId MethodId)}
      {g all : CallGraph StmtId MethodId} :
      (g.addReachable m).1 = true → w.Follows m (w.calls m) edges →
      Builds w (queue ++ edges.map (·.callee))
        (edges.foldl (fun g e => (g.addEdge e).2) (g.addReachable m).2) all →
      Builds w (m :: queue) g all

theorem CallGraph.addReachable_addEdge {σ μ : Type} [DecidableEq σ] [Hashable σ] [DecidableEq μ] [Hashable μ]
    (g : CallGraph σ μ) (e : Edge σ μ) (m : μ) :
    ((g.addEdge e).2.addReachable m).2 = ((g.addReachable m).2.addEdge e).2 := by
  obtain ⟨entries, reachable, edges, out, into⟩ := g
  unfold addEdge addReachable
  dsimp only
  rcases edges.insert e with ⟨new, edges⟩
  cases new <;> rfl

theorem CallGraph.addReachable_of_mem {σ μ : Type} [DecidableEq σ] [Hashable σ] [DecidableEq μ] [Hashable μ]
    {g : CallGraph σ μ} {m : μ} (hm : m ∈ g.reachable.toList) : g.addReachable m = (false, g) := by
  obtain ⟨entries, reachable, edges, out, into⟩ := g
  unfold addReachable
  dsimp only
  rw [Table.insert_of_mem hm]

theorem CallGraph.addReachable_foldl_addEdge {σ μ : Type} [DecidableEq σ] [Hashable σ] [DecidableEq μ]
    [Hashable μ] (m : μ) : ∀ (es : List (Edge σ μ)) (g : CallGraph σ μ),
      ((es.foldl (fun g e => (g.addEdge e).2) g).addReachable m).2 =
        es.foldl (fun g e => (g.addEdge e).2) (g.addReachable m).2
  | [], _ => rfl
  | e :: es, g => by
    rw [List.foldl_cons, addReachable_foldl_addEdge m es, addReachable_addEdge, List.foldl_cons]

namespace World
variable {w : World}

def graphOf (w : World) (ms : List MethodId) : CallGraph StmtId MethodId :=
  (ms.flatMap w.hierarchyEdges).foldl (fun g e => (g.addEdge e).2)
    (ms.foldl (fun g m => (g.addReachable m).2) (CallGraph.empty.addEntry w.entry))

theorem graphOf_concat (w : World) (ms : List MethodId) (m : MethodId) : w.graphOf (ms ++ [m]) =
    (w.hierarchyEdges m).foldl (fun g e => (g.addEdge e).2) ((w.graphOf ms).addReachable m).2 := by
  unfold graphOf
  rw [CallGraph.addReachable_foldl_addEdge, List.flatMap_append, List.foldl_append, List.foldl_append]
  simp

theorem mem_reachable_graphOf {ms : List MethodId} {m : MethodId} :
    m ∈ (w.graphOf ms).reachable.toList ↔ m ∈ ms := by
  unfold graphOf
  rw [← CallGraph.isReachable_iff, CallGraph.isReachable_foldl_addEdge,
    CallGraph.isReachable_foldl_addReachable]
  simp [CallGraph.isReachable_iff, CallGraph.addEntry, CallGraph.empty]

section
variable (hw : w.Valid)
include hw

theorem resolves_iff {call : Call} {ts : List MethodId} :
    w.hierarchy.Resolves call ts ↔ ts = w.hierarchy.targets call := by
  rw [hw.hierarchy]
  exact Hierarchy.resolves_iff (Program.acyclic_of_check hw.check)

theorem follows_calls (m : MethodId) : w.Follows m (w.calls m) (w.hierarchyEdges m) := by
  unfold hierarchyEdges
  induction w.calls m with
  | nil => exact .done
  | cons x calls ih => exact .next ((resolves_iff hw).mpr rfl) ih

theorem Follows.det {m : MethodId} {calls : List (StmtId × Call)} {edges edges' : List (Edge StmtId MethodId)}
    (h : w.Follows m calls edges) (h' : w.Follows m calls edges') : edges = edges' := by
  induction h generalizing edges' with
  | done => cases h'; rfl
  | next hts _ ih =>
    cases h' with
    | next hts' h' => rw [(resolves_iff hw).mp hts, (resolves_iff hw).mp hts', ih h']

theorem Builds.det {queue : List MethodId} {g all all' : CallGraph StmtId MethodId}
    (h : w.Builds queue g all) (h' : w.Builds queue g all') : all = all' := by
  induction h with
  | done => cases h'; rfl
  | skip hnew _ ih =>
    cases h' with
    | skip _ h' => exact ih h'
    | expand hnew' => rw [hnew] at hnew'; cases hnew'
  | expand hnew hedges _ ih =>
    cases h' with
    | skip hnew' => rw [hnew] at hnew'; cases hnew'
    | expand _ hedges' h' =>
      cases hedges.det hw hedges'
      exact ih h'

theorem builds_of_visits {agenda seen all : List MethodId}
    (h : Walk.Visits w.hierarchyCalls.next .back agenda seen all) :
    w.Builds agenda (w.graphOf seen) (w.graphOf all) := by
  induction h with
  | done => exact .done
  | @skip m agenda seen all hm _ ih =>
    have hadd := CallGraph.addReachable_of_mem (mem_reachable_graphOf (w := w).mpr hm)
    exact .skip (by rw [hadd]) (by rwa [hadd])
  | @expand m agenda seen all hm _ ih =>
    refine .expand ?_ (follows_calls hw m) ?_
    · simp [CallGraph.addReachable_fst, mem_reachable_graphOf, hm]
    · rw [← graphOf_concat]
      exact ih

/-- The building of the graph comes to an end. -/
theorem builds_iff {g : CallGraph StmtId MethodId} :
    w.Builds [w.entry] (CallGraph.empty.addEntry w.entry) g ↔ g = w.hierarchyGraph := by
  have hbuilds : w.Builds [w.entry] (CallGraph.empty.addEntry w.entry) w.hierarchyGraph :=
    builds_of_visits hw (Walk.visits_breadthFirst w.hierarchyCalls w.entry)
  exact ⟨fun h => h.det hw hbuilds, fun h => h ▸ hbuilds⟩

end

end World

/-- **The graph of the class hierarchy.** For a valid program the building of the graph ends, and so does
the search for the targets of each call. The graph lists once each, and only, the methods that are called
from the entry, and for these the edges from their calls to all targets. -/
theorem hierarchyGraph_exact {p : Program} {heap : Heap} {w : World} (hw : World.withHeap p heap = .ok w) :
    (∀ g, w.Builds [w.entry] (CallGraph.empty.addEntry w.entry) g ↔ g = w.hierarchyGraph) ∧
    (∀ call ts, w.hierarchy.Resolves call ts ↔ ts = w.hierarchy.targets call) ∧
    w.hierarchyGraph.reachable.toList.Nodup ∧
    (∀ m, m ∈ w.hierarchyGraph.reachable.toList ↔ w.Called m) ∧
    w.hierarchyGraph.edges.toList.Nodup ∧
    ∀ e, e ∈ w.hierarchyGraph.edges.toList ↔ w.Called e.caller ∧ e.site.method = e.caller ∧
      ∃ call, w.program.stmt? e.site = some (.invoke call) ∧ e.kind = .ofCall call.kind ∧
        e.callee ∈ w.hierarchy.targets call := by
  have hvalid := World.valid_of_withHeap hw
  have hcalled : ∀ m, m ∈ w.hierarchyReachable ↔ w.Called m := fun m =>
    World.mem_hierarchyReachable.trans World.called_iff.symm
  refine ⟨fun g => World.builds_iff hvalid, fun call ts => World.resolves_iff hvalid, Table.nodup_toList _,
    fun m => ?_, Table.nodup_toList _, fun e => ?_⟩
  · rw [← CallGraph.isReachable_iff, World.isReachable_hierarchyGraph, hcalled]
  · rw [← CallGraph.hasEdge_iff, World.hasEdge_hierarchyGraph, hcalled, World.mem_hierarchyEdges]
    simp only [true_and]

/-- The main method may draw a shape by the method of the square's base. -/
theorem hierarchyGraph_exact_shapes :
    World.withHeap (Shapes.program 1) (.perSite (Shapes.program 1)) = .ok (Shapes.world 1) ∧
    ∃ g, (Shapes.world 1).Builds [⟨0⟩] (CallGraph.empty.addEntry ⟨0⟩) g ∧ ⟨2⟩ ∈ g.reachable.toList ∧
      Shapes.drawEdge ∈ g.edges.toList := by
  have hworld := Shapes.world_eq 1
  obtain ⟨hbuilds, _, _, hreachable, _, hedges⟩ := hierarchyGraph_exact hworld
  have hs : (Shapes.world 1).program.stmt? ⟨⟨0⟩, 1⟩ = some (.invoke (Shapes.drawCall 1)) := rfl
  have hmain : (Shapes.world 1).Called ⟨0⟩ := .entry
  have hdraw := Shapes.mem_targets_draw
  exact ⟨hworld, _, (hbuilds _).mpr rfl, (hreachable _).mpr (.call hmain hs hdraw),
    (hedges _).mpr ⟨hmain, rfl, Shapes.drawCall 1, hs, rfl, hdraw⟩⟩

end PointsTo
