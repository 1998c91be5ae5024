import Mathlib.Data.List.Induction
import PointsTo.CallGraph.Diagram
import PointsTo.Proofs.CallGraphs

/-!
# Views of a call graph

However a call graph has grown, its tables hold what was added, each item once
and in the order of first arrival. The edges of a call site or of a callee are
those of the whole graph, and the diagram has one node for each method and one
arrow for each link between two methods.
-/

namespace PointsTo

namespace Table
variable {α : Type} [DecidableEq α] [Hashable α] {t : Table α} {x y : α}

theorem get?_find? (hx : x ∈ t.toList) : t.get? ((t.find? x).getD 0) = some x := by
  obtain ⟨i, hi⟩ := mem_toList.mp hx
  rw [find?_eq_some.mpr hi]
  exact hi

theorem find?_inj (hx : x ∈ t.toList) (hy : y ∈ t.toList) (h : (t.find? x).getD 0 = (t.find? y).getD 0) :
    x = y := by
  have hget := get?_find? hx
  rw [h, get?_find? hy] at hget
  exact (Option.some.inj hget).symm

end Table

namespace CallGraph

inductive Growth (σ μ : Type)
  | entry (m : μ)
  | reachable (m : μ)
  | edge (e : Edge σ μ)

namespace Growth
variable {σ μ : Type}

def entry? : Growth σ μ → Option μ
  | .entry m => some m
  | _ => none

def reachable? : Growth σ μ → Option μ
  | .reachable m => some m
  | _ => none

def edge? : Growth σ μ → Option (Edge σ μ)
  | .edge e => some e
  | _ => none

end Growth

variable {σ μ : Type} [DecidableEq σ] [Hashable σ] [DecidableEq μ] [Hashable μ]

def grow (g : CallGraph σ μ) : Growth σ μ → CallGraph σ μ
  | .entry m => g.addEntry m
  | .reachable m => (g.addReachable m).2
  | .edge e => (g.addEdge e).2

def grown (steps : List (Growth σ μ)) : CallGraph σ μ := steps.foldl grow empty

theorem grown_concat (steps : List (Growth σ μ)) (step : Growth σ μ) :
    grown (steps ++ [step]) = (grown steps).grow step := List.foldl_concat ..

/-! ## The tables and the indexes -/

structure Follows (g : CallGraph σ μ) (steps : List (Growth σ μ)) : Prop where
  entries : g.entries.toList = (steps.filterMap Growth.entry?).eraseDups
  reachable : g.reachable.toList = (steps.filterMap Growth.reachable?).eraseDups
  edges : g.edges.toList = (steps.filterMap Growth.edge?).eraseDups
  out : ∀ s, g.edgesOutOf s = g.edges.toList.filter (·.site = s)
  into : ∀ m, g.edgesInto m = g.edges.toList.filter (·.callee = m)

variable {g : CallGraph σ μ} {steps : List (Growth σ μ)}

theorem follows_empty : (empty : CallGraph σ μ).Follows [] := by
  constructor <;> simp [empty, edgesOutOf, edgesInto]

theorem filter_insert (P : Edge σ μ → Prop) [DecidablePred P] (e : Edge σ μ) :
    (g.edges.insert e).2.toList.filter (P ·) =
      g.edges.toList.filter (P ·) ++ if P e ∧ e ∉ g.edges.toList then [e] else [] := by
  rw [Table.toList_insert]
  by_cases he : e ∈ g.edges.toList
  · simp [he]
  · by_cases hP : P e <;> simp [he, hP]

theorem filterMap_concat {α β : Type} {f : α → Option β} {a : α} (ha : f a = none) (l : List α) :
    (l ++ [a]).filterMap f = l.filterMap f := by
  simp [ha]

theorem Follows.grow (h : g.Follows steps) (step : Growth σ μ) : (g.grow step).Follows (steps ++ [step]) := by
  cases step with
  | entry m =>
    refine ⟨?_, ?_, ?_, h.out, h.into⟩
    · rw [List.filterMap_append]
      exact Table.insert_eraseDups h.entries m
    · rw [filterMap_concat rfl]
      exact h.reachable
    · rw [filterMap_concat rfl]
      exact h.edges
  | reachable m =>
    refine ⟨?_, ?_, ?_, h.out, h.into⟩
    · rw [filterMap_concat rfl]
      exact h.entries
    · rw [List.filterMap_append]
      exact Table.insert_eraseDups h.reachable m
    · rw [filterMap_concat rfl]
      exact h.edges
  | edge e =>
    rw [CallGraph.grow]
    refine ⟨?_, ?_, ?_, fun s => ?_, fun m => ?_⟩
    · rw [addEdge_entries, filterMap_concat rfl, h.entries]
    · rw [addEdge_reachable, filterMap_concat rfl, h.reachable]
    · rw [addEdge_edges, List.filterMap_append]
      exact Table.insert_eraseDups h.edges e
    · rw [edgesOutOf_addEdge, addEdge_edges, filter_insert, h.out]
    · rw [edgesInto_addEdge, addEdge_edges, filter_insert, h.into]

theorem follows_grown (steps : List (Growth σ μ)) : (grown steps).Follows steps := by
  induction steps using List.reverseRecOn with
  | nil => exact follows_empty
  | append_singleton steps step ih =>
    rw [grown_concat]
    exact ih.grow step

/-! ## The diagram -/

section
variable (g : CallGraph σ μ)

variable {g} in
theorem mem_links {a b : μ} {kind : EdgeKind} : (a, b, kind) ∈ g.links ↔
    ∃ e ∈ g.edges.toList, e.caller = a ∧ e.callee = b ∧ e.kind = kind := by
  unfold links
  rw [Table.mem_ofList, List.mem_map]
  simp only [Prod.mk.injEq]

theorem nodes_eq : g.diagram.nodes =
    g.links.foldl (fun nodes l => ((nodes.insert l.1).2.insert l.2.1).2) g.reachable := rfl

theorem arrows_eq : g.diagram.arrows = g.links.map fun l =>
    ((g.diagram.nodes.find? l.1).getD 0, (g.diagram.nodes.find? l.2.1).getD 0, l.2.2) := rfl

theorem prefix_nodes : g.reachable.toList <+: g.diagram.nodes.toList := by
  have hfold : ∀ (links : List (μ × μ × EdgeKind)) (t : Table μ),
      t.toList <+: (links.foldl (fun nodes l => ((nodes.insert l.1).2.insert l.2.1).2) t).toList := by
    intro links
    induction links with
    | nil => exact fun t => List.prefix_rfl
    | cons l links ih =>
      exact fun t => ((Table.prefix_insert t l.1).trans (Table.prefix_insert _ l.2.1)).trans (ih _)
  rw [nodes_eq]
  exact hfold g.links g.reachable

variable {g}

theorem mem_nodes {m : μ} : m ∈ g.diagram.nodes.toList ↔
    m ∈ g.reachable.toList ∨ ∃ e ∈ g.edges.toList, e.caller = m ∨ e.callee = m := by
  have hends : m ∈ g.diagram.nodes.toList ↔ m ∈ g.reachable.toList ∨ ∃ l ∈ g.links, m = l.1 ∨ m = l.2.1 := by
    rw [nodes_eq]
    refine foldl_gather (P := fun (t : Table μ) m => m ∈ t.toList)
      (R := fun l m => m = l.1 ∨ m = l.2.1) (fun t l m => ?_) m g.links g.reachable
    rw [Table.mem_insert, Table.mem_insert, or_assoc]
  rw [hends]
  refine or_congr_right ⟨?_, ?_⟩
  · rintro ⟨⟨a, b, kind⟩, hl, hm⟩
    obtain ⟨e, he, rfl, rfl, _⟩ := mem_links.mp hl
    exact ⟨e, he, hm.imp Eq.symm Eq.symm⟩
  · rintro ⟨e, he, hm⟩
    exact ⟨_, mem_links.mpr ⟨e, he, rfl, rfl, rfl⟩, hm.imp Eq.symm Eq.symm⟩

theorem ends_mem_nodes {l : μ × μ × EdgeKind} (hl : l ∈ g.links) :
    l.1 ∈ g.diagram.nodes.toList ∧ l.2.1 ∈ g.diagram.nodes.toList := by
  obtain ⟨a, b, kind⟩ := l
  obtain ⟨e, he, ha, hb, _⟩ := mem_links.mp hl
  exact ⟨mem_nodes.mpr (Or.inr ⟨e, he, Or.inl ha⟩), mem_nodes.mpr (Or.inr ⟨e, he, Or.inr hb⟩)⟩

theorem mem_arrows {i j : Nat} {kind : EdgeKind} : (i, j, kind) ∈ g.diagram.arrows ↔
    ∃ e ∈ g.edges.toList, g.diagram.nodes.get? i = some e.caller ∧
      g.diagram.nodes.get? j = some e.callee ∧ e.kind = kind := by
  rw [arrows_eq, List.mem_map]
  constructor
  · rintro ⟨⟨a, b, kind'⟩, hl, harrow⟩
    obtain ⟨rfl, rfl, rfl⟩ : _ ∧ _ ∧ kind' = kind := by simpa using harrow
    obtain ⟨ha, hb⟩ := ends_mem_nodes hl
    obtain ⟨e, he, rfl, rfl, rfl⟩ := mem_links.mp hl
    exact ⟨e, he, Table.get?_find? ha, Table.get?_find? hb, rfl⟩
  · rintro ⟨e, he, hi, hj, rfl⟩
    refine ⟨_, mem_links.mpr ⟨e, he, rfl, rfl, rfl⟩, ?_⟩
    rw [Table.find?_eq_some.mpr hi, Table.find?_eq_some.mpr hj]
    rfl

/-- Links with the same places have the same ends. -/
theorem nodup_arrows : g.diagram.arrows.Nodup := by
  rw [arrows_eq]
  refine List.Nodup.map_on (fun l hl l' hl' heq => ?_) (Table.nodup_toList _)
  obtain ⟨hfst, hsnd⟩ := Prod.mk.inj heq
  obtain ⟨hsnd, hkind⟩ := Prod.mk.inj hsnd
  obtain ⟨ha, hb⟩ := ends_mem_nodes hl
  obtain ⟨ha', hb'⟩ := ends_mem_nodes hl'
  exact Prod.ext (Table.find?_inj ha ha' hfst) (Prod.ext (Table.find?_inj hb hb' hsnd) hkind)

end

/-- **Views of a grown call graph.** Its tables have what was added, each item once and in the order of
first arrival, and additions and questions are answered by them. The edges of a site or a callee are those
of the graph, in their order. The diagram has a node for each method that is reachable or an end of an
edge, the reachable ones first, and an arrow for each caller, callee and kind of an edge. -/
theorem grown_views_exact (steps : List (Growth σ μ)) :
    let g := grown steps
    (g.entries.toList = (steps.filterMap Growth.entry?).eraseDups ∧
      g.reachable.toList = (steps.filterMap Growth.reachable?).eraseDups ∧
      g.edges.toList = (steps.filterMap Growth.edge?).eraseDups) ∧
    (g.entries.toList.Nodup ∧ g.reachable.toList.Nodup ∧ g.edges.toList.Nodup) ∧
    ((∀ m, (g.addReachable m).1 = true ↔ m ∉ g.reachable.toList) ∧
      ∀ e, (g.addEdge e).1 = true ↔ e ∉ g.edges.toList) ∧
    ((∀ m, g.isReachable m = true ↔ m ∈ g.reachable.toList) ∧
      ∀ e, g.hasEdge e = true ↔ e ∈ g.edges.toList) ∧
    ((∀ s, g.edgesOutOf s = g.edges.toList.filter (·.site = s)) ∧
      ∀ m, g.edgesInto m = g.edges.toList.filter (·.callee = m)) ∧
    (g.diagram.nodes.toList.Nodup ∧ g.reachable.toList <+: g.diagram.nodes.toList ∧
      ∀ m, m ∈ g.diagram.nodes.toList ↔
        m ∈ g.reachable.toList ∨ ∃ e ∈ g.edges.toList, e.caller = m ∨ e.callee = m) ∧
    g.diagram.arrows.Nodup ∧
      ∀ i j kind, (i, j, kind) ∈ g.diagram.arrows ↔ ∃ e ∈ g.edges.toList,
        g.diagram.nodes.toList[i]? = some e.caller ∧ g.diagram.nodes.toList[j]? = some e.callee ∧
          e.kind = kind := by
  intro g
  have h : g.Follows steps := follows_grown steps
  refine ⟨⟨h.entries, h.reachable, h.edges⟩,
    ⟨Table.nodup_toList _, Table.nodup_toList _, Table.nodup_toList _⟩, ⟨fun m => ?_, fun e => ?_⟩,
    ⟨fun m => isReachable_iff, fun e => hasEdge_iff⟩, ⟨h.out, h.into⟩,
    ⟨Table.nodup_toList _, g.prefix_nodes, fun m => mem_nodes⟩, nodup_arrows, fun i j kind => ?_⟩
  · rw [addReachable_fst, decide_eq_true_iff]
  · rw [addEdge_fst, decide_eq_true_iff]
  · rw [mem_arrows, Table.get?_eq, Table.get?_eq]

end CallGraph

end PointsTo
