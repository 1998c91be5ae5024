import Mathlib.Algebra.GroupWithZero.Nat
import Mathlib.Data.List.Nodup
import PointsTo.CallGraph.Basic
import PointsTo.FlowGraph
import PointsTo.ObjSet

/-!
# Laws of tables, sets and graphs

A table is its list of items: each item stands there once, and both ways of
adding one append it if it is new. A flow graph is its lists of successors, a
call graph its tables of methods and edges.
-/

namespace PointsTo

/-- A sum in which one summand has grown. -/
theorem sum_map_add {α : Type} {f g : α → Nat} {a : α} {k : Nat} : ∀ {l : List α}, l.Nodup → a ∈ l →
    g a = f a + k → (∀ b, b ≠ a → g b = f b) → (l.map g).sum = (l.map f).sum + k
  | b :: l, hl, ha, hk, hf => by
    rw [List.nodup_cons] at hl
    rw [List.map_cons, List.map_cons, List.sum_cons, List.sum_cons]
    rcases List.mem_cons.mp ha with rfl | ha
    · have : l.map g = l.map f := List.map_congr_left fun b hb => hf b fun he => hl.1 (he ▸ hb)
      rw [this, hk]; omega
    · rw [sum_map_add hl.2 ha hk hf, hf b fun he => hl.1 (he ▸ ha)]; omega

/-- One more item counts only if it is new. -/
theorem eraseDups_concat {α : Type} [DecidableEq α] (l : List α) (a : α) :
    (l ++ [a]).eraseDups = if a ∈ l.eraseDups then l.eraseDups else l.eraseDups ++ [a] := by
  rw [List.eraseDups_append]
  by_cases ha : a ∈ l <;> simp [List.removeAll, List.eraseDups_cons, ha]

/-- An index of lists in which one list has grown at its end. -/
theorem toList_getD_alter_push {κ β : Type} [DecidableEq κ] [Hashable κ] (index : Std.HashMap κ (Array β))
    (k k' : κ) (b : β) :
    ((index.alter k fun old => some ((old.getD #[]).push b)).getD k' #[]).toList =
      (index.getD k' #[]).toList ++ if k = k' then [b] else [] := by
  rw [Std.HashMap.getD_alter]
  by_cases hk : k = k'
  · subst hk
    simp [Std.HashMap.getD_eq_getD_getElem?]
  · simp [hk]

namespace Table
variable {α : Type} [DecidableEq α] [Hashable α]

theorem size_eq (t : Table α) : t.size = t.toList.length := by
  unfold size toList
  rw [Array.length_toList]

theorem get?_inj {t : Table α} {i j : Nat} {x : α} (hi : t.get? i = some x) (hj : t.get? j = some x) :
    i = j := by
  have a := find?_eq_some.mpr hi
  have b := find?_eq_some.mpr hj
  rw [a] at b; exact Option.some.inj b

theorem nodup_toList (t : Table α) : t.toList.Nodup := by
  rw [List.nodup_iff_getElem?_ne_getElem?]
  intro i j hij hj he
  have h₁ : t.toList[i]? = some t.toList[i] := List.getElem?_eq_getElem (by omega)
  have h₂ : t.toList[j]? = some t.toList[i] := by rw [← he, h₁]
  rw [← get?_eq] at h₁ h₂
  exact absurd (get?_inj h₁ h₂) (by omega)

theorem mem_insert {t : Table α} {x y : α} : y ∈ (t.insert x).2.toList ↔ y ∈ t.toList ∨ y = x := by
  rw [toList_insert]
  split
  · rename_i hx
    exact ⟨Or.inl, fun h => h.elim id fun he => he ▸ hx⟩
  · rw [List.mem_append, List.mem_singleton]

theorem prefix_insert (t : Table α) (x : α) : t.toList <+: (t.insert x).2.toList := by
  rw [toList_insert]
  split
  · exact List.prefix_rfl
  · exact List.prefix_append _ _

theorem toList_intern (t : Table α) (x : α) :
    (t.intern x).2.toList = if x ∈ t.toList then t.toList else t.toList ++ [x] := by
  unfold intern
  split
  · rename_i i h
    rw [if_pos (mem_toList.mpr ⟨i, find?_eq_some.mp h⟩)]
  · rename_i h
    rw [if_neg (index_eq_none.mp h)]
    simp [toList]

theorem get?_intern_self (t : Table α) (x : α) : (t.intern x).2.get? (t.intern x).1 = some x := by
  unfold intern
  split
  · rename_i i h
    exact find?_eq_some.mp h
  · simp [get?]

/-- As long as the table stays within `2 ^ 32` items, the place that it gives is the one that is kept. -/
theorem toUInt32_intern {t : Table α} {x : α} (h : (t.intern x).2.size ≤ UInt32.size) :
    (t.intern x).1.toUInt32.toNat = (t.intern x).1 := by
  have hlt : (t.intern x).1 < (t.intern x).2.size := (Array.getElem?_eq_some_iff.mp (get?_intern_self t x)).1
  have hfits : FitsWord (t.intern x).1 := Nat.lt_of_lt_of_le hlt h
  exact hfits.toNat_toUInt32

theorem prefix_intern (t : Table α) (x : α) : t.toList <+: (t.intern x).2.toList := by
  rw [toList_intern]
  split
  · exact List.prefix_rfl
  · exact List.prefix_append _ _

theorem mem_intern {t : Table α} {x y : α} : y ∈ (t.intern x).2.toList ↔ y ∈ t.toList ∨ y = x := by
  rw [toList_intern]
  split
  · rename_i h
    exact ⟨Or.inl, fun h' => h'.elim id fun e => e ▸ h⟩
  · simp

/-- A place that is already given is kept: the table does not change. -/
theorem intern_of_lt {t : Table α} {x : α} (h : (t.intern x).1 < t.size) : (t.intern x).2 = t := by
  unfold intern at h ⊢
  split
  · rfl
  · rename_i hn
    split at h
    · rename_i hs; rw [hn] at hs; cases hs
    · exact absurd h (Nat.lt_irrefl _)

theorem intern_of_not_lt {t : Table α} {x : α} (h : ¬ (t.intern x).1 < t.size) :
    (t.intern x).1 = t.size ∧ (t.intern x).2.toList = t.toList ++ [x] := by
  have hx : x ∉ t.toList := by
    intro hx
    apply h
    obtain ⟨i, hi⟩ := mem_toList.mp hx
    unfold intern
    split
    · rename_i j hj
      exact index_lt hj
    · rename_i hn
      exact absurd hx (index_eq_none.mp hn)
  refine ⟨?_, by rw [toList_intern, if_neg hx]⟩
  unfold intern
  split
  · rename_i i hi
    exact absurd (mem_toList.mpr ⟨i, find?_eq_some.mp hi⟩) hx
  · rfl

/-- A table that lists first arrivals goes on to do so. -/
theorem insert_eraseDups {t : Table α} {l : List α} (h : t.toList = l.eraseDups) (x : α) :
    (t.insert x).2.toList = (l ++ [x]).eraseDups := by
  rw [toList_insert, h, eraseDups_concat]

theorem get?_mono {t t' : Table α} (h : t.toList <+: t'.toList) {i : Nat} {x : α}
    (hi : t.get? i = some x) : t'.get? i = some x := by
  rw [get?_eq] at hi ⊢
  obtain ⟨l, hl⟩ := h
  rw [← hl, List.getElem?_append_left (List.getElem?_eq_some_iff.mp hi).1, hi]

end Table

/-! ## Sets -/

theorem ObjSet.nodup_toList (a : ObjSet) : a.toList.Nodup :=
  a.ascending.imp fun h he => absurd (he ▸ h) (Nat.lt_irrefl _)

/-- A union consists of what was there and what was missing. -/
theorem ObjSet.perm_union (a b : ObjSet) :
    (a.union b).toList.Perm (a.toList ++ (a.missing b).toList) := by
  refine (List.perm_ext_iff_of_nodup (nodup_toList _) ?_).mpr fun o => ?_
  · exact List.nodup_append.mpr ⟨nodup_toList a, nodup_toList _, fun x hx y hy he =>
      (mem_missing.mp (mem_toList.mp hy)).2 (he ▸ hx)⟩
  · rw [List.mem_append]
    simp only [mem_toList, mem_union, mem_missing]
    by_cases ho : o ∈ a <;> simp [ho]

namespace FlowGraph
variable {g : FlowGraph} {p q r : PointerId}

@[simp] theorem successors_empty (p : PointerId) : empty.successors p = [] := by
  simp [empty, successors]

theorem mem_successors : q ∈ g.successors p ↔ (g.targets.getD p #[]).contains q = true := by
  simp [successors]

theorem addEdge_of_mem (h : q ∈ g.successors p) : g.addEdge p q = (false, g) := by
  obtain ⟨targets, nodes, n⟩ := g
  exact if_pos (mem_successors.mp h)

theorem addEdge_of_not_mem (h : q ∉ g.successors p) : g.addEdge p q =
    (true, ⟨g.targets.alter p fun old => some ((old.getD #[]).push q),
      ((g.nodes.insert p).2.insert q).2, g.edgeCount + 1⟩) := by
  obtain ⟨targets, nodes, n⟩ := g
  exact if_neg fun hc => h (mem_successors.mpr hc)

theorem addEdge_fst : (g.addEdge p q).1 = decide (q ∉ g.successors p) := by
  by_cases h : q ∈ g.successors p
  · simp [addEdge_of_mem h, h]
  · simp [addEdge_of_not_mem h, h]

theorem successors_addEdge : (g.addEdge p q).2.successors r =
    if r = p ∧ q ∉ g.successors p then g.successors p ++ [q] else g.successors r := by
  by_cases h : q ∈ g.successors p
  · rw [addEdge_of_mem h, if_neg fun hn => hn.2 h]
  · rw [addEdge_of_not_mem h]
    unfold successors
    rw [toList_getD_alter_push]
    by_cases hr : r = p
    · subst hr
      rw [if_pos rfl]
      exact (if_pos ⟨rfl, h⟩).symm
    · simp [hr, Ne.symm hr]

theorem edgeCount_addEdge : (g.addEdge p q).2.edgeCount =
    g.edgeCount + if q ∈ g.successors p then 0 else 1 := by
  by_cases h : q ∈ g.successors p
  · rw [addEdge_of_mem h, if_pos h]; rfl
  · rw [addEdge_of_not_mem h, if_neg h]

theorem prefix_successors_addEdge : g.successors r <+: (g.addEdge p q).2.successors r := by
  rw [successors_addEdge]
  split
  · rename_i h
    rw [h.1]; exact List.prefix_append _ _
  · exact List.prefix_rfl

theorem prefix_nodes_addEdge : g.nodes.toList <+: (g.addEdge p q).2.nodes.toList := by
  by_cases h : q ∈ g.successors p
  · simp [addEdge_of_mem h]
  · rw [addEdge_of_not_mem h]
    exact (Table.prefix_insert _ _).trans (Table.prefix_insert _ _)

theorem mem_successors_addEdge {x : PointerId} :
    x ∈ (g.addEdge p q).2.successors r ↔ x ∈ g.successors r ∨ r = p ∧ x = q := by
  rw [successors_addEdge]
  by_cases hq : q ∈ g.successors p
  · rw [if_neg fun hn => hn.2 hq]
    refine ⟨Or.inl, fun h => h.elim id ?_⟩
    rintro ⟨rfl, rfl⟩; exact hq
  · by_cases hr : r = p
    · subst hr
      simp [hq]
    · simp [hr]

/-- Edges are counted once each: by any list of the pointers that have some. -/
structure Counted (g : FlowGraph) : Prop where
  nodup : ∀ p, (g.successors p).Nodup
  count : ∀ l : List PointerId, l.Nodup → (∀ p, g.successors p ≠ [] → p ∈ l) →
    g.edgeCount = (l.map fun p => (g.successors p).length).sum

theorem counted_empty : empty.Counted where
  nodup p := by simp
  count l _ _ := by simp [empty, successors]

theorem Counted.addEdge (h : g.Counted) (p q : PointerId) : (g.addEdge p q).2.Counted := by
  by_cases hq : q ∈ g.successors p
  · rw [addEdge_of_mem hq]; exact h
  have hp : (g.addEdge p q).2.successors p = g.successors p ++ [q] := by
    rw [successors_addEdge, if_pos ⟨rfl, hq⟩]
  have hne : ∀ r, r ≠ p → (g.addEdge p q).2.successors r = g.successors r := by
    intro r hr
    rw [successors_addEdge, if_neg fun hn => hr hn.1]
  constructor
  · intro r
    by_cases hr : r = p
    · subst hr
      rw [hp]
      exact List.nodup_append.mpr ⟨h.nodup r, List.nodup_singleton q, fun a ha b hb he =>
        hq (List.mem_singleton.mp hb ▸ he ▸ ha)⟩
    · rw [hne r hr]; exact h.nodup r
  · intro l hl hcover
    have hmem : p ∈ l := hcover p (by simp [hp])
    rw [edgeCount_addEdge, if_neg hq, h.count l hl fun r hr => hcover r ?_]
    · exact (sum_map_add hl hmem (by simp [hp]) fun r hr => by rw [hne r hr]).symm
    · by_cases hrp : r = p
      · simp [hrp, hp]
      · rwa [hne r hrp]

end FlowGraph

namespace CallGraph
variable {σ μ : Type} [DecidableEq σ] [Hashable σ] [DecidableEq μ] [Hashable μ]
variable (g : CallGraph σ μ)

theorem addEdge_fst (e : Edge σ μ) : (g.addEdge e).1 = decide (e ∉ g.edges.toList) := by
  obtain ⟨entries, reachable, edges, out, into⟩ := g
  have h := edges.insert_fst e
  unfold addEdge
  cases hi : edges.insert e with
  | mk new t =>
    rw [hi] at h
    cases new <;> simpa only [hi] using h

theorem addEdge_edges (e : Edge σ μ) : (g.addEdge e).2.edges = (g.edges.insert e).2 := by
  obtain ⟨entries, reachable, edges, out, into⟩ := g
  unfold addEdge
  cases hi : edges.insert e with
  | mk new t => cases new <;> simp only [hi]

theorem addEdge_reachable (e : Edge σ μ) : (g.addEdge e).2.reachable = g.reachable := by
  obtain ⟨entries, reachable, edges, out, into⟩ := g
  unfold addEdge
  cases hi : edges.insert e with
  | mk new t => cases new <;> simp only [hi]

theorem addEdge_entries (e : Edge σ μ) : (g.addEdge e).2.entries = g.entries := by
  obtain ⟨entries, reachable, edges, out, into⟩ := g
  unfold addEdge
  cases hi : edges.insert e with
  | mk new t => cases new <;> simp only [hi]

theorem edgesOutOf_addEdge (e : Edge σ μ) (s : σ) : (g.addEdge e).2.edgesOutOf s =
    g.edgesOutOf s ++ if e.site = s ∧ e ∉ g.edges.toList then [e] else [] := by
  obtain ⟨entries, reachable, edges, out, into⟩ := g
  have h := edges.insert_fst e
  unfold addEdge edgesOutOf
  cases hi : edges.insert e with
  | mk new t =>
    rw [hi] at h
    cases new with
    | false => simp_all
    | true => simp_all [toList_getD_alter_push]

theorem edgesInto_addEdge (e : Edge σ μ) (m : μ) : (g.addEdge e).2.edgesInto m =
    g.edgesInto m ++ if e.callee = m ∧ e ∉ g.edges.toList then [e] else [] := by
  obtain ⟨entries, reachable, edges, out, into⟩ := g
  have h := edges.insert_fst e
  unfold addEdge edgesInto
  cases hi : edges.insert e with
  | mk new t =>
    rw [hi] at h
    cases new with
    | false => simp_all
    | true => simp_all [toList_getD_alter_push]

theorem prefix_edgesOutOf_addEdge (e : Edge σ μ) (s : σ) :
    g.edgesOutOf s <+: (g.addEdge e).2.edgesOutOf s := by
  rw [edgesOutOf_addEdge]
  exact List.prefix_append _ _

theorem prefix_edgesInto_addEdge (e : Edge σ μ) (m : μ) :
    g.edgesInto m <+: (g.addEdge e).2.edgesInto m := by
  rw [edgesInto_addEdge]
  exact List.prefix_append _ _

theorem addReachable_fst (m : μ) : (g.addReachable m).1 = decide (m ∉ g.reachable.toList) :=
  g.reachable.insert_fst m

theorem addReachable_reachable (m : μ) :
    (g.addReachable m).2.reachable = (g.reachable.insert m).2 := rfl

end CallGraph

end PointsTo
