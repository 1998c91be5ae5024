import PointsTo.CallGraph.ByHierarchy
import PointsTo.Proofs.Subtypes

/-!
# The contents of call graphs

A call graph is compared by its reachable methods and its edges, in whatever
order they have arrived. The graph of the class hierarchy has the methods that
its edges lead to from the entry, and all edges of these methods.
-/

namespace PointsTo

/-- What a fold collects: what was there, and what each item adds. -/
theorem foldl_gather {α β γ : Type} {f : β → α → β} {P : β → γ → Prop} {R : α → γ → Prop}
    (h : ∀ b a x, P (f b a) x ↔ P b x ∨ R a x) (x : γ) :
    ∀ (l : List α) (b : β), P (l.foldl f b) x ↔ P b x ∨ ∃ a ∈ l, R a x
  | [], b => by simp
  | a :: l, b => by
    rw [List.foldl_cons, foldl_gather h x l, h, or_assoc]
    simp

namespace Table
variable {α : Type} [DecidableEq α] [Hashable α]

theorem contains_iff {t : Table α} {x : α} : t.contains x = true ↔ x ∈ t.toList := by
  unfold contains
  rw [Std.HashMap.contains_eq_isSome_getElem?, Option.isSome_iff_ne_none, ne_eq, index_eq_none, not_not]

/-- A table of a list has the first of each item. -/
theorem toList_ofList (xs : List α) : (ofList xs).toList = xs.eraseDups := by
  have hfold : ∀ (xs l : List α) (t : Table α), t.toList = l.eraseDups →
      (xs.foldl (fun t x => (t.insert x).2) t).toList = (l ++ xs).eraseDups := by
    intro xs
    induction xs with
    | nil => exact fun l t ht => by rw [List.append_nil]; exact ht
    | cons x xs ih =>
      intro l t ht
      rw [List.foldl_cons, ih _ _ (insert_eraseDups ht x), List.append_assoc]
      rfl
  exact hfold xs [] empty rfl

theorem mem_ofList {xs : List α} {x : α} : x ∈ (ofList xs).toList ↔ x ∈ xs := by
  rw [toList_ofList, List.mem_eraseDups]

end Table

namespace CallGraph

section
variable {σ μ : Type} [DecidableEq σ] [Hashable σ] [DecidableEq μ] [Hashable μ]

theorem hasEdge_iff {g : CallGraph σ μ} {e : Edge σ μ} : g.hasEdge e = true ↔ e ∈ g.edges.toList :=
  Table.contains_iff

theorem isReachable_iff {g : CallGraph σ μ} {m : μ} : g.isReachable m = true ↔ m ∈ g.reachable.toList :=
  Table.contains_iff

structure Within (g g' : CallGraph σ μ) : Prop where
  reachable : ∀ m, g.isReachable m = true → g'.isReachable m = true
  edges : ∀ e, g.hasEdge e = true → g'.hasEdge e = true

variable {α : Type} (l : List α) (g : CallGraph σ μ)

theorem isReachable_foldl_addReachable (f : α → μ) (m : μ) :
    (l.foldl (fun g a => (g.addReachable (f a)).2) g).isReachable m = true ↔
      g.isReachable m = true ∨ ∃ a ∈ l, f a = m := by
  refine foldl_gather (P := fun g m => g.isReachable m = true) (fun g a m => ?_) m l g
  rw [isReachable_iff, isReachable_iff, addReachable_reachable, Table.mem_insert, eq_comm]

theorem isReachable_foldl_addEdge (f : α → Edge σ μ) (m : μ) :
    (l.foldl (fun g a => (g.addEdge (f a)).2) g).isReachable m = true ↔ g.isReachable m = true := by
  induction l generalizing g with
  | nil => rfl
  | cons a l ih => rw [List.foldl_cons, ih, isReachable_iff, isReachable_iff, addEdge_reachable]

theorem hasEdge_foldl_addEdge (f : α → Edge σ μ) (e : Edge σ μ) :
    (l.foldl (fun g a => (g.addEdge (f a)).2) g).hasEdge e = true ↔
      g.hasEdge e = true ∨ ∃ a ∈ l, f a = e := by
  refine foldl_gather (P := fun g e => g.hasEdge e = true) (fun g a e => ?_) e l g
  rw [hasEdge_iff, hasEdge_iff, addEdge_edges, Table.mem_insert, eq_comm]

theorem hasEdge_foldl_addReachable (f : α → μ) (e : Edge σ μ) :
    (l.foldl (fun g a => (g.addReachable (f a)).2) g).hasEdge e = true ↔ g.hasEdge e = true := by
  induction l generalizing g with
  | nil => rfl
  | cons a l ih => exact ih _

theorem foldl_addEntry (f : α → μ) : (l.foldl (fun g a => g.addEntry (f a)) g).reachable = g.reachable ∧
    (l.foldl (fun g a => g.addEntry (f a)) g).edges = g.edges := by
  induction l generalizing g with
  | nil => exact ⟨rfl, rfl⟩
  | cons a l ih => exact ih _

end

/-! ## Other names -/

section
variable {σ μ σ' μ' : Type} [DecidableEq σ] [Hashable σ] [DecidableEq μ] [Hashable μ] [DecidableEq σ']
  [Hashable σ'] [DecidableEq μ'] [Hashable μ']
variable {g : CallGraph σ μ} {site : σ → σ'} {method : μ → μ'}

theorem isReachable_map {m : μ'} : (g.map site method).isReachable m = true ↔
    ∃ i ∈ g.reachable.toList, method i = m := by
  unfold map
  rw [isReachable_foldl_addEdge, isReachable_foldl_addReachable, isReachable_iff, (foldl_addEntry _ _ _).1]
  simp [empty]

theorem hasEdge_map {e : Edge σ' μ'} : (g.map site method).hasEdge e = true ↔
    ∃ i ∈ g.edges.toList, ⟨i.kind, method i.caller, site i.site, method i.callee⟩ = e := by
  unfold map
  rw [hasEdge_foldl_addEdge, hasEdge_foldl_addReachable, hasEdge_iff, (foldl_addEntry _ _ _).2]
  simp [empty]

end

end CallGraph

/-! ## The graph of the class hierarchy -/

def CallKind.dispatches : CallKind → Bool
  | .static | .special => false
  | .virtual | .interface | .dynamic => true

theorem CallKind.dispatches_iff {k : CallKind} :
    k.dispatches = true ↔ k = .virtual ∨ k = .interface ∨ k = .dynamic := by
  cases k <;> simp [dispatches]

namespace Hierarchy

section
variable {h : Hierarchy} {call : Call} {m : MethodId}

/-- Any other call has one target, whatever its receiver. -/
theorem targets_of_not_dispatches (hk : call.kind.dispatches = false) :
    ∃ o, h.targets call = o.toList ∧ ∀ type, h.callee? type call = .ok o := by
  unfold targets callee?
  cases hkind : call.kind with
  | static => exact ⟨_, rfl, fun _ => rfl⟩
  | special => exact ⟨_, rfl, fun _ => rfl⟩
  | _ => rw [hkind] at hk; cases hk

section
variable (hk : call.kind.dispatches = true)
include hk

theorem callee?_of_dispatches (c : ClassId) :
    h.callee? (some c) call = .ok (h.dispatch? c call.target.subsignature) := by
  unfold callee?
  obtain hkind | hkind | hkind := CallKind.dispatches_iff.mp hk <;> simp only [hkind]

theorem callee?_none_of_dispatches (o : Option MethodId) : h.callee? none call ≠ .ok o := by
  unfold callee?
  obtain hkind | hkind | hkind := CallKind.dispatches_iff.mp hk <;> simp [hkind]

theorem targets_of_dispatches : h.targets call =
    if call.kind = .dynamic ∧ call.receiver = none then []
    else (Table.ofList ((h.subtypes call.target.cls).filterMap fun c =>
      h.dispatch? c call.target.subsignature)).toList := by
  unfold targets
  obtain hkind | hkind | hkind := CallKind.dispatches_iff.mp hk <;> simp only [hkind]

theorem mem_targets : m ∈ h.targets call ↔ (call.kind = .dynamic → call.receiver ≠ none) ∧
    ∃ c ∈ h.subtypes call.target.cls, h.dispatch? c call.target.subsignature = some m := by
  rw [targets_of_dispatches hk]
  by_cases hd : call.kind = .dynamic ∧ call.receiver = none
  · simp [hd]
  · rw [if_neg hd, Table.mem_ofList, List.mem_filterMap, and_iff_right (not_and.mp hd)]

end

/-- What a call comes to on some subtype of the class it names is among its targets. -/
theorem mem_targets_of_callee {type : Option ClassId} (hm : h.callee? type call = .ok (some m))
    (hr : call.kind = .dynamic → call.receiver ≠ none)
    (ht : ∀ c, type = some c → call.kind.dispatches = true → c ∈ h.subtypes call.target.cls) :
    m ∈ h.targets call := by
  by_cases hk : call.kind.dispatches = true
  · cases type with
    | none => exact absurd hm (callee?_none_of_dispatches hk _)
    | some c =>
      rw [callee?_of_dispatches hk] at hm
      exact (mem_targets hk).mpr ⟨hr, c, ht c rfl hk, Except.ok.inj hm⟩
  · obtain ⟨o, htargets, hcallee⟩ := targets_of_not_dispatches (h := h) (Bool.eq_false_iff.mpr hk)
    cases Except.ok.inj (hm.symm.trans (hcallee type))
    rw [htargets]
    exact Option.mem_toList.mpr rfl

theorem nodup_targets (h : Hierarchy) (call : Call) : (h.targets call).Nodup := by
  by_cases hk : call.kind.dispatches = true
  · rw [targets_of_dispatches hk]
    split
    · exact List.nodup_nil
    · exact Table.nodup_toList _
  · obtain ⟨o, htargets, _⟩ := targets_of_not_dispatches (h := h) (Bool.eq_false_iff.mpr hk)
    rw [htargets]
    cases o with
    | none => exact List.nodup_nil
    | some m => exact List.nodup_singleton m

end

section
variable {p : Program}

theorem mem_targets_known {call : Call} {m : MethodId} (hm : m ∈ (ofProgram p).targets call) :
    ∃ method, p.method? m = some method := by
  by_cases hk : call.kind.dispatches = true
  · obtain ⟨_, c, _, hd⟩ := (mem_targets hk).mp hm
    obtain ⟨method, hmethod, _⟩ := dispatch?_spec hd
    exact ⟨method, hmethod⟩
  · obtain ⟨o, htargets, hcallee⟩ :=
      targets_of_not_dispatches (h := ofProgram p) (Bool.eq_false_iff.mpr hk)
    rw [htargets] at hm
    cases Option.mem_toList.mp hm
    obtain ⟨method, hmethod, _⟩ := callee?_spec (hcallee none)
    exact ⟨method, hmethod⟩

end

end Hierarchy

namespace World
variable {w : World}

theorem mem_calls {m : MethodId} {site : StmtId} {call : Call} :
    (site, call) ∈ w.calls m ↔ site.method = m ∧ w.program.stmt? site = some (.invoke call) := by
  unfold calls
  rw [List.mem_filterMap, ← Program.mem_body]
  constructor
  · intro h
    obtain ⟨⟨site', st⟩, hb, hs⟩ := h
    cases st with
    | invoke call' =>
      cases hs
      exact hb
    | _ => cases hs
  · intro h
    exact ⟨_, h, rfl⟩

theorem mem_hierarchyEdges {m : MethodId} {e : Edge StmtId MethodId} : e ∈ w.hierarchyEdges m ↔
    e.caller = m ∧ e.site.method = m ∧ ∃ call, w.program.stmt? e.site = some (.invoke call) ∧
      e.kind = .ofCall call.kind ∧ e.callee ∈ w.hierarchy.targets call := by
  unfold hierarchyEdges
  rw [List.mem_flatMap]
  constructor
  · intro h
    obtain ⟨⟨site, call⟩, hc, he⟩ := h
    obtain ⟨callee, ht, rfl⟩ := List.mem_map.mp he
    obtain ⟨hm, hs⟩ := mem_calls.mp hc
    exact ⟨rfl, hm, call, hs, rfl, ht⟩
  · intro h
    obtain ⟨hcaller, hm, call, hs, hk, ht⟩ := h
    refine ⟨(e.site, call), mem_calls.mpr ⟨hm, hs⟩, List.mem_map.mpr ⟨e.callee, ht, ?_⟩⟩
    rw [← hk, ← hcaller]

theorem mem_hierarchyReachable {m : MethodId} : m ∈ w.hierarchyReachable ↔
    Walk.Leads (fun m => (w.hierarchyEdges m).map (·.callee)) w.entry m := Walk.mem_breadthFirst

theorem entry_mem_hierarchyReachable (w : World) : w.entry ∈ w.hierarchyReachable :=
  mem_hierarchyReachable.mpr .refl

theorem callee_mem_hierarchyReachable {e : Edge StmtId MethodId} (hr : e.caller ∈ w.hierarchyReachable)
    (he : e ∈ w.hierarchyEdges e.caller) : e.callee ∈ w.hierarchyReachable :=
  mem_hierarchyReachable.mpr ((mem_hierarchyReachable.mp hr).tail (List.mem_map_of_mem he))

theorem isReachable_hierarchyGraph {m : MethodId} :
    w.hierarchyGraph.isReachable m = true ↔ m ∈ w.hierarchyReachable := by
  unfold hierarchyGraph
  rw [CallGraph.isReachable_foldl_addEdge, CallGraph.isReachable_foldl_addReachable]
  simp [CallGraph.isReachable_iff, CallGraph.addEntry, CallGraph.empty]

theorem hasEdge_hierarchyGraph {e : Edge StmtId MethodId} :
    w.hierarchyGraph.hasEdge e = true ↔ e.caller ∈ w.hierarchyReachable ∧ e ∈ w.hierarchyEdges e.caller := by
  unfold hierarchyGraph
  rw [CallGraph.hasEdge_foldl_addEdge, CallGraph.hasEdge_foldl_addReachable]
  simp only [CallGraph.hasEdge_iff, List.mem_flatMap]
  constructor
  · intro h
    obtain he | ⟨e, ⟨m, hm, he⟩, rfl⟩ := h
    · cases he
    · rw [(mem_hierarchyEdges.mp he).1]
      exact ⟨hm, he⟩
  · intro h
    exact Or.inr ⟨e, ⟨e.caller, h⟩, rfl⟩

end World

end PointsTo
