import Mathlib.Data.Set.Card
import PointsTo.Proofs.Renumbering
import PointsTo.Proofs.UnresolvedCalls
import PointsTo.Proofs.Views

/-!
# Counting the calls without a target

A run counts a call without a target wherever it meets one: a call without a
receiver object as soon as its method is reached, and any other call for each
object that its receiver points to. The count is exact, since each method is
interpreted once and each object is learned once by each pointer.
-/

namespace PointsTo

/-! ## Pairs -/

def pairsOf {α β : Type} (l : List α) (f : α → List β) : List (α × β) :=
  l.flatMap fun a => (f a).map (Prod.mk a)

section
variable {α β : Type} {l : List α} {f : α → List β}

theorem mem_pairsOf {x : α × β} : x ∈ pairsOf l f ↔ x.1 ∈ l ∧ x.2 ∈ f x.1 := by
  obtain ⟨a, b⟩ := x
  simp [pairsOf]

theorem length_pairsOf : (pairsOf l f).length = (l.map fun a => (f a).length).sum := by
  simp [pairsOf, List.length_flatMap]

theorem nodup_pairsOf (hl : l.Nodup) (hf : ∀ a, (f a).Nodup) : (pairsOf l f).Nodup := by
  unfold pairsOf
  rw [List.nodup_flatMap]
  refine ⟨fun a _ => (hf a).map (Prod.mk_right_injective a), hl.imp fun hne => ?_⟩
  intro x hx hy
  obtain ⟨_, _, rfl⟩ := List.mem_map.mp hx
  obtain ⟨_, _, he⟩ := List.mem_map.mp hy
  exact hne (Prod.ext_iff.mp he).1.symm

theorem encard_eq_length {P : α → Prop} (hl : l.Nodup) (hP : ∀ a, P a ↔ a ∈ l) :
    {a | P a}.encard = l.length := by
  classical
  have hset : {a | P a} = (l.toFinset : Set α) := by
    ext a
    simp [hP]
  rw [hset, Set.encard_coe_eq_coe_finsetCard, List.toFinset_card_of_nodup hl]

theorem length_filter_eq_one {g : α → Nat} (hg : ∀ a, g a ≤ 1) :
    ∀ l : List α, (l.filter fun a => g a = 1).length = (l.map g).sum
  | [] => rfl
  | a :: l => by
    have ih := length_filter_eq_one hg l
    by_cases ha : g a = 1
    · simp [ha, ih, Nat.add_comm]
    · have hzero : g a = 0 := by have := hg a; omega
      simp [hzero, ih]

end

/-! ## The two kinds of calls -/

/-- No object can make a difference: a static call of a method that its class does not declare, or a call
without a receiver. -/
def Hierarchy.Untargeted (h : Hierarchy) (call : Call) : Prop :=
  call.isStatic = true ∧ h.declaredMethod? call.target.cls call.target.subsignature = none ∨
    call.isStatic = false ∧ call.receiver = none

def World.Unanswered (w : World) (v : VarId) (o : ObjId) (site : StmtId) : Prop :=
  ∃ call obj, w.program.stmt? site = some (.invoke call) ∧ call.receiver = some v ∧
    w.heap.obj? o = some obj ∧ w.hierarchy.callee? (some obj.cls) call = .ok none

theorem missed_le (x : Except Error (Option MethodId)) : missed x ≤ 1 := by
  unfold missed
  split <;> simp

theorem missed_eq_one {x : Except Error (Option MethodId)} : missed x = 1 ↔ x = .ok none := by
  unfold missed
  split
  · simp
  · rename_i hx
    simpa using hx

namespace Task
variable (t : Task)

theorem stmtMisses_le (s : Stmt) : t.stmtMisses s ≤ 1 := by
  unfold stmtMisses
  split
  · split
    · exact missed_le _
    · split <;> simp
  · simp

theorem stmtMisses_eq_one {s : Stmt} :
    t.stmtMisses s = 1 ↔ ∃ call, s = .invoke call ∧ t.world.hierarchy.Untargeted call := by
  unfold Hierarchy.Untargeted
  cases s with
  | invoke call =>
    by_cases hstatic : call.isStatic = true
    · simp [stmtMisses, hstatic, Hierarchy.callee?_of_static, missed_eq_one]
    · simp [stmtMisses, hstatic]
  | _ => simp [stmtMisses]

theorem callMisses_le (o : Instance) (site : StmtId) : t.callMisses o site ≤ 1 := by
  unfold callMisses
  split
  · exact missed_le _
  · simp

theorem callMisses_eq_one {o : Instance} {site : StmtId} {call : Call}
    (hs : t.world.program.stmt? site = some (.invoke call)) : t.callMisses o site = 1 ↔
      ∃ obj, t.world.heap.obj? o.obj = some obj ∧
        t.world.hierarchy.callee? (some obj.cls) call = .ok none := by
  unfold callMisses
  rw [hs]
  cases t.world.heap.obj? o.obj with
  | none => simp [Stmt.call?]
  | some obj => simp [Stmt.call?, missed_eq_one]

/-! ## Where they are -/

def untargetedSites (m : MethodId) : List StmtId :=
  ((t.world.program.body m).filter fun x => t.stmtMisses x.2 = 1).map Prod.fst

def unansweredSites (v : VarId) (o : Instance) : List StmtId :=
  (t.index.accessesOf v).calls.filter fun site => t.callMisses o site = 1

theorem length_untargetedSites (m : MethodId) : (t.untargetedSites m).length = t.frameMisses m := by
  unfold untargetedSites frameMisses
  rw [List.length_map]
  exact length_filter_eq_one (fun x : StmtId × Stmt => t.stmtMisses_le x.2) _

theorem mem_untargetedSites {m : MethodId} {site : StmtId} : site ∈ t.untargetedSites m ↔
    site.method = m ∧ ∃ call, t.world.program.stmt? site = some (.invoke call) ∧
      t.world.hierarchy.Untargeted call := by
  unfold untargetedSites
  rw [List.mem_map]
  constructor
  · intro ⟨⟨_, st⟩, hx, he⟩
    subst he
    obtain ⟨hx, hmiss⟩ := List.mem_filter.mp hx
    obtain ⟨hm, hs⟩ := Program.mem_body.mp hx
    obtain ⟨call, rfl, hcall⟩ := t.stmtMisses_eq_one.mp (of_decide_eq_true hmiss)
    exact ⟨hm, call, hs, hcall⟩
  · intro ⟨hm, call, hs, hcall⟩
    refine ⟨(site, .invoke call), List.mem_filter.mpr ⟨Program.mem_body.mpr ⟨hm, hs⟩, ?_⟩, rfl⟩
    exact decide_eq_true (t.stmtMisses_eq_one.mpr ⟨call, rfl, hcall⟩)

theorem nodup_untargetedSites (m : MethodId) : (t.untargetedSites m).Nodup := by
  unfold untargetedSites List.Nodup
  rw [List.pairwise_map]
  exact ((t.world.program.pairwise_body m).filter _).imp fun hxy => StmtId.Before.ne hxy

theorem length_unansweredSites (v : VarId) (o : Instance) :
    (t.unansweredSites v o).length = t.learnMisses v o :=
  length_filter_eq_one (t.callMisses_le o) _

section
variable {t} (ht : t.Valid)
include ht

theorem mem_unansweredSites {v : VarId} {o : Instance} {site : StmtId} :
    site ∈ t.unansweredSites v o ↔ t.world.Unanswered v o.obj site := by
  unfold unansweredSites
  rw [List.mem_filter, decide_eq_true_eq, AccessIndex.mem_calls ht.index]
  constructor
  · intro ⟨⟨call, hs, hv⟩, hmiss⟩
    obtain ⟨obj, hobj, hcallee⟩ := (t.callMisses_eq_one hs).mp hmiss
    exact ⟨call, obj, hs, hv, hobj, hcallee⟩
  · intro ⟨call, obj, hs, hv, hobj, hcallee⟩
    exact ⟨⟨call, hs, hv⟩, (t.callMisses_eq_one hs).mpr ⟨obj, hobj, hcallee⟩⟩

theorem nodup_unansweredSites (v : VarId) (o : Instance) : (t.unansweredSites v o).Nodup := by
  have hcalls : (t.index.accessesOf v).calls =
      t.world.program.stmts.filterMap fun x => AccessIndex.callOn? v x.1 x.2 := by
    rw [AccessIndex.proj_accessesOf ht.index Accesses.calls (fun _ _ => rfl) rfl,
      List.filterMap_eq_flatMap_toList]
    rfl
  unfold unansweredSites
  refine List.Nodup.filter _ ?_
  rw [hcalls]
  refine (pairwise_filterMap_key (R := StmtId.Before) (g := Prod.fst) (k := id) (fun x y hy => ?_)
    t.world.program.pairwise_stmts).imp fun hxy => StmtId.Before.ne hxy
  exact (AccessIndex.callOn?_eq_some.mp hy).1

end

def sitesIn : Option Frame → List StmtId
  | some f => t.untargetedSites f.method
  | none => []

def sitesAt : Option Cell → Option Instance → List StmtId
  | some (.var _ v), some o => t.unansweredSites v o
  | _, _ => []

theorem length_sitesIn (e : Entities) (m : CSMethodId) :
    (t.sitesIn (e.frameOf? m)).length = t.methodMisses e m := by
  unfold methodMisses
  cases e.frameOf? m with
  | none => rfl
  | some f => exact t.length_untargetedSites f.method

theorem nodup_sitesIn (f : Option Frame) : (t.sitesIn f).Nodup := by
  cases f with
  | none => exact List.nodup_nil
  | some f => exact t.nodup_untargetedSites f.method

theorem length_sitesAt (p : Option Cell) (o : Option Instance) :
    (t.sitesAt p o).length = t.pairMisses p o := by
  cases p with
  | none => rfl
  | some cell =>
    cases o with
    | none => cases cell <;> rfl
    | some x =>
      cases cell with
      | var c v => exact t.length_unansweredSites v x
      | _ => rfl

theorem nodup_sitesAt {t : Task} (ht : t.Valid) (p : Option Cell) (o : Option Instance) :
    (t.sitesAt p o).Nodup := by
  unfold sitesAt
  split
  · exact nodup_unansweredSites ht _ _
  · exact List.nodup_nil

theorem mem_sitesAt {t : Task} (ht : t.Valid) {p : Option Cell} {o : Option Instance} {site : StmtId} :
    site ∈ t.sitesAt p o ↔ ∃ c v x, p = some (.var c v) ∧ o = some x ∧ t.world.Unanswered v x.obj site := by
  unfold sitesAt
  split
  · rw [mem_unansweredSites ht]
    simp
  · rename_i hno
    constructor
    · intro hmem
      cases hmem
    · intro ⟨c, v, x, hp, ho, _⟩
      exact absurd ho (hno c v x hp)

end Task

/-! ## The count -/

section
variable (w : World) (r : Outcome)

def Outcome.Untargeted (x : CSMethodId × StmtId) : Prop :=
  x.1 ∈ r.calls.reachable.toList ∧ (∃ c, r.entities.method? x.1 = some ⟨c, x.2.method⟩) ∧
    ∃ call, w.program.stmt? x.2 = some (.invoke call) ∧ w.hierarchy.Untargeted call

def Outcome.Unanswered (x : PointerId × CSObjId × StmtId) : Prop :=
  ∃ c v o, r.entities.pointer? x.1 = some (.var c v) ∧ x.2.1 ∈ r.entities.pointsTo x.1 ∧
    r.entities.obj? x.2.1 = some o ∧ w.Unanswered v o.obj x.2.2

end

namespace State.Final
variable {t : Task} {s : State} (h : s.Final t) (ht : t.Valid) (name : String)
include h

theorem untargeted_iff {x : CSMethodId × StmtId} : (Outcome.ofState name s).Untargeted t.world x ↔
    x ∈ pairsOf s.calls.reachable.toList fun m => t.sitesIn (s.entities.frameOf? m) := by
  unfold Outcome.Untargeted
  rw [mem_pairsOf]
  refine and_congr_right fun hm => ?_
  obtain ⟨f, hf, _⟩ := h.invariant.justified.reachable x.1 hm
  obtain ⟨c, hc, _⟩ := Entities.frameOf?_eq_some.mp hf
  show (∃ c, s.entities.method? x.1 = some ⟨c, x.2.method⟩) ∧ _ ↔ _
  rw [hf, hc]
  show _ ↔ x.2 ∈ t.untargetedSites f.method
  rw [t.mem_untargetedSites]
  simp [eq_comm]

include ht

theorem unanswered_iff {x : PointerId × CSObjId × StmtId} : (Outcome.ofState name s).Unanswered t.world x ↔
    x ∈ pairsOf (idsBelow s.entities.pointers.size) fun p => pairsOf (s.entities.pointsTo p).toList fun j =>
      t.sitesAt (s.entities.cellOf? p) (s.entities.objectOf? j) := by
  unfold Outcome.Unanswered
  rw [mem_pairsOf, mem_pairsOf, Task.mem_sitesAt ht]
  obtain ⟨p, j, site⟩ := x
  have hcoherent := h.invariant.coherent
  constructor
  · intro ⟨c, v, o, hp, hj, ho, hcall⟩
    obtain ⟨ctx, hcell⟩ := hcoherent.mem_pointersOf.mp (hcoherent.indexed.mem_pointersOf.mpr ⟨c, hp⟩)
    obtain ⟨x, hx⟩ := hcoherent.objects p j hj
    obtain ⟨_, ho', _⟩ := Entities.objectOf?_eq_some.mp hx
    cases Option.some.inj (ho.symm.trans ho')
    exact ⟨mem_idsBelow.mpr (Table.lt_size hp), hj, ctx, v, x, hcell, hx, hcall⟩
  · intro ⟨_, hj, ctx, v, x, hcell, hx, hcall⟩
    obtain ⟨c, hp, _⟩ := Entities.cellOf?_eq_var.mp hcell
    obtain ⟨_, ho, _⟩ := Entities.objectOf?_eq_some.mp hx
    exact ⟨c, v, _, hp, hj, ho, hcall⟩

theorem unresolved_encard : (s.unresolved : ℕ∞) =
    {x | (Outcome.ofState name s).Untargeted t.world x}.encard +
      {x | (Outcome.ofState name s).Unanswered t.world x}.encard := by
  have hpairs : ∀ p, (pairsOf (s.entities.pointsTo p).toList fun j =>
      t.sitesAt (s.entities.cellOf? p) (s.entities.objectOf? j)).Nodup := fun p =>
    nodup_pairsOf (ObjSet.nodup_toList _) fun j => Task.nodup_sitesAt ht _ _
  rw [encard_eq_length (nodup_pairsOf s.calls.reachable.nodup_toList fun m => t.nodup_sitesIn _)
      fun x => h.untargeted_iff name,
    encard_eq_length (nodup_pairsOf (nodup_idsBelow _) hpairs) fun x => h.unanswered_iff ht name]
  rw [h.unresolved_sum]
  simp only [length_pairsOf, Task.length_sitesIn, Task.length_sitesAt, Nat.cast_add]
  rfl

end State.Final

/-- **Calls without a target.** The number of calls without a target that a run reports is exact. One is
counted for each reached method and each call in it that no object can answer, and one for each pointer
of a variable, each object in its set and each call on the variable that this object does not answer. -/
theorem unresolved_calls_counted {p : Program} {heap : Heap} {w : World} {c : Config} {sel : Selector}
    {limit : Nat} {r : Outcome} (hw : World.withHeap p heap = .ok w)
    (h : analyzeWith w c sel limit = .ok r) :
    (r.stats.unresolvedCalls : ℕ∞) = {x | r.Untargeted w x}.encard + {x | r.Unanswered w x}.encard := by
  obtain ⟨t, s, ht, hs, hr⟩ := analyzeWith_ok h
  have hvalid := Task.valid_of_new ht (World.valid_of_withHeap hw)
  obtain ⟨rfl, _⟩ := Task.new_eq ht
  have hcount := (Task.final_of_solve hvalid hs).unresolved_encard hvalid sel.name
  rcases hr with rfl | rfl
  · exact hcount
  · exact hcount

/-- The entry makes a call without a receiver. -/
theorem Stranded.exists_untargeted {c : Config} {sel : Selector} {limit : Nat} {r : Outcome}
    (h : analyzeWith world c sel limit = .ok r) : ∃ x, r.Untargeted world x := by
  obtain ⟨t, s, ht, hs, hr⟩ := analyzeWith_ok h
  have hvalid := Task.valid_of_new ht (World.valid_of_withHeap world_eq)
  obtain ⟨hworld, hsel, _⟩ := Task.new_eq ht
  have hentry : t.Derives (.reaches ⟨t.selector.entry, t.world.entry⟩) := .rule .entry
  obtain ⟨i, hi, hf⟩ := ((Task.final_of_solve hvalid hs).has_iff hvalid (.reaches _)).mpr hentry
  obtain ⟨k, hk, _⟩ := Entities.frameOf?_eq_some.mp hf
  rw [hworld] at hk
  refine ⟨(i, ⟨⟨0⟩, 4⟩), ?_⟩
  rcases hr with rfl | rfl
  · exact ⟨hi, ⟨k, hk⟩, _, rfl, Or.inr ⟨rfl, rfl⟩⟩
  · exact ⟨hi, ⟨k, hk⟩, _, rfl, Or.inr ⟨rfl, rfl⟩⟩

theorem unresolved_calls_counted_stranded : ∃ r, analyzeAt Stranded.world .standard ⟨.object, 1⟩ = .ok r ∧
    r.stats.unresolvedCalls ≠ 0 ∧ (r.stats.unresolvedCalls : ℕ∞) =
      {x | r.Untargeted Stranded.world x}.encard + {x | r.Unanswered Stranded.world x}.encard := by
  have hno : ∀ x ∈ Stranded.program.stmts, AccessIndex.access? x.2 = none := by decide
  have hfit : Stranded.program.CallsFit := by decide
  obtain ⟨r, hr⟩ := exists_outcome_of_callsFit Stranded.world_eq hno hfit .standard ⟨.object, 1⟩
  have hcount := unresolved_calls_counted Stranded.world_eq hr
  refine ⟨r, hr, fun hzero => ?_, hcount⟩
  rw [hzero, Nat.cast_zero, eq_comm, add_eq_zero] at hcount
  obtain ⟨x, hx⟩ := Stranded.exists_untargeted hr
  exact Set.notMem_empty x (Set.encard_eq_zero.mp hcount.1 ▸ hx)

end PointsTo
