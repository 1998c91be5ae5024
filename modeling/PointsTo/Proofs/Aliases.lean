import PointsTo.Proofs.Views

/-!
# Aliases

Two variables may alias if both point to some object. The aliases of a variable are
not found by asking this of every other variable, but by an index that lists the
variables of each object. Both ways agree, whenever the index is made.
-/

namespace PointsTo

theorem Ascending.foldl_join {e : Entity} {κ : Type} {g : κ → List (Id e)} (hg : ∀ k, Asc (g k)) :
    ∀ (ks : List κ) {xs : List (Id e)}, Asc xs → Asc (ks.foldl (fun all k => join all (g k)) xs) ∧
      ∀ z, z ∈ ks.foldl (fun all k => join all (g k)) xs ↔ z ∈ xs ∨ ∃ k ∈ ks, z ∈ g k
  | [], _, hx => ⟨hx, by simp⟩
  | k :: ks, xs, hx => by
    have hasc : Asc (join xs (g k)) := join_eq_union hx (hg k) ▸ asc_union hx (hg k)
    obtain ⟨hrest, hmem⟩ := foldl_join hg ks hasc
    refine ⟨hrest, fun z => ?_⟩
    rw [List.foldl_cons, hmem, join_eq_union hx (hg k), mem_union hx (hg k)]
    simp [or_assoc]

namespace Outcome
variable {r : Outcome}

theorem mayAlias_iff {v u : VarId} : r.mayAlias v u = true ↔ ∃ o, o ∈ r.pointsTo v ∧ o ∈ r.pointsTo u :=
  Ascending.meet_eq_true (Ascending.asc_ofList _) (Ascending.asc_ofList _)

/-! ## The index -/

def Indexes (r : Outcome) : Prop :=
  ∀ o, Ascending.Asc (r.aliasIndex.getD o []) ∧ ∀ v, v ∈ r.aliasIndex.getD o [] ↔ o ∈ r.pointsTo v

theorem mem_holders {o : ObjId} {v : VarId} : v ∈ r.holders.getD o [] ↔ (o, v) ∈ r.holdings := by
  have hstep : ∀ (index : Std.HashMap ObjId (List VarId)) (a x : ObjId × VarId),
      x.2 ∈ (index.alter a.1 fun old => some (a.2 :: old.getD [])).getD x.1 [] ↔
        x.2 ∈ index.getD x.1 [] ∨ x = a := by
    intro index a x
    rw [Std.HashMap.getD_alter]
    by_cases ha : a.1 = x.1
    · simp [ha, Prod.ext_iff, Std.HashMap.getD_eq_getD_getElem?, or_comm]
    · simp [ha, Prod.ext_iff, Ne.symm ha]
  unfold holders
  rw [foldl_gather (P := fun (index : Std.HashMap ObjId (List VarId)) x => x.2 ∈ index.getD x.1 [])
    hstep (o, v) r.holdings ∅]
  simp

theorem mem_holdings (h : r.entities.Coherent) {o : ObjId} {v : VarId} :
    (o, v) ∈ r.holdings ↔ o ∈ r.pointsTo v := by
  rw [mem_pointsTo]
  unfold holdings
  rw [List.mem_flatMap]
  constructor
  · intro hmem
    obtain ⟨p, _, hp⟩ := hmem
    cases ha : r.entities.pointer? p with
    | none => simp [ha] at hp
    | some a =>
      cases a with
      | var i u =>
        simp only [ha, Option.bind_some, Pointer.var?, List.mem_map, List.mem_filterMap, Prod.mk.injEq] at hp
        obtain ⟨_, ⟨j, hj, ho⟩, rfl, rfl⟩ := hp
        exact ⟨j, mem_csPointsTo.mpr ⟨p, h.indexed.mem_pointersOf.mpr ⟨i, ha⟩, hj⟩, ho⟩
      | _ => simp [ha, Pointer.var?] at hp
  · intro hmem
    obtain ⟨j, hj, ho⟩ := hmem
    obtain ⟨p, hp, hj⟩ := mem_csPointsTo.mp hj
    obtain ⟨i, ha⟩ := h.indexed.mem_pointersOf.mp hp
    rw [h.indexed v] at hp
    refine ⟨p, (List.mem_filter.mp hp).1, ?_⟩
    simp only [ha, Option.bind_some, Pointer.var?, List.mem_map, List.mem_filterMap]
    exact ⟨o, ⟨j, hj, ho⟩, rfl⟩

theorem indexes_of_lazy (h : r.entities.Coherent) (hlazy : r.aliases? = none) : r.Indexes := by
  have hindex : ∀ o, r.aliasIndex.getD o [] = Ascending.ofList (r.holders.getD o []) := by
    intro o
    unfold aliasIndex
    rw [hlazy]
    dsimp only
    rw [Std.HashMap.getD_map, Std.HashMap.getD_eq_getD_getElem?]
    cases r.holders[o]? with
    | none => simp [Ascending.ofList, Ascending.collapse]
    | some vs => rfl
  intro o
  rw [hindex]
  refine ⟨Ascending.asc_ofList _, fun v => ?_⟩
  rw [Ascending.mem_ofList, mem_holders, mem_holdings h]

/-! ## Aliases of a variable -/

structure AliasesAgree (r : Outcome) : Prop where
  asc_aliasesOf : ∀ v, Ascending.Asc (r.aliasesOf v)
  aliasesOf : ∀ v u, u ∈ r.aliasesOf v ↔ u ≠ v ∧ r.mayAlias v u = true
  mayAlias : ∀ v u, r.mayAlias v u = true ↔ ∃ o, o ∈ r.pointsTo v ∧ o ∈ r.pointsTo u
  symm : ∀ v u, r.mayAlias v u = r.mayAlias u v
  self : ∀ v, r.mayAlias v v = true ↔ r.pointsTo v ≠ []
  /-- Heap contexts only tell apart what may alias without them. -/
  of_csMayAlias : ∀ v u, r.csMayAlias v u = true → r.mayAlias v u = true

theorem aliasesOf_withAliasIndex (r : Outcome) (v : VarId) : r.withAliasIndex.aliasesOf v = r.aliasesOf v :=
  rfl

section
variable (hi : r.Indexes)
include hi

theorem asc_aliasesOf (v : VarId) : Ascending.Asc (r.aliasesOf v) := by
  unfold aliasesOf
  exact (Ascending.foldl_join (fun o => (hi o).1) _ List.Pairwise.nil).1.filter _

theorem mem_aliasesOf {v u : VarId} : u ∈ r.aliasesOf v ↔ u ≠ v ∧ r.mayAlias v u = true := by
  have hmem := (Ascending.foldl_join (fun o => (hi o).1) (r.pointsTo v) List.Pairwise.nil).2 u
  unfold aliasesOf
  rw [List.mem_filter, hmem, mayAlias_iff, decide_eq_true_eq, and_comm]
  simp [fun o => (hi o).2 u]

end

theorem mayAlias_of_csMayAlias (h : r.entities.Coherent) {v u : VarId} (hcs : r.csMayAlias v u = true) :
    r.mayAlias v u = true := by
  unfold csMayAlias ObjSet.intersects at hcs
  rw [Ascending.meet_eq_true (r.csPointsTo v).ascending (r.csPointsTo u).ascending] at hcs
  obtain ⟨j, hv, hu⟩ := hcs
  obtain ⟨o, ho⟩ := isSome_objOf h hv
  exact mayAlias_iff.mpr ⟨o, mem_pointsTo.mpr ⟨j, hv, ho⟩, mem_pointsTo.mpr ⟨j, hu, ho⟩⟩

end Outcome

/-! ## Outcomes of runs -/

section
variable {p : Program} {heap : Heap} {w : World} {c : Config} {sel : Selector} {limit : Nat} {r : Outcome}

theorem indexes_of_analyzeWith (hw : w.Valid) (h : analyzeWith w c sel limit = .ok r) : r.Indexes := by
  obtain ⟨t, s, ht, hs, hr⟩ := analyzeWith_ok h
  have hlazy := Outcome.indexes_of_lazy (r := .ofState sel.name s)
    (Task.final_of_solve (Task.valid_of_new ht hw) hs).invariant.coherent rfl
  rcases hr with rfl | rfl
  · exact hlazy
  · exact hlazy

/-- The configuration decides only when the index is made. -/
theorem aliasesOf_of_analyzeWith (h : analyzeWith w c sel limit = .ok r) (eager : Bool) :
    ∃ r', analyzeWith w { c with aliasIndex := eager } sel limit = .ok r' ∧
      ∀ v, r'.aliasesOf v = r.aliasesOf v := by
  obtain ⟨t, s, ht, hs, hr⟩ := analyzeWith_ok h
  have hlazy : ∀ v, r.aliasesOf v = (Outcome.ofState sel.name s).aliasesOf v := by
    intro v
    rcases hr with rfl | rfl
    · rfl
    · rfl
  refine ⟨_, except_bind_ok.mpr ⟨t, ht, except_bind_ok.mpr ⟨s, hs, rfl⟩⟩, fun v => ?_⟩
  rw [hlazy]
  cases eager with
  | false => rfl
  | true => rfl

/-- **Aliases.** The aliases of a variable are the other variables that may alias it, in ascending order,
whether the index was made in advance or is made for the question. Aliasing is symmetric, a variable
aliases itself if it points to anything, and heap contexts allow no further aliases. -/
theorem aliases_agree (hw : World.withHeap p heap = .ok w) (h : analyzeWith w c sel limit = .ok r) :
    r.AliasesAgree ∧ (∀ v, r.withAliasIndex.aliasesOf v = r.aliasesOf v) ∧
    ∀ eager, ∃ r', analyzeWith w { c with aliasIndex := eager } sel limit = .ok r' ∧
      ∀ v, r'.aliasesOf v = r.aliasesOf v := by
  have hcoherent := coherent_of_analyzeWith (World.valid_of_withHeap hw) h
  have hindexes := indexes_of_analyzeWith (World.valid_of_withHeap hw) h
  refine ⟨?_, r.aliasesOf_withAliasIndex, aliasesOf_of_analyzeWith h⟩
  constructor
  case asc_aliasesOf => exact Outcome.asc_aliasesOf hindexes
  case aliasesOf => exact fun _ _ => Outcome.mem_aliasesOf hindexes
  case mayAlias => exact fun _ _ => Outcome.mayAlias_iff
  case symm =>
    intro v u
    rw [Bool.eq_iff_iff, Outcome.mayAlias_iff, Outcome.mayAlias_iff]
    simp only [and_comm]
  case self =>
    intro v
    rw [Outcome.mayAlias_iff]
    simp [List.eq_nil_iff_forall_not_mem]
  case of_csMayAlias => exact fun _ _ => Outcome.mayAlias_of_csMayAlias hcoherent

end

/-- The boxes, with the index made in advance and without. -/
theorem aliases_agree_sample : ∃ r r', analyzeAt Sample.world ⟨.insensitive, .fifo, true⟩ ⟨.object, 2⟩ = .ok r ∧
    analyzeAt Sample.world ⟨.insensitive, .fifo, false⟩ ⟨.object, 2⟩ = .ok r' ∧ r.AliasesAgree ∧
    ∀ v, r'.aliasesOf v = r.aliasesOf v := by
  obtain ⟨r, hr⟩ := Sample.exists_outcome ⟨.insensitive, .fifo, true⟩ ⟨.object, 2⟩
  obtain ⟨hagree, _, heager⟩ := aliases_agree Sample.world_eq hr
  obtain ⟨r', hr', heq⟩ := heager false
  exact ⟨r, r', hr, hr', hagree, heq⟩

end PointsTo
