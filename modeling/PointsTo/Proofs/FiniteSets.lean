import Mathlib.Data.Finset.Dedup
import Mathlib.Data.Finset.SDiff
import Mathlib.Data.List.Perm.Subperm
import PointsTo.Proofs.Tables

/-!
# Ascending lists are finite sets

Whatever operations a set comes from, its list is strictly ascending and has the
members that the same operations give for finite sets. Every answer about such
sets is the answer about their members.
-/

namespace PointsTo.ObjSet
open Ascending

section
variable {s t : ObjSet} {o x : CSObjId}

theorem contains_iff : s.contains o = true ↔ o ∈ s := by
  unfold contains
  rw [search_eq s.ascending, decide_eq_true_iff]
  rfl

theorem insert_fst : (s.insert o).1 = true ↔ o ∉ s := by
  rw [← contains_iff, contains, Bool.not_eq_true]
  unfold insert
  split
  · rename_i h
    simp [h]
  · rename_i h
    simp [h]

theorem mem_insert : x ∈ (s.insert o).2 ↔ x = o ∨ x ∈ s := by
  unfold insert
  split
  · rename_i h
    have ho : o ∈ s := contains_iff.mp (congrArg Prod.fst h)
    exact ⟨Or.inr, fun hx => hx.elim (fun he => he ▸ ho) id⟩
  · exact mem_insertAt

theorem missing_isEmpty : (s.missing t).isEmpty = true ↔ s.union t = s := by
  refine ⟨fun h => (union_eq_self h).symm, fun h => isEmpty_iff.mpr fun o ho => ?_⟩
  obtain ⟨ht, hs⟩ := mem_missing.mp ho
  rw [← h, mem_union] at hs
  exact hs (Or.inr ht)

theorem intersects_iff : s.intersects t = true ↔ ∃ o, o ∈ s ∧ o ∈ t :=
  meet_eq_true s.ascending t.ascending

theorem size_le_of_subset (h : ∀ o ∈ s, o ∈ t) : s.size ≤ t.size :=
  (List.subperm_of_subset s.nodup_toList h).length_le

/-- The sizes never rule out a set that is included. -/
theorem isSubset_iff : s.isSubset t = true ↔ ∀ o ∈ s, o ∈ t := by
  unfold isSubset
  simp only [Bool.and_eq_true, decide_eq_true_iff, List.all_eq_true, contains_iff, mem_toList,
    and_iff_right_iff_imp]
  exact size_le_of_subset

end

/-! ## Sets by the way they are built -/

/-- How a set is built; `delta` is what `addAll` gives back. -/
inductive Recipe
  | empty
  | singleton (o : CSObjId)
  | ofList (os : List CSObjId)
  | insert (r : Recipe) (o : CSObjId)
  | addAll (r s : Recipe)
  | delta (r s : Recipe)

namespace Recipe

def build : Recipe → ObjSet
  | .empty => .empty
  | .singleton o => .singleton o
  | .ofList os => .ofList os
  | .insert r o => (r.build.insert o).2
  | .addAll r s => (r.build.addAll s.build).1
  | .delta r s => (r.build.addAll s.build).2

def members : Recipe → Finset CSObjId
  | .empty => ∅
  | .singleton o => {o}
  | .ofList os => os.toFinset
  | .insert r o => Insert.insert o r.members
  | .addAll r s => r.members ∪ s.members
  | .delta r s => s.members \ r.members

theorem mem_build {o : CSObjId} : ∀ {r : Recipe}, o ∈ r.build ↔ o ∈ r.members
  | .empty => by simp [build, members, not_mem_empty]
  | .singleton a => by
    rw [members, Finset.mem_singleton]
    exact List.mem_singleton
  | .ofList os => by simp [build, members]
  | .insert r a => by rw [build, members, ObjSet.mem_insert, mem_build, Finset.mem_insert]
  | .addAll r s => by
    rw [build, members, addAll_eq, mem_union, mem_build, mem_build, Finset.mem_union]
  | .delta r s => by
    rw [build, members, addAll_eq, mem_missing, mem_build, mem_build, Finset.mem_sdiff]

theorem toFinset_build (r : Recipe) : r.build.toList.toFinset = r.members :=
  Finset.ext fun _ => List.mem_toFinset.trans mem_build

end Recipe

/-- **Sets are finite sets.** The list of a set is strictly ascending and has the members that are meant,
so sets are equal just if they are meant to be. Adding a set leads to the union and gives back what was
missing, which is nothing just if nothing changes. -/
theorem built_sets_exact (r s : Recipe) :
    r.build.toList.Pairwise (· < ·) ∧ r.build.toList.toFinset = r.members ∧
    (r.build = s.build ↔ r.members = s.members) ∧
    (∀ o, r.build.contains o = true ↔ o ∈ r.members) ∧
    (∀ o, (r.build.insert o).1 = true ↔ o ∉ r.members) ∧
    (r.build.addAll s.build).1.toList.toFinset = r.members ∪ s.members ∧
    (r.build.addAll s.build).2.toList.toFinset = s.members \ r.members ∧
    ((r.build.addAll s.build).2.isEmpty = true ↔ (r.build.addAll s.build).1 = r.build) ∧
    (r.build.intersects s.build = true ↔ (r.members ∩ s.members).Nonempty) ∧
    (r.build.isSubset s.build = true ↔ r.members ⊆ s.members) := by
  refine ⟨r.build.ascending, r.toFinset_build, ⟨fun h => ?_, fun h => ?_⟩, fun o => ?_, fun o => ?_,
    (Recipe.addAll r s).toFinset_build, (Recipe.delta r s).toFinset_build, ?_, ?_, ?_⟩
  · rw [← r.toFinset_build, ← s.toFinset_build, h]
  · ext o
    rw [Recipe.mem_build, Recipe.mem_build, h]
  · rw [contains_iff, Recipe.mem_build]
  · rw [insert_fst, Recipe.mem_build]
  · rw [addAll_eq]
    exact missing_isEmpty
  · simp only [intersects_iff, Recipe.mem_build, Finset.Nonempty, Finset.mem_inter]
  · simp only [isSubset_iff, Recipe.mem_build, Finset.subset_iff]

/-- Merging `[2, 3, 6]` into `[1, 3, 5]`, and what is new in it. -/
example : ((ofList [⟨5⟩, ⟨1⟩, ⟨3⟩]).addAll (ofList [⟨3⟩, ⟨6⟩, ⟨2⟩, ⟨3⟩])) =
    (ofList [⟨1⟩, ⟨2⟩, ⟨3⟩, ⟨5⟩, ⟨6⟩], ofList [⟨2⟩, ⟨6⟩]) := by cbv

end PointsTo.ObjSet
