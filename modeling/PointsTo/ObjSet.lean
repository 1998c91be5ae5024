import PointsTo.Ascending

/-!
# Sets of context-qualified objects

A set is the strictly ascending list of its members, so two sets with the same members are equal.
Sets only grow.
-/

namespace PointsTo

structure ObjSet where
  toList : List CSObjId
  ascending : Ascending.Asc toList
  deriving DecidableEq

namespace ObjSet
open Ascending

def empty : ObjSet := ⟨[], List.Pairwise.nil⟩

instance : Inhabited ObjSet := ⟨empty⟩

def singleton (o : CSObjId) : ObjSet := ⟨[o], List.pairwise_singleton _ _⟩

def size (s : ObjSet) : Nat := s.toList.length

def isEmpty (s : ObjSet) : Bool := s.toList.isEmpty

def contains (s : ObjSet) (o : CSObjId) : Bool := (search o s.toList).1

instance : Membership CSObjId ObjSet := ⟨fun s o => o ∈ s.toList⟩

def union (s t : ObjSet) : ObjSet :=
  ⟨Ascending.union s.toList t.toList, asc_union s.ascending t.ascending⟩

/-- The set with `o`, and whether `o` was missing. -/
def insert (s : ObjSet) (o : CSObjId) : Bool × ObjSet :=
  match h : search o s.toList with
  | (true, _) => (false, s)
  | (false, i) => (true, ⟨s.toList.take i ++ o :: s.toList.drop i, asc_insertAt s.ascending h⟩)

/-- The members of `t` that `s` lacks. -/
def missing (s t : ObjSet) : ObjSet :=
  ⟨fresh s.toList t.toList, t.ascending.sublist (fresh_sublist _ _)⟩

/-- The union, and the members of `t` that `s` lacked. -/
def addAll (s t : ObjSet) : ObjSet × ObjSet :=
  if t.isEmpty then (s, empty)
  else if s.isEmpty then (t, t)
  else
    let walk := merge s.toList t.toList
    (if walk.2.isEmpty then s else ⟨walk.1, asc_merge_fst s.ascending t.ascending⟩,
      ⟨walk.2, asc_merge_snd s.ascending t.ascending⟩)

def intersects (s t : ObjSet) : Bool := meet s.toList t.toList

/-- A set has no more members than one that includes it. -/
def isSubset (s t : ObjSet) : Bool := s.size ≤ t.size && s.toList.all t.contains

/-- The set of the members of any list. -/
def ofList (xs : List CSObjId) : ObjSet := ⟨Ascending.ofList xs, asc_ofList xs⟩

@[ext] theorem ext {s t : ObjSet} (h : ∀ o, o ∈ s ↔ o ∈ t) : s = t := by
  have := eq_of_mem_iff s.ascending t.ascending h
  cases s; cases t; simp_all

@[simp] theorem mem_toList {s : ObjSet} {o : CSObjId} : o ∈ s.toList ↔ o ∈ s := Iff.rfl

@[simp] theorem mem_union {s t : ObjSet} {o : CSObjId} : o ∈ s.union t ↔ o ∈ s ∨ o ∈ t :=
  Ascending.mem_union s.ascending t.ascending

@[simp] theorem mem_missing {s t : ObjSet} {o : CSObjId} : o ∈ s.missing t ↔ o ∈ t ∧ o ∉ s :=
  Ascending.mem_fresh s.ascending t.ascending

@[simp] theorem mem_ofList {xs : List CSObjId} {o : CSObjId} : o ∈ ofList xs ↔ o ∈ xs :=
  Ascending.mem_ofList

theorem isEmpty_iff {s : ObjSet} : s.isEmpty = true ↔ ∀ o, o ∉ s := by
  rw [isEmpty, List.isEmpty_iff, List.eq_nil_iff_forall_not_mem]
  rfl

theorem not_mem_empty (o : CSObjId) : o ∉ empty := List.not_mem_nil

theorem eq_empty_of_isEmpty {s : ObjSet} (h : s.isEmpty = true) : s = empty :=
  ext fun o => iff_of_false (isEmpty_iff.mp h o) (not_mem_empty o)

/-- Nothing is lost where nothing new is added. -/
theorem union_eq_self {s t : ObjSet} (h : (s.missing t).isEmpty = true) : s = s.union t := by
  ext o
  have := isEmpty_iff.mp h o
  grind [mem_missing, mem_union]

/-- The walk finds what is new, and so do the shortcuts. -/
theorem addAll_eq (s t : ObjSet) : s.addAll t = (s.union t, s.missing t) := by
  unfold addAll
  split
  · rename_i ht
    rw [eq_empty_of_isEmpty ht]
    rfl
  · split
    · rename_i hs
      rw [eq_empty_of_isEmpty hs]
      exact Prod.ext (ext fun o => by simp [not_mem_empty]) (ext fun o => by simp [not_mem_empty])
    · simp only [merge_eq s.ascending]
      refine Prod.ext ?_ rfl
      split
      · rename_i hnew
        exact union_eq_self hnew
      · rfl

end ObjSet

end PointsTo
