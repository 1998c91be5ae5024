import Std.Data.HashMap

/-!
# Insertion-ordered tables

A table lists distinct items in the order of their first arrival and finds the place of an item by
its content. Items are never removed, so a place once given keeps its meaning.
-/

namespace PointsTo

structure Table (α : Type) [DecidableEq α] [Hashable α] where
  items : Array α
  index : Std.HashMap α Nat
  index_eq_some : ∀ (x : α) (i : Nat), index[x]? = some i ↔ items[i]? = some x

namespace Table
variable {α : Type} [DecidableEq α] [Hashable α]

def empty : Table α where
  items := #[]
  index := ∅
  index_eq_some := by simp

instance : Inhabited (Table α) := ⟨empty⟩

def size (t : Table α) : Nat := t.items.size

def toList (t : Table α) : List α := t.items.toList

def get? (t : Table α) (i : Nat) : Option α := t.items[i]?

def find? (t : Table α) (x : α) : Option Nat := t.index[x]?

def contains (t : Table α) (x : α) : Bool := t.index.contains x

theorem find?_eq_some {t : Table α} {x : α} {i : Nat} : t.find? x = some i ↔ t.get? i = some x :=
  t.index_eq_some x i

theorem index_lt {t : Table α} {x : α} {i : Nat} (h : t.index[x]? = some i) : i < t.items.size := by
  have := (t.index_eq_some x i).mp h
  grind

private theorem index_push {t : Table α} {y : α} (h : t.index[y]? = none) (x : α) (i : Nat) :
    (t.index.insert y t.items.size)[x]? = some i ↔ (t.items.push y)[i]? = some x := by
  have hx := t.index_eq_some x
  have hy := t.index_eq_some y
  rw [Std.HashMap.getElem?_insert, Array.getElem?_push]
  by_cases e : y = x
  · subst e; grind
  · have := @index_lt α _ _ t x i
    grind

/-- The place of `x`, which is appended if it is new. Places are not cut to 32 bits; those of a table
with at most `2 ^ 32` items all fit. -/
def intern (t : Table α) (x : α) : Nat × Table α :=
  match h : t.index[x]? with
  | some i => (i, t)
  | none =>
    (t.items.size, ⟨t.items.push x, t.index.insert x t.items.size, index_push h⟩)

/-- Appends `x` if it is new, and says whether it was. -/
def insert (t : Table α) (x : α) : Bool × Table α :=
  match h : t.index[x]? with
  | some _ => (false, t)
  | none => (true, ⟨t.items.push x, t.index.insert x t.items.size, index_push h⟩)

theorem get?_eq (t : Table α) (i : Nat) : t.get? i = t.toList[i]? := by
  unfold get? toList
  rw [Array.getElem?_toList]

theorem mem_toList {t : Table α} {x : α} : x ∈ t.toList ↔ ∃ i, t.get? i = some x := by
  simp only [get?_eq]
  exact List.mem_iff_getElem?

theorem index_eq_none {t : Table α} {x : α} : t.index[x]? = none ↔ x ∉ t.toList := by
  rw [mem_toList, Option.eq_none_iff_forall_not_mem]
  constructor
  · rintro h ⟨i, hi⟩
    exact h i (find?_eq_some.mpr hi)
  · intro h i hi
    exact h ⟨i, find?_eq_some.mp hi⟩

@[simp] theorem toList_empty : (empty : Table α).toList = [] := rfl

theorem toList_insert (t : Table α) (x : α) :
    (t.insert x).2.toList = if x ∈ t.toList then t.toList else t.toList ++ [x] := by
  unfold insert
  split
  · rename_i i h
    rw [if_pos (mem_toList.mpr ⟨i, find?_eq_some.mp h⟩)]
  · rename_i h
    rw [if_neg (index_eq_none.mp h)]
    simp [toList]

theorem insert_fst (t : Table α) (x : α) : (t.insert x).1 = decide (x ∉ t.toList) := by
  unfold insert
  split
  · rename_i i h
    have := mem_toList.mpr ⟨i, find?_eq_some.mp h⟩
    simp [this]
  · rename_i h
    simp [index_eq_none.mp h]

theorem insert_of_mem {t : Table α} {x : α} (h : x ∈ t.toList) : t.insert x = (false, t) := by
  unfold insert
  split
  · rfl
  · rename_i hn
    exact absurd h (index_eq_none.mp hn)

def ofList (xs : List α) : Table α := xs.foldl (fun t x => (t.insert x).2) empty

end Table

end PointsTo
