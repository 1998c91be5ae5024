/-!
# Queues

A list that grows at its end and can be read from both ends.
-/

namespace PointsTo

/-- The oldest elements are in `front`, the newest in `back`, newest first. -/
structure Queue (α : Type) where
  front : List α
  back : List α

namespace Queue
variable {α : Type}

def empty : Queue α := ⟨[], []⟩

instance : Inhabited (Queue α) := ⟨empty⟩

/-- The elements, oldest first. -/
def toList (q : Queue α) : List α := q.front ++ q.back.reverse

def length (q : Queue α) : Nat := q.front.length + q.back.length

def isEmpty (q : Queue α) : Bool := q.front.isEmpty && q.back.isEmpty

def push (q : Queue α) (a : α) : Queue α := ⟨q.front, a :: q.back⟩

def popOldest? : Queue α → Option (α × Queue α)
  | ⟨a :: front, back⟩ => some (a, ⟨front, back⟩)
  | ⟨[], back⟩ =>
    match back.reverse with
    | [] => none
    | a :: front => some (a, ⟨front, []⟩)

def popNewest? : Queue α → Option (α × Queue α)
  | ⟨front, a :: back⟩ => some (a, ⟨front, back⟩)
  | ⟨front, []⟩ =>
    match front.reverse with
    | [] => none
    | a :: back => some (a, ⟨[], back⟩)

@[simp] theorem toList_empty : (empty : Queue α).toList = [] := rfl

@[simp] theorem toList_push (q : Queue α) (a : α) : (q.push a).toList = q.toList ++ [a] := by
  simp [push, toList]

@[simp] theorem length_toList (q : Queue α) : q.toList.length = q.length := by
  simp [toList, length]

theorem popOldest?_eq_some {q r : Queue α} {a : α} (h : q.popOldest? = some (a, r)) :
    q.toList = a :: r.toList := by
  rcases q with ⟨_ | ⟨b, front⟩, back⟩ <;> grind [popOldest?, toList]

theorem popOldest?_eq_none {q : Queue α} : q.popOldest? = none ↔ q.toList = [] := by
  rcases q with ⟨_ | ⟨b, front⟩, back⟩ <;> grind [popOldest?, toList]

theorem popNewest?_eq_some {q r : Queue α} {a : α} (h : q.popNewest? = some (a, r)) :
    q.toList = r.toList ++ [a] := by
  rcases q with ⟨front, _ | ⟨b, back⟩⟩
  · simp only [popNewest?] at h
    split at h <;> simp_all [toList]
    grind
  · simp_all [popNewest?, toList]
    grind

theorem popNewest?_eq_none {q : Queue α} : q.popNewest? = none ↔ q.toList = [] := by
  rcases q with ⟨front, _ | ⟨b, back⟩⟩
  · simp only [popNewest?]
    split <;> simp_all [toList]
  · simp [popNewest?, toList]

end Queue

end PointsTo
