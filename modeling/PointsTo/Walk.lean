import PointsTo.Table

/-!
# Walks over a graph

A walk visits every node that can be reached from a start, each once. The agenda holds the nodes
still to visit: the successors of a visited node go to its front (depth first) or to its end
(breadth first). A walk ends when its agenda is empty. It comes to that, as a node is expanded once
and only finitely many nodes have successors.
-/

namespace PointsTo.Walk
variable {α : Type}

structure Graph (α : Type) where
  next : α → List α
  finite : ∃ nodes : List α, ∀ x, x ∉ nodes → next x = []

/-- Where new nodes join the agenda. -/
inductive End
  | front
  | back

def End.join : End → (new agenda : List α) → List α
  | .front, new, agenda => new ++ agenda
  | .back, new, agenda => agenda ++ new

theorem End.join_perm (e : End) (new agenda : List α) : (e.join new agenda).Perm (new ++ agenda) := by
  cases e with
  | front => exact .refl _
  | back => exact List.perm_append_comm

variable [DecidableEq α] [Hashable α]

namespace Graph
variable (g : Graph α) {x : α} {seen : Table α}

/-- How many of the nodes with successors are still to visit. -/
noncomputable def ahead (seen : Table α) : Nat := (g.finite.choose.filter (· ∉ seen.toList)).length

theorem filter_insert (hx : x ∉ seen.toList) (nodes : List α) :
    nodes.filter (· ∉ (seen.insert x).2.toList) = (nodes.filter (· ∉ seen.toList)).filter (· ≠ x) := by
  rw [List.filter_filter, Table.toList_insert, if_neg hx]
  refine List.filter_congr fun y _ => ?_
  simp [and_comm]

/-- A new node is one less to come, or has nothing to put on the agenda. -/
theorem expand_lt (hx : x ∉ seen.toList) (e : End) (agenda : List α) :
    Prod.Lex (· < ·) (· < ·) (g.ahead (seen.insert x).2, (e.join (g.next x) agenda).length)
      (g.ahead seen, (x :: agenda).length) := by
  by_cases hnext : x ∈ g.finite.choose
  · apply Prod.Lex.left
    unfold ahead
    rw [filter_insert hx, List.length_filter_lt_length_iff_exists]
    exact ⟨x, by simp [hnext, hx]⟩
  · have hle : g.ahead (seen.insert x).2 ≤ g.ahead seen := by
      unfold ahead
      rw [filter_insert hx]
      exact List.length_filter_le _ _
    have hlt : (e.join (g.next x) agenda).length < (x :: agenda).length := by
      rw [(e.join_perm _ _).length_eq, g.finite.choose_spec x hnext]
      exact Nat.lt_succ_self _
    rcases Nat.lt_or_eq_of_le hle with h | h
    · exact .left _ _ h
    · rw [h]
      exact .right _ hlt

end Graph

/-- Visits the nodes of `agenda` and all that they lead to. -/
def visit (g : Graph α) (e : End) (agenda : List α) (seen : Table α) : Table α :=
  match agenda with
  | [] => seen
  | x :: agenda =>
    match _h : seen.insert x with
    | (true, new) => visit g e (e.join (g.next x) agenda) new
    | (false, old) => visit g e agenda old
termination_by (g.ahead seen, agenda.length)
decreasing_by
  · have hx : x ∉ seen.toList := by simpa [Table.insert_fst] using congrArg Prod.fst _h
    have := g.expand_lt hx e agenda
    rwa [_h] at this
  · have hx : x ∈ seen.toList := by simpa [Table.insert_fst] using congrArg Prod.fst _h
    rw [Table.insert_of_mem hx] at _h
    cases _h
    exact .right _ (Nat.lt_succ_self _)

/-- The nodes in the order of a depth-first walk. -/
def depthFirst (g : Graph α) (start : α) : List α := (visit g .front [start] .empty).toList

/-- The nodes in the order of a breadth-first walk. -/
def breadthFirst (g : Graph α) (start : α) : List α := (visit g .back [start] .empty).toList

end PointsTo.Walk
