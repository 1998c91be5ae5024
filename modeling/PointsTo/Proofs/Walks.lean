import Mathlib.Logic.Relation
import PointsTo.Proofs.Tables
import PointsTo.Walk

/-!
# Walks are exact

A walk goes on until nothing is left on its agenda. What it has visited then are
the nodes that can be reached from its start.
-/

namespace PointsTo

theorem Table.insert_of_not_mem {α : Type} [DecidableEq α] [Hashable α] {t : Table α} {x : α}
    (h : x ∉ t.toList) : t.insert x = (true, (t.insert x).2) := by
  rw [Prod.ext_iff, insert_fst]
  simp [h]

namespace Walk
variable {α : Type}

def Leads (next : α → List α) (x y : α) : Prop := Relation.ReflTransGen (fun a b => b ∈ next a) x y

/-- A walk, turn by turn, from the nodes `seen` to all that were visited when the agenda is empty. -/
inductive Visits (next : α → List α) (e : End) : (agenda seen all : List α) → Prop
  | done {seen : List α} : Visits next e [] seen seen
  | skip {a : α} {agenda seen all : List α} : a ∈ seen → Visits next e agenda seen all →
      Visits next e (a :: agenda) seen all
  | expand {a : α} {agenda seen all : List α} : a ∉ seen →
      Visits next e (e.join (next a) agenda) (seen ++ [a]) all → Visits next e (a :: agenda) seen all

theorem End.mem_join {e : End} {new agenda : List α} {x : α} :
    x ∈ e.join new agenda ↔ x ∈ new ∨ x ∈ agenda := by
  rw [(e.join_perm new agenda).mem_iff, List.mem_append]

namespace Visits
variable {next : α → List α} {e : End} {agenda seen all : List α}

/-- What the start has and every edge passes on, all visited nodes have. -/
theorem keeps (h : Visits next e agenda seen all) {P : α → Prop} (hP : ∀ x, P x → ∀ y ∈ next x, P y)
    (hagenda : ∀ x ∈ agenda, P x) (hseen : ∀ x ∈ seen, P x) : ∀ x ∈ all, P x := by
  induction h with
  | done => exact hseen
  | skip _ _ ih => exact ih (fun x hx => hagenda x (List.mem_cons_of_mem _ hx)) hseen
  | @expand a agenda seen all _ _ ih =>
    have ha := hagenda a List.mem_cons_self
    apply ih
    · intro x hx
      rcases End.mem_join.mp hx with hx | hx
      · exact hP a ha x hx
      · exact hagenda x (List.mem_cons_of_mem a hx)
    · intro x hx
      rcases List.mem_append.mp hx with hx | hx
      · exact hseen x hx
      · rw [List.mem_singleton.mp hx]
        exact ha

theorem subset (h : Visits next e agenda seen all) {x : α} (hx : x ∈ seen ∨ x ∈ agenda) : x ∈ all := by
  induction h with
  | done => simpa using hx
  | skip ha _ ih =>
    apply ih
    rw [List.mem_cons] at hx
    rcases hx with hx | rfl | hx
    · exact Or.inl hx
    · exact Or.inl ha
    · exact Or.inr hx
  | expand _ _ ih =>
    apply ih
    rw [End.mem_join, List.mem_append, List.mem_singleton]
    rw [List.mem_cons] at hx
    rcases hx with hx | hx | hx
    · exact Or.inl (Or.inl hx)
    · exact Or.inl (Or.inr hx)
    · exact Or.inr (Or.inr hx)

theorem grows (h : Visits next e agenda seen all) : ∃ l, all = seen ++ l := by
  induction h with
  | done => exact ⟨[], by simp⟩
  | skip _ _ ih => exact ih
  | @expand a _ _ _ _ _ ih =>
    obtain ⟨l, hl⟩ := ih
    exact ⟨a :: l, by simpa using hl⟩

/-- No edge leads out of what was visited. -/
theorem closed (h : Visits next e agenda seen all)
    (hseen : ∀ x ∈ seen, ∀ y ∈ next x, y ∈ seen ∨ y ∈ agenda) : ∀ x ∈ all, ∀ y ∈ next x, y ∈ all := by
  induction h with
  | done => simpa using hseen
  | @skip a agenda seen all ha _ ih =>
    refine ih fun x hx y hy => ?_
    rcases hseen x hx y hy with hy | hy
    · exact Or.inl hy
    · rcases List.mem_cons.mp hy with rfl | hy
      · exact Or.inl ha
      · exact Or.inr hy
  | @expand a agenda seen all _ _ ih =>
    refine ih fun x hx y hy => ?_
    rw [End.mem_join, List.mem_append, List.mem_singleton]
    rcases List.mem_append.mp hx with hx | hx
    · rcases hseen x hx y hy with hy | hy
      · exact Or.inl (Or.inl hy)
      · rcases List.mem_cons.mp hy with hy | hy
        · exact Or.inl (Or.inr hy)
        · exact Or.inr (Or.inr hy)
    · rw [List.mem_singleton.mp hx] at hy
      exact Or.inr (Or.inl hy)

theorem mem_iff {start : α} (h : Visits next e [start] [] all) {x : α} : x ∈ all ↔ Leads next start x := by
  constructor
  · intro hx
    refine h.keeps (P := Leads next start) (fun y hy z hz => hy.tail hz) (fun y hy => ?_) (by simp) x hx
    rw [List.mem_singleton.mp hy]
    exact .refl
  · intro hx
    induction hx with
    | refl => exact h.subset (Or.inr List.mem_cons_self)
    | tail _ hstep ih => exact h.closed (by simp) _ ih _ hstep

end Visits

section
variable [DecidableEq α] [Hashable α] (g : Graph α)

theorem visit_cons (e : End) (a : α) (agenda : List α) (seen : Table α) : visit g e (a :: agenda) seen =
    if a ∈ seen.toList then visit g e agenda seen
    else visit g e (e.join (g.next a) agenda) (seen.insert a).2 := by
  rw [visit]
  by_cases ha : a ∈ seen.toList
  · rw [if_pos ha, Table.insert_of_mem ha]
  · rw [if_neg ha, Table.insert_of_not_mem ha]

theorem visits_visit (e : End) (agenda : List α) (seen : Table α) :
    Visits g.next e agenda seen.toList (visit g e agenda seen).toList := by
  induction agenda, seen using visit.induct g e with
  | case1 seen =>
    rw [visit]
    exact .done
  | case2 seen x agenda new h ih =>
    have hx : x ∉ seen.toList := by simpa [Table.insert_fst] using congrArg Prod.fst h
    have hnew : new.toList = seen.toList ++ [x] := by
      have hinsert := Table.toList_insert seen x
      rwa [h, if_neg hx] at hinsert
    rw [visit_cons, if_neg hx, h]
    exact .expand hx (hnew ▸ ih)
  | case3 seen x agenda old h ih =>
    have hx : x ∈ seen.toList := by simpa [Table.insert_fst] using congrArg Prod.fst h
    rw [Table.insert_of_mem hx] at h
    cases h
    rw [visit_cons, if_pos hx]
    exact .skip hx ih

theorem visits_depthFirst (start : α) : Visits g.next .front [start] [] (depthFirst g start) :=
  visits_visit g .front [start] .empty

theorem visits_breadthFirst (start : α) : Visits g.next .back [start] [] (breadthFirst g start) :=
  visits_visit g .back [start] .empty

variable {g} {start x : α}

theorem mem_depthFirst : x ∈ depthFirst g start ↔ Leads g.next start x := (visits_depthFirst g start).mem_iff

theorem mem_breadthFirst : x ∈ breadthFirst g start ↔ Leads g.next start x :=
  (visits_breadthFirst g start).mem_iff

end

end Walk

end PointsTo
