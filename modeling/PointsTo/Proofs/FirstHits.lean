import PointsTo.Proofs.Walks

/-!
# First hits

Without cycles a depth-first walk may forget what it has visited. Its first hit is
that of the order in which every node is followed by all that its successors lead
to, however often, and so is that of a search that keeps no record.
-/

namespace PointsTo.Walk
variable {α : Type}

/-- A depth-first search that keeps no record of what it has visited. -/
inductive Finds {β : Type} (next : α → List α) (g : α → Option β) : (agenda : List α) → Option β → Prop
  | nothing : Finds next g [] none
  | here {a : α} {agenda : List α} {b : β} : g a = some b → Finds next g (a :: agenda) (some b)
  | further {a : α} {agenda : List α} {r : Option β} : g a = none → Finds next g (next a ++ agenda) r →
      Finds next g (a :: agenda) r

section
variable {β : Type} (next : α → List α) (order : α → List α) (g : α → Option β)

/-- Behind the nodes of `seen` that `a` leads to, all has been visited. -/
def Exhausted (seen : List α) (a : α) : Prop :=
  ∀ x ∈ seen, Leads next a x → ∀ y, Leads next x y → y ∈ seen

/-- A walk that comes to the nodes `l` visits all that they lead to before it goes on, with the first
hit of their order. -/
def Passes (l : List α) : Prop :=
  ∀ agenda seen all, Visits next .front (l ++ agenda) seen all → (∀ a ∈ l, Exhausted next seen a) →
    ∃ mid, Visits next .front agenda mid all ∧ (∀ x, x ∈ mid ↔ x ∈ seen ∨ ∃ a ∈ l, Leads next a x) ∧
      mid.findSome? g = (seen ++ l.flatMap order).findSome? g

variable {next order g}

theorem leads_iff_head {a x : α} : Leads next a x ↔ x = a ∨ ∃ b ∈ next a, Leads next b x := by
  unfold Leads
  rw [Relation.ReflTransGen.cases_head_iff, eq_comm]

theorem Finds.isSome_iff {agenda : List α} {r : Option β} (h : Finds next g agenda r) :
    r.isSome = true ↔ ∃ a ∈ agenda, ∃ x, Leads next a x ∧ (g x).isSome = true := by
  induction h with
  | nothing => simp
  | @here a agenda b ha => exact ⟨fun _ => ⟨a, List.mem_cons_self, a, .refl, by simp [ha]⟩, fun _ => rfl⟩
  | @further a agenda r ha _ ih =>
    rw [ih]
    simp only [List.mem_append, List.mem_cons, or_and_right, exists_or, exists_eq_left]
    apply or_congr_left
    constructor
    · intro h
      obtain ⟨b, hb, x, hx, hg⟩ := h
      exact ⟨x, .head hb hx, hg⟩
    · intro h
      obtain ⟨x, hx, hg⟩ := h
      rcases leads_iff_head.mp hx with rfl | ⟨b, hb, hx⟩
      · simp [ha] at hg
      · exact ⟨b, hb, x, hx, hg⟩

/-- What was there before brings no new first hit. -/
theorem findSome?_append_of_subset {seen l : List α} (h : ∀ x ∈ l, x ∈ seen) :
    (seen ++ l).findSome? g = seen.findSome? g := by
  rw [List.findSome?_append]
  cases hs : seen.findSome? g with
  | some b => rfl
  | none =>
    rw [List.findSome?_eq_none_iff] at hs
    rw [Option.none_or, List.findSome?_eq_none_iff]
    exact fun x hx => hs x (h x hx)

theorem passes_of_each : ∀ {l : List α}, (∀ a ∈ l, Passes next order g [a]) → Passes next order g l
  | [], _ => fun agenda seen all h _ => ⟨seen, h, by simp, by simp⟩
  | a :: l, hl => by
    intro agenda seen all h hseen
    obtain ⟨mid, hmid, hmem, hfind⟩ := hl a List.mem_cons_self (l ++ agenda) seen all h fun b hb => by
      rw [List.mem_singleton.mp hb]
      exact hseen a List.mem_cons_self
    have hmem : ∀ x, x ∈ mid ↔ x ∈ seen ∨ Leads next a x := by simpa using hmem
    have hnext : ∀ b ∈ l, Exhausted next mid b := by
      intro b hb x hx hbx y hxy
      rw [hmem] at hx ⊢
      rcases hx with hx | hx
      · exact Or.inl (hseen b (List.mem_cons_of_mem a hb) x hx hbx y hxy)
      · exact Or.inr (hx.trans hxy)
    obtain ⟨mid', hmid', hmem', hfind'⟩ := passes_of_each (fun b hb => hl b (List.mem_cons_of_mem a hb))
      agenda mid all hmid hnext
    refine ⟨mid', hmid', fun x => ?_, ?_⟩
    · rw [hmem', hmem]
      simp [or_assoc]
    · rw [hfind', List.findSome?_append, hfind]
      simp [List.findSome?_append, Option.or_assoc]

variable {rank : α → Nat} (hrank : ∀ x, ∀ y ∈ next x, rank y < rank x)

section
include hrank

theorem rank_le_of_leads {x y : α} (h : Leads next x y) : rank y ≤ rank x := by
  induction h with
  | refl => exact Nat.le_refl _
  | tail _ hstep ih => exact Nat.le_trans (Nat.le_of_lt (hrank _ _ hstep)) ih

theorem Exhausted.below {seen : List α} {a b : α} (h : Exhausted next seen a) (hb : b ∈ next a) :
    Exhausted next (seen ++ [a]) b := by
  intro x hx hbx y hxy
  rcases List.mem_append.mp hx with hx | hx
  · exact List.mem_append_left _ (h x hx (.head hb hbx) y hxy)
  · -- no way leads back from `b` to `a`
    rw [List.mem_singleton.mp hx] at hbx
    have := rank_le_of_leads hrank hbx
    have := hrank a b hb
    omega

/-- Nodes of a low rank are searched in full, as what they put on the agenda has a lower rank. -/
theorem exists_finds_append {agenda : List α} (h : ∃ r, Finds next g agenda r) :
    ∀ (n : Nat) (l : List α), (∀ a ∈ l, rank a < n) → ∃ r, Finds next g (l ++ agenda) r
  | _, [], _ => h
  | 0, a :: _, hl => absurd (hl a List.mem_cons_self) (Nat.not_lt_zero _)
  | n + 1, a :: l, hl => by
    have hrest := exists_finds_append h (n + 1) l fun b hb => hl b (List.mem_cons_of_mem a hb)
    cases ha : g a with
    | some b => exact ⟨some b, .here ha⟩
    | none =>
      have hlt := hl a List.mem_cons_self
      obtain ⟨r, hr⟩ := exists_finds_append hrest n (next a) fun b hb => by
        have := hrank a b hb
        omega
      exact ⟨r, .further ha hr⟩
termination_by n l => (n, l.length)

theorem exists_finds (start : α) : ∃ r, Finds next g [start] r :=
  exists_finds_append hrank ⟨none, .nothing⟩ (rank start + 1) [start] (by simp)

end

variable (horder : ∀ x, order x = x :: (next x).flatMap order)
include horder

theorem Finds.eq {agenda : List α} {r : Option β} (h : Finds next g agenda r) :
    r = (agenda.flatMap order).findSome? g := by
  induction h with
  | nothing => rfl
  | here ha => simp [horder, ha]
  | further ha _ ih => simp [horder, ha, ih]

include hrank

theorem leads_of_mem_order {x y : α} (h : y ∈ order x) : Leads next x y := by
  induction hn : rank x using Nat.strongRecOn generalizing x with
  | ind n ih =>
    rw [horder, List.mem_cons, List.mem_flatMap] at h
    rcases h with rfl | ⟨z, hz, hy⟩
    · exact .refl
    · exact .head hz (ih _ (hn ▸ hrank x z hz) hy rfl)

theorem passes_node (a : α) : Passes next order g [a] := by
  induction hn : rank a using Nat.strongRecOn generalizing a with
  | ind n ih =>
    intro agenda seen all h hseen
    have hseen : Exhausted next seen a := hseen a List.mem_cons_self
    cases h with
    | skip ha h =>
      -- what `a` leads to was visited with it, so its order has no new hit
      have hsub : ∀ y, Leads next a y → y ∈ seen := hseen a ha .refl
      refine ⟨seen, h, fun x => by simpa using hsub x, (findSome?_append_of_subset fun x hx => ?_).symm⟩
      exact hsub x (leads_of_mem_order hrank horder (by simpa using hx))
    | expand ha h =>
      have hbelow : ∀ b ∈ next a, Passes next order g [b] := fun b hb => ih _ (hn ▸ hrank a b hb) b rfl
      obtain ⟨mid, hmid, hmem, hfind⟩ := passes_of_each hbelow agenda _ all h fun b hb =>
        hseen.below hrank hb
      refine ⟨mid, hmid, fun x => ?_, ?_⟩
      · rw [hmem]
        simp [leads_iff_head (a := a), or_assoc]
      · rw [hfind]
        simp [horder a]

theorem findSome?_of_visits {start : α} {all : List α} (h : Visits next .front [start] [] all) :
    all.findSome? g = (order start).findSome? g := by
  obtain ⟨mid, hmid, _, hfind⟩ := passes_node (g := g) hrank horder start [] [] all h
    fun a _ x hx => by cases hx
  cases hmid
  simpa using hfind

/-- A search need not know where it has been: it ends, with the first hit of the walk. -/
theorem finds_iff {start : α} {all : List α} (h : Visits next .front [start] [] all) {r : Option β} :
    Finds next g [start] r ↔ r = all.findSome? g := by
  have heq : ∀ r', Finds next g [start] r' → r' = all.findSome? g := by
    intro r' hr'
    rw [findSome?_of_visits hrank horder h, hr'.eq horder, List.flatMap_singleton]
  refine ⟨heq r, fun hr => ?_⟩
  obtain ⟨r', hr'⟩ := exists_finds (g := g) hrank start
  rwa [hr, ← heq r' hr']

end

end PointsTo.Walk
