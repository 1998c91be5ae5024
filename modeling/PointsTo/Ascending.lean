import PointsTo.Id

/-!
# Ascending lists of identifiers

A strictly ascending list holds each member once, so two such lists with the same members are equal.
Both operands of an operation are ascending, so each is read once.
-/

namespace PointsTo.Ascending
variable {e : Entity}

abbrev Asc (xs : List (Id e)) : Prop := xs.Pairwise (· < ·)

/-- What is left of `xs` once the members below `y` are passed. -/
def dropBelow (y : Id e) (xs : List (Id e)) : List (Id e) := xs.dropWhile (· < y)

/-- What is left of `xs` once the members up to `y` are passed. -/
def dropUpTo (y : Id e) (xs : List (Id e)) : List (Id e) :=
  xs.dropWhile fun x => x < y ∨ x = y

def union (xs : List (Id e)) : List (Id e) → List (Id e)
  | [] => xs
  | y :: ys => xs.takeWhile (· < y) ++ y :: union (dropUpTo y xs) ys

/-- The members of the second list that are not in the first. -/
def fresh (xs : List (Id e)) : List (Id e) → List (Id e)
  | [] => []
  | y :: ys =>
    match dropBelow y xs with
    | [] => y :: ys
    | x :: rest => if x = y then fresh rest ys else y :: fresh (x :: rest) ys

def meet (xs : List (Id e)) : List (Id e) → Bool
  | [] => false
  | y :: ys => (dropBelow y xs).head? = some y || meet (dropBelow y xs) ys

/-- The union; the first list itself if it holds all of the second. -/
def join (xs ys : List (Id e)) : List (Id e) := if (fresh xs ys).isEmpty then xs else union xs ys

/-- One walk over two ascending lists: the members of both, and those of the second that are not in the
first. -/
def merge : List (Id e) → List (Id e) → List (Id e) × List (Id e)
  | [], ys => (ys, ys)
  | x :: xs, ys => ahead x xs (merge xs) ys
where
  /-- The walk that stands before `x`; `walk` goes over the `xs` after it. -/
  ahead (x : Id e) (xs : List (Id e)) (walk : List (Id e) → List (Id e) × List (Id e)) :
      List (Id e) → List (Id e) × List (Id e)
    | [] => (x :: xs, [])
    | y :: ys =>
      if x < y then
        let (all, new) := walk (y :: ys)
        (x :: all, new)
      else if y < x then
        let (all, new) := ahead x xs walk ys
        (y :: all, y :: new)
      else
        let (all, new) := walk ys
        (x :: all, new)

section
variable {xs ys : List (Id e)} {y z : Id e}

theorem mem_dropUpTo (h : Asc xs) : z ∈ dropUpTo y xs ↔ z ∈ xs ∧ y < z := by
  induction xs with
  | nil => simp [dropUpTo]
  | cons x xs ih =>
    have ⟨hx, hxs⟩ := List.pairwise_cons.mp h
    have ih := ih hxs
    simp only [dropUpTo, List.dropWhile_cons] at ih ⊢
    grind [Id.lt_def, Id.ext_idx]

theorem mem_dropBelow (h : Asc xs) : z ∈ dropBelow y xs ↔ z ∈ xs ∧ (y < z ∨ z = y) := by
  induction xs with
  | nil => simp [dropBelow]
  | cons x xs ih =>
    have ⟨hx, hxs⟩ := List.pairwise_cons.mp h
    have ih := ih hxs
    simp only [dropBelow, List.dropWhile_cons] at ih ⊢
    grind [Id.lt_def, Id.ext_idx]

theorem mem_takeWhile_lt (h : Asc xs) : z ∈ xs.takeWhile (· < y) ↔ z ∈ xs ∧ z < y := by
  induction xs with
  | nil => simp
  | cons x xs ih =>
    have ⟨hx, hxs⟩ := List.pairwise_cons.mp h
    have ih := ih hxs
    simp only [List.takeWhile_cons]
    grind [Id.lt_def, Id.ext_idx]

theorem asc_dropUpTo (h : Asc xs) (y : Id e) : Asc (dropUpTo y xs) :=
  h.sublist (List.dropWhile_sublist _)

theorem asc_dropBelow (h : Asc xs) (y : Id e) : Asc (dropBelow y xs) :=
  h.sublist (List.dropWhile_sublist _)

theorem head?_dropBelow (h : Asc xs) : (dropBelow y xs).head? = some y ↔ y ∈ xs := by
  have hm := fun z => @mem_dropBelow _ xs y z h
  have ha := asc_dropBelow h y
  cases e : dropBelow y xs with
  | nil => have := hm y; grind
  | cons x l =>
    have ⟨h₁, h₂⟩ := List.pairwise_cons.mp (e ▸ ha)
    have := hm x
    have := hm y
    grind [Id.lt_def, Id.ext_idx]

theorem mem_union (hx : Asc xs) (hy : Asc ys) : z ∈ union xs ys ↔ z ∈ xs ∨ z ∈ ys := by
  induction ys generalizing xs with
  | nil => simp [union]
  | cons y ys ih =>
    have ⟨_, h₂⟩ := List.pairwise_cons.mp hy
    have := ih (asc_dropUpTo hx y) h₂
    simp only [union, List.mem_append, List.mem_cons, this, mem_dropUpTo hx, mem_takeWhile_lt hx]
    grind [Id.lt_def, Id.ext_idx]

theorem asc_union (hx : Asc xs) (hy : Asc ys) : Asc (union xs ys) := by
  induction ys generalizing xs with
  | nil => exact hx
  | cons y ys ih =>
    have ⟨h₁, h₂⟩ := List.pairwise_cons.mp hy
    have hu := ih (asc_dropUpTo hx y) h₂
    have hm := fun z => @mem_union _ _ _ z (asc_dropUpTo hx y) h₂
    have hb := fun z => @mem_takeWhile_lt _ xs y z hx
    have hf := fun z => @mem_dropUpTo _ xs y z hx
    refine List.pairwise_append.mpr
      ⟨hx.sublist (List.takeWhile_sublist _), List.pairwise_cons.mpr ⟨?_, hu⟩, ?_⟩
    · grind [Id.lt_def, Id.ext_idx]
    · grind [Id.lt_def, Id.ext_idx]

theorem mem_fresh (hx : Asc xs) (hy : Asc ys) : z ∈ fresh xs ys ↔ z ∈ ys ∧ z ∉ xs := by
  induction ys generalizing xs with
  | nil => simp [fresh]
  | cons y ys ih =>
    have ⟨h₁, h₂⟩ := List.pairwise_cons.mp hy
    have ha := asc_dropBelow hx y
    have hf := fun z => @mem_dropBelow _ xs y z hx
    rw [fresh]
    split
    · rename_i he
      have := he ▸ hf z
      grind
    · rename_i x rest he
      rw [he] at ha hf
      have := hf z
      have ⟨h₃, h₄⟩ := List.pairwise_cons.mp ha
      have := hf x
      split
      · have := ih h₄ h₂
        grind [Id.lt_def, Id.ext_idx]
      · have := ih ha h₂
        have := hf y
        grind [Id.lt_def, Id.ext_idx]

theorem fresh_sublist (xs ys : List (Id e)) : (fresh xs ys).Sublist ys := by
  induction ys generalizing xs with
  | nil => simp [fresh]
  | cons y ys ih =>
    rw [fresh]
    split
    · exact List.Sublist.refl _
    · split
      · exact (ih _).cons y
      · exact (ih _).cons_cons y

theorem meet_eq_true (hx : Asc xs) (hy : Asc ys) : meet xs ys = true ↔ ∃ z, z ∈ xs ∧ z ∈ ys := by
  induction ys generalizing xs with
  | nil => simp [meet]
  | cons y ys ih =>
    have ⟨h₁, h₂⟩ := List.pairwise_cons.mp hy
    have ib := ih (asc_dropBelow hx y) h₂
    have hf := fun z => @mem_dropBelow _ xs y z hx
    have hh := @head?_dropBelow _ xs y hx
    simp only [meet, Bool.or_eq_true, decide_eq_true_eq, ib, hh]
    grind [Id.lt_def, Id.ext_idx]

theorem eq_of_mem_iff (hx : Asc xs) (hy : Asc ys) (h : ∀ z, z ∈ xs ↔ z ∈ ys) : xs = ys := by
  induction xs generalizing ys with
  | nil =>
    cases ys with
    | nil => rfl
    | cons y ys => have := h y; simp at this
  | cons x xs ih =>
    cases ys with
    | nil => have := h x; simp at this
    | cons y ys =>
      have ⟨h₁, h₂⟩ := List.pairwise_cons.mp hx
      have ⟨h₃, h₄⟩ := List.pairwise_cons.mp hy
      have e : x = y := by have := h x; have := h y; grind [Id.lt_def, Id.ext_idx]
      subst e
      rw [ih h₂ h₄ fun z => by have := h z; grind [Id.lt_def]]

theorem join_eq_union (hx : Asc xs) (hy : Asc ys) : join xs ys = union xs ys := by
  rw [join]
  split
  · rename_i h
    refine eq_of_mem_iff hx (asc_union hx hy) fun z => ?_
    have := mem_fresh hx hy (z := z)
    have := mem_union hx hy (z := z)
    grind
  · rfl

end

/-! ## One walk over both lists -/

section
variable {xs ys : List (Id e)} {x y : Id e}

theorem merge_of_lt (h : x < y) : merge (x :: xs) (y :: ys) =
    (x :: (merge xs (y :: ys)).1, (merge xs (y :: ys)).2) := if_pos h

theorem merge_of_gt (h : y < x) : merge (x :: xs) (y :: ys) =
    (y :: (merge (x :: xs) ys).1, y :: (merge (x :: xs) ys).2) :=
  (if_neg (Nat.lt_asymm h)).trans (if_pos h)

theorem merge_self : merge (x :: xs) (x :: ys) = (x :: (merge xs ys).1, (merge xs ys).2) :=
  (if_neg (Nat.lt_irrefl _)).trans (if_neg (Nat.lt_irrefl _))

theorem union_nil_left : ∀ ys : List (Id e), union [] ys = ys
  | [] => rfl
  | y :: ys => by simp [union, dropUpTo, union_nil_left ys]

theorem dropUpTo_of_lt (h : ∀ x ∈ xs, y < x) : dropUpTo y xs = xs := by
  cases xs with
  | nil => rfl
  | cons x xs =>
    have hlt := h x List.mem_cons_self
    refine List.dropWhile_cons_of_neg fun hd => ?_
    rcases of_decide_eq_true hd with hlt' | rfl
    · exact Nat.lt_asymm hlt hlt'
    · exact Nat.lt_irrefl _ hlt

/-- The walk comes to the union and to what is new in it. -/
theorem merge_eq (hx : Asc xs) (ys : List (Id e)) : merge xs ys = (union xs ys, fresh xs ys) := by
  induction xs generalizing ys with
  | nil => cases ys <;> simp [merge, union_nil_left, fresh, dropBelow]
  | cons x xs ihx =>
    obtain ⟨hlt, hxs⟩ := List.pairwise_cons.mp hx
    induction ys with
    | nil => rfl
    | cons y ys ihy =>
      by_cases hxy : x < y
      · rw [merge_of_lt hxy, ihx hxs]
        simp [union, fresh, dropBelow, dropUpTo, hxy]
      · by_cases hyx : y < x
        · have hne : x ≠ y := fun he => Nat.lt_irrefl _ (he ▸ hyx)
          rw [merge_of_gt hyx, ihy]
          simp [union, fresh, dropBelow, dropUpTo, hxy, hne]
        · obtain rfl : x = y := Id.ext_idx (Nat.le_antisymm (Nat.le_of_not_lt hyx) (Nat.le_of_not_lt hxy))
          have hdrop : dropUpTo x (x :: xs) = xs := by
            rw [dropUpTo, List.dropWhile_cons_of_pos (by simp)]
            exact dropUpTo_of_lt hlt
          have hbelow : dropBelow x (x :: xs) = x :: xs := List.dropWhile_cons_of_neg (by simp [hxy])
          rw [merge_self, ihx hxs, union, hdrop, fresh, hbelow]
          simp [hxy]

theorem asc_merge_fst (hx : Asc xs) (hy : Asc ys) : Asc (merge xs ys).1 := by
  rw [merge_eq hx]
  exact asc_union hx hy

theorem asc_merge_snd (hx : Asc xs) (hy : Asc ys) : Asc (merge xs ys).2 := by
  rw [merge_eq hx]
  exact hy.sublist (fresh_sublist _ _)

end

/-! ## Search -/

/-- Whether `y` is in an ascending list, and how many members are below it. Of each list only the
half is searched in which `y` can stand. -/
def search (y : Id e) (xs : List (Id e)) : Bool × Nat :=
  match h : xs.drop (xs.length / 2) with
  | [] => (false, 0)
  | x :: after =>
    if x = y then (true, xs.length / 2)
    else if x < y then
      let (found, i) := search y after
      (found, xs.length / 2 + 1 + i)
    else search y (xs.take (xs.length / 2))
termination_by xs.length
decreasing_by all_goals have := congrArg List.length h; grind

section
variable {xs before after : List (Id e)} {x y : Id e}

theorem lt_of_asc_append (h : Asc (before ++ x :: after)) :
    (∀ b ∈ before, b < x) ∧ (∀ a ∈ after, x < a) ∧ Asc before ∧ Asc after := by
  obtain ⟨hbefore, hafter, hcross⟩ := List.pairwise_append.mp h
  obtain ⟨hx, hafter⟩ := List.pairwise_cons.mp hafter
  exact ⟨fun b hb => hcross b hb x List.mem_cons_self, hx, hbefore, hafter⟩

theorem takeWhile_append_of_lt (h : Asc (before ++ x :: after)) (hx : x < y) :
    (before ++ x :: after).takeWhile (· < y) = before ++ x :: after.takeWhile (· < y) := by
  obtain ⟨hbefore, _⟩ := lt_of_asc_append h
  rw [List.takeWhile_append_of_pos, List.takeWhile_cons_of_pos (by simpa using hx)]
  intro b hb
  exact decide_eq_true (Nat.lt_trans (hbefore b hb) hx)

theorem takeWhile_append_of_not_lt (hx : ¬ x < y) :
    (before ++ x :: after).takeWhile (· < y) = before.takeWhile (· < y) := by
  rw [List.takeWhile_append, List.takeWhile_cons_of_neg (by simpa using hx), List.append_nil]
  split
  · rename_i hall
    exact ((List.takeWhile_prefix _).eq_of_length hall).symm
  · rfl

/-- The halves of a list that is not empty. -/
theorem halves (hd : xs.drop (xs.length / 2) = x :: after) :
    xs = xs.take (xs.length / 2) ++ x :: after ∧ (xs.take (xs.length / 2)).length = xs.length / 2 := by
  rw [← hd, List.take_append_drop, List.length_take]
  exact ⟨rfl, by omega⟩

theorem search_eq (h : Asc xs) : search y xs = (decide (y ∈ xs), (xs.takeWhile (· < y)).length) := by
  fun_induction search y xs with
  | case1 xs hd =>
    have hnil : xs = [] := by
      have := List.drop_eq_nil_iff.mp hd
      exact List.eq_nil_of_length_eq_zero (by omega)
    simp [hnil]
  | case2 xs after hd =>
    obtain ⟨hxs, hlen⟩ := halves hd
    generalize xs.take (xs.length / 2) = before at hxs hlen
    rw [← hlen]
    subst hxs
    obtain ⟨hbefore, _⟩ := lt_of_asc_append h
    rw [List.takeWhile_append_of_pos fun b hb => decide_eq_true (hbefore b hb)]
    simp [Id.lt_def]
  | case3 xs x after hd hne hlt found i hs ih =>
    obtain ⟨hxs, hlen⟩ := halves hd
    generalize xs.take (xs.length / 2) = before at hxs hlen
    rw [← hlen]
    subst hxs
    obtain ⟨hbefore, _, _, hafter⟩ := lt_of_asc_append h
    obtain ⟨rfl, rfl⟩ := Prod.mk.inj (hs.symm.trans (ih hafter))
    have hmem : y ∈ before ++ x :: after ↔ y ∈ after := by
      have := hbefore y
      grind [Id.lt_def]
    rw [takeWhile_append_of_lt h hlt, decide_eq_decide.mpr hmem, List.length_append, List.length_cons]
    exact Prod.ext rfl (by omega)
  | case4 xs x after hd hne hlt ih =>
    obtain ⟨hxs, _⟩ := halves hd
    generalize xs.take (xs.length / 2) = before at hxs ih ⊢
    subst hxs
    obtain ⟨_, hafter, hbefore, _⟩ := lt_of_asc_append h
    have hmem : y ∈ before ++ x :: after ↔ y ∈ before := by
      have := hafter y
      grind [Id.lt_def]
    rw [ih hbefore, takeWhile_append_of_not_lt hlt, decide_eq_decide.mpr hmem]

theorem takeWhile_length (p : Id e → Bool) : ∀ xs : List (Id e),
    xs.take (xs.takeWhile p).length = xs.takeWhile p ∧ xs.drop (xs.takeWhile p).length = xs.dropWhile p
  | [] => ⟨rfl, rfl⟩
  | x :: xs => by
    by_cases hx : p x = true
    · simp [hx, takeWhile_length p xs]
    · simp [hx]

/-- Before the member that is missing stand those below it, and after it those above. -/
theorem asc_insertAt (h : Asc xs) {i : Nat} (hs : search y xs = (false, i)) :
    Asc (xs.take i ++ y :: xs.drop i) := by
  obtain ⟨hy, rfl⟩ := Prod.mk.inj ((search_eq h).symm.trans hs)
  rw [(takeWhile_length _ xs).1, (takeWhile_length _ xs).2]
  have hbelow : ∀ b ∈ xs.takeWhile (· < y), b < y := fun b hb => ((mem_takeWhile_lt h).mp hb).2
  have habove : ∀ a ∈ dropBelow y xs, y < a := by
    intro a ha
    obtain ⟨hmem, hlt | rfl⟩ := (mem_dropBelow h).mp ha
    · exact hlt
    · exact absurd hmem (of_decide_eq_false hy)
  refine List.pairwise_append.mpr ⟨h.sublist (List.takeWhile_sublist _),
    List.pairwise_cons.mpr ⟨habove, asc_dropBelow h y⟩, fun b hb a ha => ?_⟩
  rcases List.mem_cons.mp ha with rfl | ha
  · exact hbelow b hb
  · exact Nat.lt_trans (hbelow b hb) (habove a ha)

theorem mem_insertAt {i : Nat} {z : Id e} : z ∈ xs.take i ++ y :: xs.drop i ↔ z = y ∨ z ∈ xs := by
  conv => rhs; rw [← List.take_append_drop i xs]
  simp only [List.mem_append, List.mem_cons]
  exact or_left_comm

end

/-! ## Any list -/

/-- Leaves out what repeats the member before it. -/
def collapse : List (Id e) → List (Id e)
  | [] => []
  | x :: xs => x :: dropUpTo x (collapse xs)

/-- The members of any list in ascending order, each once. -/
def ofList (xs : List (Id e)) : List (Id e) := collapse (xs.mergeSort fun a b => a.idx ≤ b.idx)

section
variable {xs : List (Id e)} {z : Id e}

theorem asc_collapse (xs : List (Id e)) : Asc (collapse xs) := by
  induction xs with
  | nil => exact List.Pairwise.nil
  | cons x xs ih =>
    exact List.pairwise_cons.mpr ⟨fun z hz => ((mem_dropUpTo ih).mp hz).2, asc_dropUpTo ih x⟩

theorem mem_collapse (h : xs.Pairwise fun a b => a.idx ≤ b.idx) : z ∈ collapse xs ↔ z ∈ xs := by
  induction xs with
  | nil => simp [collapse]
  | cons x xs ih =>
    have ⟨hx, hxs⟩ := List.pairwise_cons.mp h
    have := hx z
    simp only [collapse, List.mem_cons, mem_dropUpTo (asc_collapse xs), ih hxs]
    grind [Id.lt_def, Id.ext_idx]

theorem pairwise_sorted (xs : List (Id e)) :
    (xs.mergeSort fun a b => a.idx ≤ b.idx).Pairwise fun a b => a.idx ≤ b.idx := by
  have h := @List.pairwise_mergeSort _ (fun a b : Id e => decide (a.idx ≤ b.idx))
    (fun _ _ _ h₁ h₂ => by simp at *; omega) (fun a b => by simp; omega) xs
  exact h.imp fun h => by simpa using h

theorem asc_ofList (xs : List (Id e)) : Asc (ofList xs) := asc_collapse _

@[simp] theorem mem_ofList : z ∈ ofList xs ↔ z ∈ xs := by
  rw [ofList, mem_collapse (pairwise_sorted xs), List.mem_mergeSort]

end

end PointsTo.Ascending
