import PointsTo.Proofs.Cycles

/-!
# Dispatch

What runs for a subsignature on an object is declared by the nearest superclass
that has a concrete method for it, and of the methods that one class declares
the last one counts. The way up to it comes to an end, as no class extends
itself.
-/

namespace PointsTo

/-! ## The last item of a table -/

def LastOf {α : Type} (a : Array α) (P : α → Prop) (i : Nat) : Prop :=
  (∃ x, a[i]? = some x ∧ P x) ∧ ∀ j y, a[j]? = some y → P y → j ≤ i

/-- In an ordered list the first hit comes before all others. -/
theorem find?_eq_some_of_pairwise {α : Type} {r : α → α → Prop} (hr : ∀ a b, r a b → ¬ r b a)
    {q : α → Bool} {b : α} : ∀ {l : List α}, l.Pairwise r →
      (l.find? q = some b ↔ b ∈ l ∧ q b = true ∧ ∀ c ∈ l, q c = true → c = b ∨ r b c)
  | [], _ => by simp
  | x :: l, h => by
    rw [List.pairwise_cons] at h
    have ih := find?_eq_some_of_pairwise hr (q := q) (b := b) h.2
    by_cases hx : q x = true
    · rw [List.find?_cons_of_pos hx]
      constructor
      · intro hb
        cases Option.some.inj hb
        exact ⟨List.mem_cons_self, hx, fun c hc _ => (List.mem_cons.mp hc).imp id (h.1 c)⟩
      · intro ⟨hb, _, hall⟩
        rcases List.mem_cons.mp hb with rfl | hb
        · rfl
        · rcases hall x List.mem_cons_self hx with rfl | hbx
          · rfl
          · exact absurd hbx (hr x b (h.1 b hb))
    · rw [List.find?_cons_of_neg hx, ih]
      constructor
      · intro ⟨hb, hq, hall⟩
        refine ⟨List.mem_cons_of_mem x hb, hq, fun c hc hqc => ?_⟩
        rcases List.mem_cons.mp hc with rfl | hc
        · exact absurd hqc hx
        · exact hall c hc hqc
      · intro ⟨hb, hq, hall⟩
        refine ⟨(List.mem_cons.mp hb).resolve_left fun he => hx (he ▸ hq), hq, fun c hc => ?_⟩
        exact hall c (List.mem_cons_of_mem x hc)

/-- The first item that gives something, by its place. -/
theorem findSome?_eq_some_iff_getElem? {α β : Type} {f : α → Option β} {b : β} {l : List α} :
    l.findSome? f = some b ↔ ∃ (n : Nat) (a : α), l[n]? = some a ∧ f a = some b ∧
      ∀ k < n, ∀ x, l[k]? = some x → f x = none := by
  constructor
  · intro h
    obtain ⟨l₁, a, l₂, rfl, ha, hall⟩ := List.findSome?_eq_some_iff.mp h
    refine ⟨l₁.length, a, by simp, ha, fun k hk x hx => hall x ?_⟩
    rw [List.getElem?_append_left hk] at hx
    exact List.mem_of_getElem? hx
  · intro ⟨n, a, ha, hfa, hall⟩
    obtain ⟨hn, rfl⟩ := List.getElem?_eq_some_iff.mp ha
    refine List.findSome?_eq_some_iff.mpr ⟨l.take n, l[n], l.drop (n + 1), by simp, hfa, fun x hx => ?_⟩
    obtain ⟨k, hk⟩ := List.mem_iff_getElem?.mp hx
    rw [List.getElem?_take] at hk
    by_cases hkn : k < n
    · rw [if_pos hkn] at hk
      exact hall k hkn x hk
    · simp [hkn] at hk

section
variable {α κ : Type} [BEq κ] [LawfulBEq κ] [Hashable κ]

theorem pairwise_zipIdx_reverse (a : Array α) :
    a.toList.zipIdx.reverse.Pairwise fun x y : α × Nat => y.2 < x.2 := by
  rw [List.pairwise_reverse]
  have h := List.pairwise_lt_range' (s := 0) (n := a.toList.length)
  rw [← List.zipIdx_map_snd 0 a.toList, List.pairwise_map] at h
  exact h

/-- An index by key has the last item of each key. -/
theorem getElem?_index {e : Entity} (a : Array α) (key : α → κ) (k : κ) (i : Id e) :
    (a.toList.zipIdx.foldl (fun index x => index.insert (key x.1) (⟨x.2⟩ : Id e))
      (∅ : Std.HashMap κ (Id e)))[k]? = some i ↔ LastOf a (fun x => key x = k) i.idx := by
  have hmem : ∀ x : α × Nat, x ∈ a.toList.zipIdx.reverse ↔ a[x.2]? = some x.1 := by
    intro x
    rw [List.mem_reverse, List.mem_zipIdx_iff_getElem?, Array.getElem?_toList]
  have hfind := fun b => find?_eq_some_of_pairwise (r := fun x y : α × Nat => y.2 < x.2)
    (fun _ _ => Nat.lt_asymm) (q := fun x => key x.1 == k) (b := b) (pairwise_zipIdx_reverse a)
  rw [getElem?_foldl_insert_eq (fun x : α × Nat => key x.1), Std.HashMap.getElem?_empty, Option.or_none,
    Option.map_eq_some_iff]
  constructor
  · intro ⟨x, hx, hi⟩
    obtain ⟨hx, hk, hall⟩ := (hfind x).mp hx
    subst hi
    refine ⟨⟨x.1, (hmem x).mp hx, by simpa using hk⟩, fun j y hy hky => ?_⟩
    rcases hall (y, j) ((hmem _).mpr hy) (by simpa using hky) with he | hlt
    · rw [← he]
    · exact Nat.le_of_lt hlt
  · intro ⟨⟨x, hx, hk⟩, hall⟩
    refine ⟨(x, i.idx), (hfind _).mpr ⟨(hmem _).mpr hx, by simpa using hk, fun y hy hky => ?_⟩, rfl⟩
    have hy := (hmem y).mp hy
    rcases Nat.eq_or_lt_of_le (hall y.2 y.1 hy (by simpa using hky)) with he | hlt
    · rw [he, hx] at hy
      exact Or.inl (Prod.ext (Option.some.inj hy).symm he)
    · exact Or.inr hlt

end

/-! ## What runs on an object -/

namespace Program
variable (p : Program)

def superclass? (c : ClassId) : Option ClassId := (p.class? c).bind (·.superclass)

/-- The superclass of `c` that is `n` steps up; `c` itself is none up. -/
def ancestor? : (n : Nat) → (c : ClassId) → Option ClassId
  | 0, c => some c
  | n + 1, c => (p.superclass? c).bind (ancestor? n)

def Declares (c : ClassId) (s : Subsignature) (m : MethodId) : Prop :=
  LastOf p.methods (fun method => method.cls = c ∧ method.subsignature = s) m.idx

def DeclaresConcrete (c : ClassId) (s : Subsignature) (m : MethodId) : Prop :=
  p.Declares c s m ∧ ∃ method, p.method? m = some method ∧ method.isAbstract = false

/-- The nearest of `c` and its superclasses with a concrete method for `s` declares `m`. -/
def Runs (c : ClassId) (s : Subsignature) (m : MethodId) : Prop :=
  ∃ n d, p.ancestor? n c = some d ∧ p.DeclaresConcrete d s m ∧
    ∀ k < n, ∀ e, p.ancestor? k c = some e → ∀ m', ¬ p.DeclaresConcrete e s m'

variable {p}

theorem supertype_of_superclass? {c d : ClassId} (h : p.superclass? c = some d) : d ∈ p.supertypes c := by
  obtain ⟨cls, hc, hs⟩ := Option.bind_eq_some_iff.mp h
  simp [supertypes, hc, Class.supertypes, hs]

theorem ancestor?_succ (n : Nat) (c : ClassId) :
    p.ancestor? (n + 1) c = (p.superclass? c).bind (p.ancestor? n) := rfl

theorem ancestor?_add (n k : Nat) (c : ClassId) :
    p.ancestor? (n + k) c = (p.ancestor? n c).bind (p.ancestor? k) := by
  induction n generalizing c with
  | zero => simp [ancestor?]
  | succ n ih =>
    rw [Nat.succ_add, ancestor?_succ, ancestor?_succ]
    cases p.superclass? c with
    | none => rfl
    | some d => exact ih d

theorem transGen_of_ancestor? {n : Nat} {c d : ClassId} (h : p.ancestor? (n + 1) c = some d) :
    Relation.TransGen (fun a b => b ∈ p.supertypes a) c d := by
  obtain ⟨b, hb, hd⟩ := Option.bind_eq_some_iff.mp h
  have hstep := supertype_of_superclass? hb
  cases n with
  | zero =>
    cases Option.some.inj hd
    exact .single hstep
  | succ n => exact .head hstep (transGen_of_ancestor? hd)

section
variable {c d : ClassId} {n k : Nat} (h : p.ancestor? n c = some d) (hk : k < n)
include h hk

theorem ancestor?_of_lt : ∃ e j, p.ancestor? k c = some e ∧ p.ancestor? (j + 1) e = some d := by
  obtain ⟨j, rfl⟩ := Nat.exists_eq_add_of_lt hk
  rw [Nat.add_assoc, ancestor?_add] at h
  obtain ⟨e, he, hd⟩ := Option.bind_eq_some_iff.mp h
  exact ⟨e, j, he, hd⟩

theorem lt_of_ancestor? {e : ClassId} (he : p.ancestor? k c = some e) : e.idx < p.classes.size := by
  obtain ⟨e', j, he', hd⟩ := ancestor?_of_lt h hk
  cases Option.some.inj (he.symm.trans he')
  obtain ⟨b, hb, _⟩ := Option.bind_eq_some_iff.mp hd
  obtain ⟨cls, hcls, _⟩ := Option.bind_eq_some_iff.mp hb
  exact (Array.getElem?_eq_some_iff.mp hcls).1

theorem ancestor?_ne (hp : p.Acyclic) : p.ancestor? k c ≠ some d := by
  intro he
  obtain ⟨e, j, he', hd⟩ := ancestor?_of_lt h hk
  cases Option.some.inj (he.symm.trans he')
  exact hp d (transGen_of_ancestor? hd)

end

/-- Without a cycle no class has more superclasses than there are classes. -/
theorem le_of_ancestor? (hp : p.Acyclic) {n : Nat} {c d : ClassId} (h : p.ancestor? n c = some d) :
    n ≤ p.classes.size := by
  have hall : ∀ k < n, ∃ e, p.ancestor? k c = some e := by
    intro k hk
    obtain ⟨e, _, he, _⟩ := ancestor?_of_lt h hk
    exact ⟨e, he⟩
  -- Below `n` the chain has a known class at every step, and none of them twice.
  have hcard := Finset.card_le_card_of_injOn (s := Finset.range n) (t := Finset.range p.classes.size)
    (fun k => ((p.ancestor? k c).map Id.idx).getD 0) ?_ ?_
  · simpa using hcard
  · intro k hk
    have hk : k < n := by simpa using hk
    obtain ⟨e, he⟩ := hall k hk
    simpa [he] using lt_of_ancestor? h hk he
  · intro i hi j hj hij
    have hi : i < n := by simpa using hi
    have hj : j < n := by simpa using hj
    obtain ⟨a, ha⟩ := hall i hi
    obtain ⟨b, hb⟩ := hall j hj
    have hab : a = b := Id.ext_idx (by simpa [ha, hb] using hij)
    subst hab
    rcases Nat.lt_trichotomy i j with hlt | he | hlt
    · exact absurd ha (ancestor?_ne hb hlt hp)
    · exact he
    · exact absurd hb (ancestor?_ne ha hlt hp)

end Program

namespace Hierarchy
variable {p : Program}

theorem declaredMethod?_iff {c : ClassId} {s : Subsignature} {m : MethodId} :
    (ofProgram p).declaredMethod? c s = some m ↔ p.Declares c s m := by
  unfold Program.Declares
  simp only [← Prod.mk.injEq]
  exact getElem?_index p.methods (fun method => (method.cls, method.subsignature)) (c, s) m

theorem concreteMethod?_iff {c : ClassId} {s : Subsignature} {m : MethodId} :
    (ofProgram p).concreteMethod? c s = some m ↔ p.DeclaresConcrete c s m := by
  unfold concreteMethod? isAbstract?
  rw [Option.filter_eq_some_iff, declaredMethod?_iff]
  refine and_congr_right fun _ => ?_
  rw [decide_eq_true_eq, Option.map_eq_some_iff]
  rfl

theorem getElem?_superclassesUpTo : ∀ (n k : Nat) (c : ClassId),
    ((ofProgram p).superclassesUpTo n c)[k]? = if k < n then p.ancestor? k c else none
  | 0, k, c => by simp [superclassesUpTo]
  | n + 1, 0, c => by simp [superclassesUpTo, Program.ancestor?]
  | n + 1, k + 1, c => by
    rw [superclassesUpTo, List.getElem?_cons_succ, Program.ancestor?_succ]
    show (((p.superclass? c).map ((ofProgram p).superclassesUpTo n)).getD [])[k]? = _
    cases p.superclass? c with
    | none => simp
    | some d => simp [getElem?_superclassesUpTo n k d]

theorem getElem?_superclasses (hp : p.Acyclic) (k : Nat) (c : ClassId) :
    ((ofProgram p).superclasses c)[k]? = p.ancestor? k c := by
  unfold superclasses
  rw [getElem?_superclassesUpTo]
  split
  · rfl
  · rename_i hk
    cases hd : p.ancestor? k c with
    | none => rfl
    | some d => exact absurd (Nat.lt_succ_of_le (Program.le_of_ancestor? hp hd)) hk

theorem dispatch?_iff (hp : p.Acyclic) {c : ClassId} {s : Subsignature} {m : MethodId} :
    (ofProgram p).dispatch? c s = some m ↔ p.Runs c s m := by
  unfold dispatch? Program.Runs
  rw [findSome?_eq_some_iff_getElem?]
  simp only [getElem?_superclasses hp, concreteMethod?_iff, Option.eq_none_iff_forall_ne_some, ne_eq]

theorem superclasses_eq (hp : p.Acyclic) (c : ClassId) : (ofProgram p).superclasses c =
    c :: ((p.superclass? c).map (ofProgram p).superclasses).getD [] := by
  apply List.ext_getElem?
  intro k
  rw [getElem?_superclasses hp]
  cases k with
  | zero => rfl
  | succ k =>
    rw [List.getElem?_cons_succ, Program.ancestor?_succ]
    cases p.superclass? c with
    | none => rfl
    | some d => exact (getElem?_superclasses hp k d).symm

theorem dispatch?_eq (hp : p.Acyclic) (c : ClassId) (s : Subsignature) : (ofProgram p).dispatch? c s =
    ((ofProgram p).concreteMethod? c s).or ((p.superclass? c).bind ((ofProgram p).dispatch? · s)) := by
  unfold dispatch?
  rw [superclasses_eq hp, List.findSome?_cons]
  cases (ofProgram p).concreteMethod? c s with
  | some m => rfl
  | none => cases p.superclass? c <;> rfl

/-! ## The way up -/

/-- The way up to the method that runs, turn by turn, however long it is. -/
inductive Climbs (h : Hierarchy) (s : Subsignature) : Option ClassId → Option MethodId → Prop
  | out : Climbs h s none none
  | here {c : ClassId} {m : MethodId} : h.concreteMethod? c s = some m → Climbs h s (some c) (some m)
  | up {c : ClassId} {r : Option MethodId} : h.concreteMethod? c s = none → Climbs h s (h.superclass? c) r →
      Climbs h s (some c) r

theorem Climbs.det {h : Hierarchy} {s : Subsignature} {c : Option ClassId} {r r' : Option MethodId}
    (hr : h.Climbs s c r) (hr' : h.Climbs s c r') : r = r' := by
  induction hr with
  | out => cases hr'; rfl
  | here hm =>
    cases hr' with
    | here hm' => exact hm.symm.trans hm'
    | up hm' => rw [hm] at hm'; cases hm'
  | up hm _ ih =>
    cases hr' with
    | here hm' => rw [hm] at hm'; cases hm'
    | up _ hr' => exact ih hr'

theorem climbs_dispatch? (hp : p.Acyclic) (s : Subsignature) (c : ClassId) :
    (ofProgram p).Climbs s (some c) ((ofProgram p).dispatch? c s) := by
  induction Program.founded_of_acyclic hp c with
  | intro c _ ih =>
    rw [dispatch?_eq hp]
    cases hm : (ofProgram p).concreteMethod? c s with
    | some m => exact .here hm
    | none =>
      refine .up hm ?_
      show (ofProgram p).Climbs s (p.superclass? c) _
      cases hd : p.superclass? c with
      | none => exact .out
      | some d => exact ih d (Program.supertype_of_superclass? hd)

theorem climbs_iff (hp : p.Acyclic) {s : Subsignature} {c : ClassId} {r : Option MethodId} :
    (ofProgram p).Climbs s (some c) r ↔ r = (ofProgram p).dispatch? c s := by
  have hclimbs := climbs_dispatch? hp s c
  exact ⟨fun h => h.det hclimbs, fun h => h ▸ hclimbs⟩

end Hierarchy

end PointsTo
