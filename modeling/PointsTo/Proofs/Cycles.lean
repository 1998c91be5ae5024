import Mathlib.Data.Finset.Card
import Mathlib.Data.Finset.Range
import PointsTo.Proofs.Validity
import PointsTo.Proofs.Walks

/-!
# The search for cycles is exact

A class is on the path while the search is above it, and done when the search
comes back. The path leads to the class at hand, so a step back onto it closes a
cycle. From a class that is done every way up ends, so without such a step there
is no cycle. Each visit takes a class that was not visited before, and these
bound the depth of the search. So the search comes to its end also without a
bound, over a path that is kept in a list.
-/

namespace PointsTo

/-! ## Two ways to end -/

section
variable {ε ε' α β : Type}

def Yields (x : Except ε α) (Q : α → Prop) (E : ε → Prop) : Prop :=
  match x with
  | .ok a => Q a
  | .error e => E e

section
variable {x : Except ε α} {Q R : α → Prop} {E : ε → Prop} (h : Yields x Q E)
include h

theorem Yields.ok {a : α} (hx : x = .ok a) : Q a := by
  subst hx; exact h

theorem Yields.error {e : ε} (hx : x = .error e) : E e := by
  subst hx; exact h

theorem Yields.mono (hQ : ∀ a, Q a → R a) : Yields x R E := by
  cases x with
  | error e => exact h
  | ok a => exact hQ a h

theorem Yields.bind {f : α → Except ε β} {S : β → Prop} (hf : ∀ a, Q a → Yields (f a) S E) :
    Yields (x >>= f) S E := by
  cases x with
  | error e => exact h
  | ok a => exact hf a h

end

/-- Two folds agree, up to their failures, if their steps do wherever the invariant holds. -/
theorem foldlM_mapError {f : β → α → Except ε' β} {g : β → α → Except ε β} {h : ε → ε'} {I : β → Prop} :
    ∀ {l : List α} {b : β}, I b → (∀ x ∈ l, ∀ b, I b → f b x = (g b x).mapError h) →
      (∀ x ∈ l, ∀ b c, I b → g b x = .ok c → I c) → l.foldlM f b = (l.foldlM g b).mapError h
  | [], b, _, _, _ => rfl
  | x :: l, b, hb, hstep, hkeep => by
    have hx := hstep x List.mem_cons_self b hb
    have hI := hkeep x List.mem_cons_self b
    rw [List.foldlM_cons, List.foldlM_cons, hx]
    cases hg : g b x with
    | error e => rfl
    | ok c =>
      exact foldlM_mapError (hI c hb hg) (fun y hy => hstep y (List.mem_cons_of_mem x hy))
        fun y hy => hkeep y (List.mem_cons_of_mem x hy)

theorem mapError_id (x : Except ε α) : x.mapError id = x := by
  cases x <;> rfl

end

namespace Program

/-! ## Marks -/

namespace Marks
variable {marks a b c : Marks}

theorem lt_of_ne_done {c : ClassId} (h : marks.of c ≠ .done) : c.idx < marks.size := by
  by_contra hc
  simp [of, hc] at h

theorem of_set {c d : ClassId} {m : Mark} (h : marks.of c ≠ .done) :
    Marks.of (marks.setIfInBounds c.idx m) d = if d = c then m else marks.of d := by
  have hc := lt_of_ne_done h
  unfold of
  by_cases hd : d = c
  · simp [hd, hc]
  · have hne : c.idx ≠ d.idx := fun he => hd (Id.ext_idx he.symm)
    simp [hd, hne]

/-- The only news is that some classes are done. -/
structure Settles (a b : Marks) : Prop where
  size : b.size = a.size
  mark : ∀ d, b.of d = a.of d ∨ a.of d = .unvisited ∧ b.of d = .done

theorem Settles.refl (a : Marks) : a.Settles a := ⟨rfl, fun _ => Or.inl rfl⟩

theorem Settles.trans (hab : a.Settles b) (hbc : b.Settles c) : a.Settles c := by
  refine ⟨hbc.size.trans hab.size, fun d => ?_⟩
  rcases hab.mark d with h | h <;> rcases hbc.mark d with h' | h' <;> simp_all

theorem Settles.done (h : a.Settles b) {d : ClassId} (hd : a.of d = .done) : b.of d = .done := by
  rcases h.mark d with h | h <;> simp_all

theorem Settles.onPath (h : a.Settles b) {d : ClassId} : b.of d = .onPath ↔ a.of d = .onPath := by
  rcases h.mark d with h | h <;> simp [h]

def pending (marks : Marks) : Finset Nat := {i ∈ Finset.range marks.size | marks.of ⟨i⟩ = .unvisited}

theorem mem_pending {c : ClassId} : c.idx ∈ marks.pending ↔ marks.of c = .unvisited := by
  unfold pending
  rw [Finset.mem_filter, Finset.mem_range]
  exact ⟨fun h => h.2, fun h => ⟨lt_of_ne_done (by simp [h]), h⟩⟩

theorem Settles.pending (h : a.Settles b) : b.pending ⊆ a.pending := by
  intro i hi
  rw [mem_pending (c := ⟨i⟩)] at hi ⊢
  rcases h.mark ⟨i⟩ with h | h <;> simp_all

theorem card_pending_set {c : ClassId} (h : marks.of c = .unvisited) :
    (Marks.pending (marks.setIfInBounds c.idx .onPath)).card < marks.pending.card := by
  have hof : ∀ d, Marks.of (marks.setIfInBounds c.idx .onPath) d = if d = c then .onPath else marks.of d :=
    fun d => of_set (by simp [h])
  apply Finset.card_lt_card
  rw [Finset.ssubset_iff_of_subset]
  · exact ⟨c.idx, mem_pending.mpr h, by simp [mem_pending, hof]⟩
  · intro i hi
    rw [mem_pending (c := ⟨i⟩)] at hi ⊢
    rw [hof] at hi
    by_cases hc : (⟨i⟩ : ClassId) = c <;> simp_all

theorem of_replicate (n : Nat) (d : ClassId) : Marks.of (Array.replicate n .unvisited) d ≠ .onPath := by
  unfold of
  by_cases hd : d.idx < n <;> simp [hd]

theorem card_pending_le (marks : Marks) : marks.pending.card ≤ marks.size := by
  have hle := Finset.card_filter_le (Finset.range marks.size) fun i => marks.of ⟨i⟩ = .unvisited
  rwa [Finset.card_range] at hle

end Marks

/-! ## One visit -/

def Acyclic (p : Program) : Prop := ∀ c, ¬ Relation.TransGen (fun a b => b ∈ p.supertypes a) c c

def Founded (p : Program) (c : ClassId) : Prop := Acc (fun b a => b ∈ p.supertypes a) c

def ClosesCycle (p : Program) : Halt → Prop
  | .cycle c s => s ∈ p.supertypes c ∧ Walk.Leads p.supertypes s c
  | .tooDeep => False

structure Continues (p : Program) (a b : Marks) : Prop where
  settles : a.Settles b
  founded : ∀ d, b.of d = .done → p.Founded d

def Visits (p : Program) (marks : Marks) (c : ClassId) (x : Except Halt Marks) : Prop :=
  Yields x (fun b => p.Continues marks b ∧ b.of c = .done) p.ClosesCycle

structure Enters (p : Program) (depth : Nat) (c : ClassId) (marks : Marks) : Prop where
  fresh : marks.of c = .unvisited
  room : marks.pending.card ≤ depth
  founded : ∀ d, marks.of d = .done → p.Founded d
  path : ∀ d, marks.of d = .onPath → Walk.Leads p.supertypes d c

section
variable {p : Program} {depth : Nat} {c s : ClassId} {marks b : Marks}

theorem Continues.trans {a : Marks} (h : p.Continues a b) {c : Marks} (h' : p.Continues b c) :
    p.Continues a c := ⟨h.settles.trans h'.settles, h'.founded⟩

theorem not_enters_zero : ¬ p.Enters 0 c marks := by
  intro h
  have hpos := Finset.card_pos.mpr ⟨_, Marks.mem_pending.mpr h.fresh⟩
  have := h.room
  omega

namespace Enters

theorem of_set (h : p.Enters depth c marks) (m : Mark) (d : ClassId) :
    Marks.of (marks.setIfInBounds c.idx m) d = if d = c then m else marks.of d :=
  Marks.of_set (by simp [h.fresh])

theorem continues (h : p.Enters depth c marks) :
    p.Continues (marks.setIfInBounds c.idx .onPath) (marks.setIfInBounds c.idx .onPath) := by
  refine ⟨.refl _, fun d hd => ?_⟩
  rw [h.of_set] at hd
  by_cases hdc : d = c
  · simp [hdc] at hd
  · rw [if_neg hdc] at hd
    exact h.founded d hd

section
variable (h : p.Enters (depth + 1) c marks) (hb : p.Continues (marks.setIfInBounds c.idx .onPath) b)
include h hb

theorem leads (hs : b.of s = .onPath) : Walk.Leads p.supertypes s c := by
  rw [hb.settles.onPath, h.of_set] at hs
  by_cases hsc : s = c
  · rw [hsc]; exact .refl
  · rw [if_neg hsc] at hs
    exact h.path s hs

/-- The search goes on at a supertype. -/
theorem next (hs : s ∈ p.supertypes c) (hfresh : b.of s = .unvisited) : p.Enters depth s b where
  fresh := hfresh
  room := by
    have hle := Finset.card_le_card hb.settles.pending
    have hlt := Marks.card_pending_set h.fresh
    have := h.room
    omega
  founded := hb.founded
  path d hd := (h.leads hb hd).tail hs

/-- A class is done when its supertypes are. -/
theorem leave (hdone : ∀ s ∈ p.supertypes c, b.of s = .done) :
    p.Continues marks (b.setIfInBounds c.idx .done) ∧
      Marks.of (b.setIfInBounds c.idx .done) c = .done := by
  have hc : b.of c = .onPath := hb.settles.onPath.mpr (by simp [h.of_set])
  have hof : ∀ d, Marks.of (b.setIfInBounds c.idx .done) d = if d = c then .done else b.of d :=
    fun d => Marks.of_set (by simp [hc])
  refine ⟨⟨⟨by simpa using hb.settles.size, fun d => ?_⟩, fun d hd => ?_⟩, by simp [hof]⟩
  · have hd := hb.settles.mark d
    rw [h.of_set] at hd
    rw [hof]
    by_cases hdc : d = c
    · simp [hdc, h.fresh]
    · simpa [hdc] using hd
  · rw [hof] at hd
    by_cases hdc : d = c
    · rw [hdc]
      exact .intro c fun s hs => hb.founded s (hdone s hs)
    · rw [if_neg hdc] at hd
      exact hb.founded d hd

end

end Enters

/-- A row of visits. -/
theorem visits_each {f : Marks → ClassId → Except Halt Marks} :
    ∀ {l : List ClassId} {marks : Marks}, p.Continues marks marks →
      (∀ s ∈ l, ∀ b, p.Continues marks b → p.Visits b s (f b s)) →
      Yields (l.foldlM f marks) (fun b => p.Continues marks b ∧ ∀ s ∈ l, b.of s = .done) p.ClosesCycle
  | [], marks, h, _ => ⟨h, by simp⟩
  | s :: l, marks, h, hstep => by
    rw [List.foldlM_cons]
    refine (hstep s List.mem_cons_self marks h).bind fun b ⟨hb, hs⟩ => ?_
    have hrest := visits_each ⟨.refl b, hb.founded⟩ fun s hs b' hb' =>
      hstep s (List.mem_cons_of_mem _ hs) b' (hb.trans hb')
    refine hrest.mono fun b' ⟨hb', hdone⟩ => ⟨hb.trans hb', fun d hd => ?_⟩
    rcases List.mem_cons.mp hd with rfl | hd
    · exact hb'.settles.done hs
    · exact hdone d hd

end

def enter (p : Program) (depth : Nat) (c : ClassId) (marks : Marks) (s : ClassId) :
    Except Halt Marks :=
  match marks.of s with
  | .onPath => .error (.cycle c s)
  | .unvisited => p.visit depth s marks
  | .done => .ok marks

section
variable {p : Program}

theorem visit_succ (depth : Nat) (c : ClassId) (marks : Marks) : p.visit (depth + 1) c marks =
    (p.supertypes c).foldlM (p.enter depth c) (marks.setIfInBounds c.idx .onPath) >>= fun marks =>
      .ok (marks.setIfInBounds c.idx .done) := rfl

theorem Enters.visits_enter {depth : Nat} {c s : ClassId} {marks b : Marks} (h : p.Enters (depth + 1) c marks)
    (hvisit : ∀ s b, p.Enters depth s b → p.Visits b s (p.visit depth s b))
    (hs : s ∈ p.supertypes c) (hb : p.Continues (marks.setIfInBounds c.idx .onPath) b) :
    p.Visits b s (p.enter depth c b s) := by
  unfold enter
  cases hmark : b.of s with
  | onPath => exact ⟨hs, h.leads hb hmark⟩
  | unvisited => exact hvisit s b (h.next hb hs hmark)
  | done => exact ⟨⟨.refl b, hb.founded⟩, hmark⟩

theorem visits_visit : ∀ (depth : Nat) (c : ClassId) (marks : Marks), p.Enters depth c marks →
    p.Visits marks c (p.visit depth c marks)
  -- There is room for one more class on the path, so the depth is not used up.
  | 0, _, _, h => (not_enters_zero h).elim
  | depth + 1, c, marks, h => by
    have hsupers := visits_each h.continues fun s hs b => h.visits_enter (visits_visit depth) hs
    rw [visit_succ]
    exact hsupers.bind fun b ⟨hb, hdone⟩ => h.leave hb hdone

theorem Enters.keeps {depth : Nat} {c : ClassId} {marks : Marks} (h : p.Enters (depth + 1) c marks) :
    ∀ s ∈ p.supertypes c, ∀ b b', p.Continues (marks.setIfInBounds c.idx .onPath) b →
      p.enter depth c b s = .ok b' → p.Continues (marks.setIfInBounds c.idx .onPath) b' :=
  fun _ hs _ _ hb hok => hb.trans ((h.visits_enter (visits_visit depth) hs hb).ok hok).1

/-- More depth than there are classes to visit changes nothing. -/
theorem visit_deeper : ∀ (depth : Nat) (c : ClassId) (marks : Marks), p.Enters depth c marks →
    p.visit (depth + 1) c marks = p.visit depth c marks
  | 0, _, _, h => (not_enters_zero h).elim
  | depth + 1, c, marks, h => by
    have hsame : ∀ s ∈ p.supertypes c, ∀ b, p.Continues (marks.setIfInBounds c.idx .onPath) b →
        p.enter (depth + 1) c b s = (p.enter depth c b s).mapError id := by
      intro s hs b hb
      rw [mapError_id]
      unfold enter
      cases hmark : b.of s with
      | unvisited => exact visit_deeper depth s b (h.next hb hs hmark)
      | _ => rfl
    rw [visit_succ, visit_succ, foldlM_mapError h.continues hsame h.keeps, mapError_id]

end

/-! ## The whole search -/

section
variable {p : Program} {depth : Nat}

theorem founded_of_unknown {c : ClassId} (hc : c ∉ p.classIds) : p.Founded c := by
  refine .intro c fun s hs => ?_
  have hnone : p.class? c = none := by simpa [mem_classIds, Option.eq_none_iff_forall_ne_some] using hc
  simp [supertypes_of_unknown hnone] at hs

theorem continues_noMarks (p : Program) : p.Continues p.noMarks p.noMarks := by
  refine ⟨.refl _, fun d hd => founded_of_unknown fun hmem => ?_⟩
  obtain ⟨i, hi, rfl⟩ := List.mem_map.mp hmem
  simp [noMarks, Marks.of, List.mem_range.mp hi] at hd

/-- Between two roots nothing is on the path. -/
theorem enters_root (hdepth : p.classes.size ≤ depth) {c : ClassId} {b : Marks}
    (hb : p.Continues p.noMarks b) (hc : b.of c = .unvisited) :
    p.Enters depth c b where
  fresh := hc
  room := by
    have hle := Finset.card_le_card hb.settles.pending
    have hsize := p.noMarks.card_pending_le
    have : p.noMarks.size = p.classes.size := Array.size_replicate
    omega
  founded := hb.founded
  path d hd := absurd (hb.settles.onPath.mp hd) (Marks.of_replicate _ d)

theorem visits_root (hdepth : p.classes.size ≤ depth) {c : ClassId} {b : Marks}
    (hb : p.Continues p.noMarks b) :
    p.Visits b c (if b.of c = .unvisited then p.visit depth c b else .ok b) := by
  by_cases hc : b.of c = .unvisited
  · rw [if_pos hc]
    exact visits_visit depth c b (enters_root hdepth hb hc)
  · rw [if_neg hc]
    refine ⟨⟨.refl b, hb.founded⟩, ?_⟩
    have hpath : b.of c ≠ .onPath := fun h => Marks.of_replicate _ c (hb.settles.onPath.mp h)
    cases hmark : b.of c <;> simp_all

theorem yields_findCycleWithin (hdepth : p.classes.size ≤ depth) :
    Yields (p.findCycleWithin depth) (fun _ => ∀ c, p.Founded c) p.ClosesCycle := by
  refine (visits_each (continues_noMarks p) fun c _ b => visits_root hdepth).mono fun b ⟨hb, hdone⟩ c => ?_
  by_cases hc : c ∈ p.classIds
  · exact hb.founded c (hdone c hc)
  · exact founded_of_unknown hc

theorem yields_findCycle (p : Program) : Yields p.findCycle (fun _ => ∀ c, p.Founded c) p.ClosesCycle :=
  yields_findCycleWithin (Nat.le_refl _)

theorem findCycleWithin_succ (hdepth : p.classes.size ≤ depth) :
    p.findCycleWithin (depth + 1) = p.findCycleWithin depth := by
  rw [← mapError_id (p.findCycleWithin depth)]
  refine foldlM_mapError (continues_noMarks p) (fun c _ b hb => ?_) fun c _ b b' hb hok =>
    hb.trans ((visits_root hdepth hb).ok hok).1
  rw [mapError_id]
  by_cases hc : b.of c = .unvisited
  · rw [if_pos hc, if_pos hc]
    exact visit_deeper depth c b (enters_root hdepth hb hc)
  · rw [if_neg hc, if_neg hc]

theorem findCycleWithin_add (p : Program) (n : Nat) : p.findCycleWithin (p.classes.size + n) = p.findCycle := by
  induction n with
  | zero => rfl
  | succ n ih => rw [← Nat.add_assoc, findCycleWithin_succ (Nat.le_add_right _ _), ih]

theorem acyclic_of_founded (h : ∀ c, p.Founded c) : p.Acyclic := by
  intro c hc
  have hwf : WellFounded fun b a => b ∈ p.supertypes a := ⟨h⟩
  have hswap := Relation.transGen_swap.mpr hc
  exact hwf.transGen.asymmetric c c hswap hswap

theorem class_of_supertype {c s : ClassId} (hs : s ∈ p.supertypes c) : ∃ cls, p.class? c = some cls := by
  cases hc : p.class? c with
  | none => simp [supertypes_of_unknown hc] at hs
  | some cls => exact ⟨cls, rfl⟩

section
variable {e : Halt} (h : p.ClosesCycle e)
include h

theorem ClosesCycle.not_acyclic : ¬ p.Acyclic := by
  cases e with
  | cycle c s => exact fun hno => hno c (.head' h.1 h.2)
  | tooDeep => exact h.elim

/-- Both classes of the step name a supertype, so both are there. -/
theorem ClosesCycle.known : ∃ c s cls sup, e = .cycle c s ∧ p.class? c = some cls ∧ p.class? s = some sup := by
  cases e with
  | tooDeep => exact h.elim
  | cycle c s =>
    obtain ⟨cls, hcls⟩ := class_of_supertype h.1
    rcases Relation.ReflTransGen.cases_head h.2 with he | ⟨d, hd, _⟩
    · exact ⟨c, s, cls, cls, rfl, hcls, he ▸ hcls⟩
    · obtain ⟨sup, hsup⟩ := class_of_supertype hd
      exact ⟨c, s, cls, sup, rfl, hcls, hsup⟩

end

/-- A program is refused for a cycle exactly if it has one. -/
theorem checkAcyclic_ok : p.checkAcyclic = .ok () ↔ p.Acyclic := by
  have hsearch := yields_findCycle p
  unfold checkAcyclic
  cases hf : p.findCycle with
  | ok marks => simp [acyclic_of_founded (hsearch.ok hf)]
  | error e =>
    have hstep := hsearch.error hf
    cases e with
    | cycle c s => simp [hstep.not_acyclic]
    | tooDeep => exact hstep.elim

theorem founded_of_acyclic (h : p.Acyclic) (c : ClassId) : p.Founded c := by
  have hsearch := yields_findCycle p
  cases hf : p.findCycle with
  | ok marks => exact hsearch.ok hf c
  | error e => exact absurd h (hsearch.error hf).not_acyclic

theorem checkAcyclic_error {e : Malformed} (h : p.checkAcyclic = .error e) : ∃ c s cls sup,
    p.class? c = some cls ∧ p.class? s = some sup ∧ e = .cycle cls.name sup.name ∧ s ∈ p.supertypes c ∧
      Walk.Leads p.supertypes s c := by
  have hsearch := yields_findCycle p
  unfold checkAcyclic at h
  cases hf : p.findCycle with
  | ok marks => simp [hf] at h
  | error e =>
    have hstep := hsearch.error hf
    obtain ⟨c, s, cls, sup, rfl, hcls, hsup⟩ := hstep.known
    refine ⟨c, s, cls, sup, hcls, hsup, ?_, hstep⟩
    simpa [hf, hcls, hsup] using h.symm

end

/-! ## The search without a bound -/

/-- The search, turn by turn, with no bound on the path. A class stands on it with the place of the
supertype whose turn is next. -/
inductive Searches (p : Program) : (path : List (ClassId × Nat)) → Marks → Except Halt Marks → Prop
  | done {marks : Marks} : Searches p [] marks (.ok marks)
  | leave {c : ClassId} {i : Nat} {path : List (ClassId × Nat)} {marks : Marks} {r : Except Halt Marks} :
      (p.supertypes c)[i]? = none → Searches p path (marks.setIfInBounds c.idx .done) r →
      Searches p ((c, i) :: path) marks r
  | cycle {c s : ClassId} {i : Nat} {path : List (ClassId × Nat)} {marks : Marks} :
      (p.supertypes c)[i]? = some s → marks.of s = .onPath →
      Searches p ((c, i) :: path) marks (.error (.cycle c s))
  | enter {c s : ClassId} {i : Nat} {path : List (ClassId × Nat)} {marks : Marks} {r : Except Halt Marks} :
      (p.supertypes c)[i]? = some s → marks.of s = .unvisited →
      Searches p ((s, 0) :: (c, i + 1) :: path) (marks.setIfInBounds s.idx .onPath) r →
      Searches p ((c, i) :: path) marks r
  | pass {c s : ClassId} {i : Nat} {path : List (ClassId × Nat)} {marks : Marks} {r : Except Halt Marks} :
      (p.supertypes c)[i]? = some s → marks.of s = .done → Searches p ((c, i + 1) :: path) marks r →
      Searches p ((c, i) :: path) marks r

/-- A search from each of the roots that the searches before have left unvisited. -/
inductive SearchesAll (p : Program) : (roots : List ClassId) → Marks → Except Halt Marks → Prop
  | done {marks : Marks} : SearchesAll p [] marks (.ok marks)
  | skip {c : ClassId} {roots : List ClassId} {marks : Marks} {r : Except Halt Marks} :
      marks.of c ≠ .unvisited → SearchesAll p roots marks r → SearchesAll p (c :: roots) marks r
  | halt {c : ClassId} {roots : List ClassId} {marks : Marks} {e : Halt} : marks.of c = .unvisited →
      Searches p [(c, 0)] (marks.setIfInBounds c.idx .onPath) (.error e) →
      SearchesAll p (c :: roots) marks (.error e)
  | next {c : ClassId} {roots : List ClassId} {marks b : Marks} {r : Except Halt Marks} :
      marks.of c = .unvisited → Searches p [(c, 0)] (marks.setIfInBounds c.idx .onPath) (.ok b) →
      SearchesAll p roots b r → SearchesAll p (c :: roots) marks r

/-- How the search goes on below a visit that came to `x`. -/
def Resumes (p : Program) (path : List (ClassId × Nat)) (x r : Except Halt Marks) : Prop :=
  match x with
  | .ok b => p.Searches path b r
  | .error e => r = .error e

section
variable {p : Program}

theorem Searches.det {path : List (ClassId × Nat)} {marks : Marks} {r r' : Except Halt Marks}
    (h : p.Searches path marks r) (h' : p.Searches path marks r') : r = r' := by
  induction h generalizing r' with
  | done => cases h'; rfl
  | leave hi _ ih =>
    cases h' with
    | leave _ h' => exact ih h'
    | cycle hi' | enter hi' | pass hi' => simp [hi] at hi'
  | cycle hi hm =>
    cases h' with
    | leave hi' => simp [hi] at hi'
    | cycle hi' => simp_all
    | enter hi' hm' | pass hi' hm' => simp_all
  | enter hi hm _ ih =>
    cases h' with
    | leave hi' => simp [hi] at hi'
    | cycle hi' hm' | pass hi' hm' => simp_all
    | enter hi' hm' h' =>
      cases hi.symm.trans hi'
      exact ih h'
  | pass hi hm _ ih =>
    cases h' with
    | leave hi' => simp [hi] at hi'
    | cycle hi' hm' | enter hi' hm' => simp_all
    | pass _ _ h' => exact ih h'

theorem SearchesAll.det {roots : List ClassId} {marks : Marks} {r r' : Except Halt Marks}
    (h : p.SearchesAll roots marks r) (h' : p.SearchesAll roots marks r') : r = r' := by
  induction h generalizing r' with
  | done => cases h'; rfl
  | skip hc _ ih =>
    cases h' with
    | skip _ h' => exact ih h'
    | halt hc' | next hc' => exact absurd hc' hc
  | halt hc h =>
    cases h' with
    | skip hc' => exact absurd hc hc'
    | halt _ h' => exact h.det h'
    | next _ h' => cases h.det h'
  | next hc h _ ih =>
    cases h' with
    | skip hc' => exact absurd hc hc'
    | halt _ h' => cases h.det h'
    | next _ h' hrest =>
      cases h.det h'
      exact ih hrest

/-- The supertypes of `c` from the place `i` on, where `hvisit` is what a visit of one of them does. -/
theorem searches_supertypes {depth : Nat} (c : ClassId)
    (hvisit : ∀ s b, p.visit depth s b ≠ .error .tooDeep → ∀ path r, p.Resumes path (p.visit depth s b) r →
      p.Searches ((s, 0) :: path) (b.setIfInBounds s.idx .onPath) r) :
    ∀ (rest : List ClassId) (i : Nat) (b : Marks), (p.supertypes c).drop i = rest →
      rest.foldlM (p.enter depth c) b ≠ .error .tooDeep → ∀ path r,
      p.Resumes path (rest.foldlM (p.enter depth c) b >>= fun b => .ok (b.setIfInBounds c.idx .done)) r →
      p.Searches ((c, i) :: path) b r
  | [], i, b, hrest, _, path, r, hr => .leave (by simpa using hrest) hr
  | s :: rest, i, b, hrest, hdeep, path, r, hr => by
    have hs : (p.supertypes c)[i]? = some s := by rw [← List.head?_drop, hrest, List.head?_cons]
    have hrest' : (p.supertypes c).drop (i + 1) = rest := by
      rw [← List.drop_drop, hrest, List.drop_one, List.tail_cons]
    rw [List.foldlM_cons] at hdeep hr
    cases hmark : b.of s with
    | onPath =>
      have he : p.enter depth c b s = .error (.cycle c s) := by simp [Program.enter, hmark]
      rw [he] at hr
      rw [show r = .error (.cycle c s) from hr]
      exact .cycle hs hmark
    | done =>
      have he : p.enter depth c b s = .ok b := by simp [Program.enter, hmark]
      rw [he] at hdeep hr
      exact .pass hs hmark (searches_supertypes c hvisit rest (i + 1) b hrest' hdeep path r hr)
    | unvisited =>
      have he : p.enter depth c b s = p.visit depth s b := by simp [Program.enter, hmark]
      rw [he] at hdeep hr
      refine .enter hs hmark (hvisit s b (fun h => hdeep (by rw [h]; rfl)) _ r ?_)
      cases hv : p.visit depth s b with
      | error e => rw [hv] at hr; exact hr
      | ok b' =>
        rw [hv] at hdeep hr
        exact searches_supertypes c hvisit rest (i + 1) b' hrest' hdeep path r hr

/-- A visit that is not cut off does what the search does until its class leaves the path. -/
theorem searches_visit : ∀ (depth : Nat) (c : ClassId) (marks : Marks),
    p.visit depth c marks ≠ .error .tooDeep → ∀ path r, p.Resumes path (p.visit depth c marks) r →
      p.Searches ((c, 0) :: path) (marks.setIfInBounds c.idx .onPath) r
  | 0, _, _, hdeep, _, _, _ => (hdeep rfl).elim
  | depth + 1, c, marks, hdeep, path, r, hr => by
    rw [visit_succ] at hdeep hr
    refine searches_supertypes c (searches_visit depth) _ 0 _ rfl (fun h => hdeep ?_) path r hr
    rw [List.drop_zero] at h
    rw [h]
    rfl

theorem searches_root {depth : Nat} {c : ClassId} {marks : Marks}
    (hdeep : p.visit depth c marks ≠ .error .tooDeep) :
    p.Searches [(c, 0)] (marks.setIfInBounds c.idx .onPath) (p.visit depth c marks) := by
  apply searches_visit depth c marks hdeep
  cases p.visit depth c marks with
  | ok b => exact .done
  | error e => rfl

theorem searchesAll_foldlM {depth : Nat} : ∀ (roots : List ClassId) (marks : Marks),
    roots.foldlM (fun marks c => if marks.of c = .unvisited then p.visit depth c marks else .ok marks) marks ≠
      .error .tooDeep →
    p.SearchesAll roots marks (roots.foldlM
      (fun marks c => if marks.of c = .unvisited then p.visit depth c marks else .ok marks) marks)
  | [], _, _ => .done
  | c :: roots, marks, hdeep => by
    rw [List.foldlM_cons] at hdeep ⊢
    by_cases hc : marks.of c = .unvisited
    · rw [if_pos hc] at hdeep ⊢
      have hroot : p.Searches [(c, 0)] (marks.setIfInBounds c.idx .onPath) (p.visit depth c marks) :=
        searches_root fun h => hdeep (by rw [h]; rfl)
      cases hv : p.visit depth c marks with
      | error e =>
        rw [hv] at hroot
        exact .halt hc hroot
      | ok b =>
        rw [hv] at hroot hdeep
        exact .next hc hroot (searchesAll_foldlM roots b hdeep)
    · rw [if_neg hc] at hdeep ⊢
      exact .skip hc (searchesAll_foldlM roots marks hdeep)

/-- The search without a bound comes to an end, and to the same one. -/
theorem searchesAll_iff {r : Except Halt Marks} : p.SearchesAll p.classIds p.noMarks r ↔ r = p.findCycle := by
  have hdeep : p.findCycle ≠ .error .tooDeep := fun h => (yields_findCycle p).error h
  have hsearch : p.SearchesAll p.classIds p.noMarks p.findCycle := searchesAll_foldlM _ _ hdeep
  exact ⟨fun h => h.det hsearch, fun h => h ▸ hsearch⟩

end

/-- **Exactness of the search for cycles.** The search without a bound on its path ends, with what
`findCycle` gives. A program passes exactly if no class extends itself, in one step or many. A refusal
names two classes, the one a supertype of the other and below it again. The depth of the search is
never what ends it: no larger bound gives another answer. -/
theorem cycle_check_exact (p : Program) : (p.checkAcyclic = .ok () ↔ p.Acyclic) ∧
    (∀ e, p.checkAcyclic = .error e → ∃ c s cls sup, p.class? c = some cls ∧ p.class? s = some sup ∧
      e = .cycle cls.name sup.name ∧ s ∈ p.supertypes c ∧ Walk.Leads p.supertypes s c) ∧
    (∀ r, p.SearchesAll p.classIds p.noMarks r ↔ r = p.findCycle) ∧
    ∀ n, p.findCycleWithin (p.classes.size + n) = p.findCycle :=
  ⟨checkAcyclic_ok, fun _ => checkAcyclic_error, fun _ => searchesAll_iff, p.findCycleWithin_add⟩

end Program

end PointsTo
