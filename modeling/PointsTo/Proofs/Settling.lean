import PointsTo.Proofs.Runs

/-!
# Nothing is owed at the end

A successful run keeps its books: every reachable method has been entered,
every object a variable points to has been seen to, every call edge is bound
and every call without a target is counted. With nothing left to do, the facts
of the state are closed under the rules, so they are exactly the derivable ones.
-/

namespace PointsTo
open Solve

namespace Task
variable (t : Task)

def methodMisses (e : Entities) (m : CSMethodId) : Nat :=
  match e.frameOf? m with
  | some f => t.frameMisses f.method
  | none => 0

variable {t} {e e' : Entities}

theorem methodMisses_eq {m : CSMethodId} {f : Frame} (hm : e.frameOf? m = some f) :
    t.methodMisses e m = t.frameMisses f.method := by
  unfold methodMisses
  rw [hm]

theorem gainMisses_mono (he : e.Extends e') {p : PointerId} {set : ObjSet} (hs : e.Supports t p set) :
    t.gainMisses e' p set = t.gainMisses e p set := by
  unfold gainMisses
  refine congrArg List.sum (List.map_congr_left fun j hj => ?_)
  obtain ⟨c, o, hc, ho, _⟩ := hs j hj
  rw [hc, ho, he.cellOf hc, he.object ho]

end Task

/-! ## What a state still owes -/

/-- All is done but for the methods `A`, the objects `B` and `d` calls without a target. The calls
are counted by any list of the pointers that point to something. -/
structure State.Owes (t : Task) (A : Frame → Prop) (B : Cell → Instance → Prop) (d : Nat) (s : State) :
    Prop where
  entered : ∀ m ∈ s.calls.reachable.toList, ∀ f, s.entities.frameOf? m = some f →
    A f ∨ EnterDone t s.Holds f
  learned : ∀ i, ∀ j ∈ s.entities.pointsTo i, ∀ c v o, s.entities.cellOf? i = some (.var c v) →
    s.entities.objectOf? j = some o → B (.var c v) o ∨ LearnDone t s.Holds c v o
  bound : ∀ i ∈ s.calls.edges.toList, ∃ e, s.entities.linkOf? i = some e ∧ Bound t s.Holds s.Knows e
  missed : ∀ l : List PointerId, l.Nodup → (∀ i, ∀ j ∈ s.entities.pointsTo i, i ∈ l) →
    s.unresolved + d = (s.calls.reachable.toList.map (t.methodMisses s.entities)).sum +
      (l.map fun i => t.gainMisses s.entities i (s.entities.pointsTo i)).sum

abbrev State.Settled (t : Task) (s : State) : Prop := s.Owes t (fun _ => False) (fun _ _ => False) 0

section
variable {t : Task} {s s' : State} {A : Frame → Prop} {B : Cell → Instance → Prop} {d : Nat}

/-- Debts are paid by what a state does further on. -/
theorem State.Owes.pay (h : s.Owes t A B d) (hs : s.Justified t) (he : s.entities.Extends s'.entities)
    (hp : ∀ i, s'.entities.pointsTo i = s.entities.pointsTo i)
    (hr : s'.calls.reachable.toList = s.calls.reachable.toList) (hh : ∀ f, s.Holds f → s'.Holds f)
    (hb : ∀ i ∈ s'.calls.edges.toList, i ∈ s.calls.edges.toList ∨
      ∃ e, s'.entities.linkOf? i = some e ∧ Bound t s'.Holds s'.Knows e)
    (hu : s'.unresolved = s.unresolved + d) (hA : ∀ f, A f → EnterDone t s'.Holds f)
    (hB : ∀ c v o, B (.var c v) o → LearnDone t s'.Holds c v o) : s'.Settled t where
  entered m hm f hf := by
    rw [hr] at hm
    obtain ⟨f', hf', _⟩ := hs.reachable m hm
    cases Option.some.inj ((he.frame hf').symm.trans hf)
    refine Or.inr ((h.entered m hm f hf').elim (hA f) fun hd x hx => (hd x hx).mono hh)
  learned i j hj c v o hc ho := by
    rw [hp] at hj
    obtain ⟨c', o', hc', ho', _⟩ := hs.points i j hj
    cases Option.some.inj ((he.cellOf hc').symm.trans hc)
    cases Option.some.inj ((he.object ho').symm.trans ho)
    exact Or.inr ((h.learned i j hj c v o hc' ho').elim (hB c v o) fun hd => hd.mono hh)
  bound i hi := by
    rcases hb i hi with hi | hi
    · obtain ⟨e, hl, hbound⟩ := h.bound i hi
      exact ⟨e, he.link hl, hbound.mono hh fun _ ⟨k, hk⟩ => ⟨k, he.cellOf hk⟩⟩
    · exact hi
  missed l hl hcover := by
    rw [Nat.add_zero, hu, h.missed l hl fun i j hj => hcover i j (hp i ▸ hj), hr]
    congr 1
    · refine congrArg List.sum (List.map_congr_left fun m hm => ?_)
      obtain ⟨f, hf, _⟩ := hs.reachable m hm
      rw [Task.methodMisses_eq hf, Task.methodMisses_eq (he.frame hf)]
    · refine congrArg List.sum (List.map_congr_left fun i _ => ?_)
      rw [hp, Task.gainMisses_mono he (hs.points i)]

theorem State.Owes.progress {n : Nat} (h : s.Owes t A B d) (hs : s.Justified t)
    (hp : Progress t n d s s') (hA : ∀ f, A f → EnterDone t s'.Holds f)
    (hB : ∀ c v o, B (.var c v) o → LearnDone t s'.Holds c v o) : s'.Settled t := by
  have hg := hp.path.grows
  exact h.pay hs hg.entities hg.pointsTo (by rw [hg.reachable]) (fun _ => hg.holds) hp.bound hp.missed hA hB

/-! ## Each step pays its debts -/

theorem State.settled_initial (t : Task) (order : Order) : (initial order).Settled t where
  entered m hm := by cases hm
  learned i j hj := by cases hj
  bound i hi := by cases hi
  missed l _ _ := by
    have : ∀ i, t.gainMisses (initial order).entities i ((initial order).entities.pointsTo i) = 0 :=
      fun _ => rfl
    simp only [this]
    simp [initial, CallGraph.empty]

theorem State.Owes.launched (h : s.Settled t) (hs : s.Justified t) : (s.launched t).Settled t := by
  have hg := (Path.launched t s).grows
  exact h.pay hs hg.entities hg.pointsTo rfl (fun _ => holds_launched) (fun i hi => Or.inl hi) rfl
    (fun _ hf => hf.elim) fun _ _ _ hf => hf.elim

/-- A method that is new among the reachable ones is yet to be entered. -/
theorem State.Owes.admitted (h : s.Settled t) {m : CSMethodId} {q : Queue CSMethodId} {f : Frame}
    (hq : s.pending.toList = m :: q.toList) (hm : m ∉ s.calls.reachable.toList)
    (hf : s.entities.frameOf? m = some f) :
    (s.admitted m q).Owes t (· = f) (fun _ _ => False) (t.frameMisses f.method) := by
  constructor
  case entered =>
    intro k hk g hg
    rcases mem_admitted.mp hk with hk | rfl
    · exact Or.inr fun x hx => ((h.entered k hk g hg).resolve_left id x hx).mono
        fun _ => holds_admitted hq
    · exact Or.inl (Option.some.inj (hg.symm.trans hf))
  case learned =>
    intro i j hj c v o hc ho
    exact Or.inr (((h.learned i j hj c v o hc ho).resolve_left id).mono fun _ => holds_admitted hq)
  case bound =>
    intro i hi
    obtain ⟨e, he, hb⟩ := h.bound i hi
    exact ⟨e, he, hb.mono (fun _ => holds_admitted hq) fun _ hk => hk⟩
  case missed =>
    intro l hl hcover
    have hold := h.missed l hl hcover
    have hnew : t.methodMisses (s.admitted m q).entities m = t.frameMisses f.method :=
      Task.methodMisses_eq hf
    have hsame : (s.admitted m q).entities = s.entities := rfl
    rw [reachable_admitted, if_neg hm, List.map_append, List.sum_append, List.map_singleton,
      List.sum_singleton, hnew, hsame]
    show s.unresolved + _ = _
    omega

theorem State.Owes.drains (h : s.Settled t) (hs : s.Invariant t) (hd : Drains t s s') :
    s'.Settled t := by
  cases hd with
  | again hq hm =>
    refine h.pay hs.justified (.refl _) (fun _ => rfl) ?_ (fun _ => holds_admitted hq)
      (fun i hi => Or.inl hi) rfl (fun _ hf => hf.elim) fun _ _ _ hf => hf.elim
    rw [reachable_admitted, if_pos hm]
  | enter hq hm hf hp hdone =>
    exact (h.admitted hq hm hf).progress (hs.admitted hq).justified hp (fun g hg => hg ▸ hdone)
      fun _ _ _ hf => hf.elim

theorem State.Owes.drained (h : s.Settled t) (hs : s.Invariant t) (hd : Drained t s s') :
    s'.Settled t := by
  induction hd with
  | done _ => exact h
  | turn hone _ ih => exact ih (h.drains hs hone) (hone.invariant hs)

theorem Task.gainMisses_union (t : Task) (e : Entities) (p : PointerId) (a b : ObjSet) :
    t.gainMisses e p (a.union b) = t.gainMisses e p a + t.gainMisses e p (a.missing b) := by
  unfold gainMisses
  rw [((ObjSet.perm_union a b).map _).sum_eq, List.map_append, List.sum_append]

theorem State.Owes.absorbed (h : s.Settled t) (hs : s.Invariant t) {p : PointerId} {set : ObjSet}
    {w : Worklist} (hpop : s.work.toList.Perm ((p, set) :: w.toList)) :
    (s.absorbed p set w).Owes t (fun _ => False) (fun c o => s.entities.cellOf? p = some c ∧
      ∃ j ∈ (s.entities.pointsTo p).missing set, s.entities.objectOf? j = some o)
      (t.gainMisses s.entities p ((s.entities.pointsTo p).missing set)) := by
  have hh : ∀ f, s.Holds f → (s.absorbed p set w).Holds f :=
    fun _ => hs.justified.holds_absorbed hpop
  have hpoints := fun q => hs.justified.pointsTo_absorbed hpop q
  constructor
  case entered =>
    intro m hm f hf
    exact Or.inr fun x hx => ((h.entered m hm f hf).resolve_left id x hx).mono hh
  case learned =>
    intro i j hj c v o hc ho
    by_cases hold : j ∈ s.entities.pointsTo i
    · exact Or.inr (((h.learned i j hold c v o hc ho).resolve_left id).mono hh)
    · obtain ⟨rfl, hnew⟩ := ((hs.justified.mem_pointsTo_absorbed hpop).mp hj).resolve_left hold
      exact Or.inl ⟨hc, j, ObjSet.mem_missing.mpr ⟨hnew, hold⟩, ho⟩
  case bound =>
    intro i hi
    obtain ⟨e, he, hb⟩ := h.bound i hi
    exact ⟨e, he, hb.mono hh fun _ hk => hk⟩
  case missed =>
    intro l hl hcover
    -- only the count at `p` changes, and `p` is listed because no entry is empty
    have hmem : p ∈ l := by
      obtain ⟨_, j, hj⟩ := hs.justified.work (p, set) (hpop.mem_iff.mpr (by simp))
      exact hcover p j ((hs.justified.mem_pointsTo_absorbed hpop).mpr (Or.inr ⟨rfl, hj⟩))
    have hold := h.missed l hl fun i j hj =>
      hcover i j ((hs.justified.mem_pointsTo_absorbed hpop).mpr (Or.inl hj))
    have hgain : (l.map fun i => t.gainMisses s.entities i ((s.absorbed p set w).entities.pointsTo i)).sum =
        (l.map fun i => t.gainMisses s.entities i (s.entities.pointsTo i)).sum +
          t.gainMisses s.entities p ((s.entities.pointsTo p).missing set) := by
      refine sum_map_add hl hmem ?_ fun i hi => ?_
      · rw [hpoints, if_pos rfl, t.gainMisses_union]
      · rw [hpoints, if_neg hi]
    show s.unresolved + _ = (s.calls.reachable.toList.map (t.methodMisses s.entities)).sum +
      (l.map fun i => t.gainMisses s.entities i ((s.absorbed p set w).entities.pointsTo i)).sum
    rw [hgain, ← Nat.add_assoc, ← hold]
    rfl

theorem State.Owes.steps (h : s.Settled t) (hs : s.Invariant t) (hd : Steps t s s') : s'.Settled t := by
  cases hd with
  | entry hpop hl hd =>
    have habs := hs.absorbed hpop
    have hs₁ := (h.absorbed hs hpop).progress habs.justified hl.progress (fun _ hf => hf.elim) ?_
    · exact hs₁.drained (hl.progress.path.invariant habs) hd
    · rintro c v o ⟨hc, j, hj, ho⟩
      exact hl.done c v hc j hj o ho

/-! ## Between steps -/

/-- No method is pending between the steps of a successful run. -/
structure State.Rests (t : Task) (s : State) : Prop where
  invariant : s.Invariant t
  settled : s.Settled t
  pending : s.pending.toList = []

theorem Drained.pending (h : Drained t s s') : s'.pending.toList = [] := by
  induction h with
  | done hp => exact hp
  | turn _ _ ih => exact ih

theorem Drained.started (h : Drained t s s') : s'.started = s.started := by
  induction h with
  | done _ => rfl
  | turn hd _ ih =>
    cases hd with
    | again _ _ => exact ih
    | enter _ _ _ hp _ => exact ih.trans hp.path.grows.started

theorem State.rests_initial (t : Task) (order : Order) : (initial order).Rests t :=
  ⟨invariant_initial t order, settled_initial t order, rfl⟩

theorem State.Rests.launches (h : s.Rests t) (hl : Launches t s s') : s'.Rests t ∧ s'.started = true := by
  have hinv := hl.invariant h.invariant
  cases hl with
  | before hs => exact ⟨h, hs⟩
  | now hs hd =>
    refine ⟨⟨hinv, ?_, hd.pending⟩, hd.started⟩
    exact State.Owes.drained (h.settled.launched h.invariant.justified) (h.invariant.launched hs) hd

theorem State.Rests.steps (h : s.Rests t) (hd : Steps t s s') : s'.Rests t := by
  refine ⟨hd.invariant h.invariant, h.settled.steps h.invariant hd, ?_⟩
  cases hd with
  | entry _ _ hd => exact hd.pending

/-! ## At the end -/

structure State.Final (t : Task) (s : State) : Prop extends s.Rests t where
  work : s.work.toList = []
  started : s.started = true

theorem Runs.final (h : Runs t s s') (hs : s.Rests t) : s'.Final t := by
  induction h with
  | done he =>
    obtain ⟨s₁, hl, rfl, hw⟩ := he
    obtain ⟨hrest, hstart⟩ := hs.launches hl
    exact ⟨hrest, hw, hstart⟩
  | step he _ ih =>
    obtain ⟨s₁, hl, hd⟩ := he
    exact ih ((hs.launches hl).1.steps hd)

theorem Task.final_of_solve (ht : t.Valid) {order : Order} (h : t.solve order = .ok s) : s.Final t := by
  obtain ⟨s₁, hl, hrun⟩ := Task.runs_of_solve ht h
  exact hrun.final ((State.rests_initial t order).launches hl).1

end

end PointsTo
