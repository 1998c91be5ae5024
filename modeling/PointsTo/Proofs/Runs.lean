import PointsTo.Proofs.Invariants
import PointsTo.Proofs.Repetition
import PointsTo.Proofs.Rules

/-!
# Runs

What a turn of either loop does to a state that satisfies the invariant, and
what a whole run comes to. A run fails only at a fault or at its limit, and
what its steps leave behind satisfies the invariant.
-/

namespace PointsTo
open Solve

/-! ## Changes -/

inductive Change (t : Task) (s : State) : State → Prop
  | move {s' : State} : Move t s s' → Change t s s'
  | absorb {p : PointerId} {set : ObjSet} {w : Worklist} :
      s.work.toList.Perm ((p, set) :: w.toList) → Change t s (s.absorbed p set w)
  | reach {m : CSMethodId} {q : Queue CSMethodId} : s.pending.toList = m :: q.toList →
      Change t s (s.admitted m q)
  | launch : s.started = false → Change t s (s.launched t)

inductive Evolves (t : Task) (s : State) : State → Prop
  | refl : Evolves t s s
  | tail {s₁ s' : State} : Evolves t s s₁ → Change t s₁ s' → Evolves t s s'

section
variable {t : Task} {s s₁ s' : State}

theorem Change.invariant (h : Change t s s') (hs : s.Invariant t) : s'.Invariant t := by
  cases h with
  | move m => exact (Path.tail .refl m).invariant hs
  | absorb hpop => exact hs.absorbed hpop
  | reach hq => exact hs.admitted hq
  | launch hstart => exact hs.launched hstart

theorem Change.evolves (h : Change t s s') : Evolves t s s' := .tail .refl h

theorem Evolves.trans (h : Evolves t s s₁) (h' : Evolves t s₁ s') : Evolves t s s' := by
  induction h' with
  | refl => exact h
  | tail _ c ih => exact ih.tail c

theorem Evolves.invariant (h : Evolves t s s') (hs : s.Invariant t) : s'.Invariant t := by
  induction h with
  | refl => exact hs
  | tail _ c ih => exact c.invariant ih

theorem Path.evolves (h : Path t s s') : Evolves t s s' := by
  induction h with
  | refl => exact .refl
  | tail _ m ih => exact ih.tail (.move m)

end

def Overruns (t : Task) : Prop :=
  ∃ s s', State.Invariant t s ∧ Turns t.drainOne (2 ^ t.limit - 1) s s'

def Fails (t : Task) (s : State) (e : Error) (s' : State) : Prop :=
  Evolves t s s' ∧ (Fault t.world t.Derives e ∨ e = .unfinished ∧ Overruns t)

theorem Fails.after {t : Task} {s s₁ s' : State} {e : Error} (h : Evolves t s s₁)
    (h' : Fails t s₁ e s') : Fails t s e s' := ⟨h.trans h'.1, h'.2⟩

/-! ## Pending methods -/

inductive Drains (t : Task) (s : State) : State → Prop
  | again {m : CSMethodId} {q : Queue CSMethodId} : s.pending.toList = m :: q.toList →
      m ∈ s.calls.reachable.toList → Drains t s (s.admitted m q)
  | enter {m : CSMethodId} {q : Queue CSMethodId} {f : Frame} {s' : State} :
      s.pending.toList = m :: q.toList → m ∉ s.calls.reachable.toList →
      s.entities.frameOf? m = some f →
      Progress t (t.world.program.body f.method).length (t.frameMisses f.method) (s.admitted m q) s' →
      EnterDone t s'.Holds f → Drains t s s'

section
variable {t : Task} {s s' : State}

theorem Drains.evolves (h : Drains t s s') : Evolves t s s' := by
  cases h with
  | again hq _ => exact Change.evolves (.reach hq)
  | enter hq _ _ hp _ => exact (Change.evolves (.reach hq)).trans hp.path.evolves

theorem Drains.invariant (h : Drains t s s') (hs : s.Invariant t) : s'.Invariant t :=
  h.evolves.invariant hs

theorem ends_drainOne (ht : t.Valid) (hs : s.Invariant t) : Ends t.drainOne s
    (fun more s' => if more then Drains t s s' else s' = s ∧ s.pending.toList = []) (Fails t s) := by
  unfold Task.drainOne
  rw [ends_bind]
  unfold Ends
  rw [apply_dequeue?]
  cases hq : s.pending.popOldest? with
  | none => exact ⟨rfl, Queue.popOldest?_eq_none.mp hq⟩
  | some x =>
    obtain ⟨m, q⟩ := x
    have hq := Queue.popOldest?_eq_some hq
    obtain ⟨f, hf, hd⟩ := hs.justified.pending m (by simp [hq])
    have hadmitted := hs.admitted hq
    show Ends (onCalls (·.addReachable m) >>= fun new => _) _ _ _
    rw [ends_bind]
    unfold Ends
    rw [apply_onCalls]
    show Ends (if (s.calls.addReachable m).1 = true then t.enter m >>= fun _ => pure true
      else pure true) (s.admitted m q) _ _
    rw [CallGraph.addReachable_fst]
    by_cases hm : m ∈ s.calls.reachable.toList
    · rw [if_neg (by simp [hm])]
      exact .again hq hm
    · rw [if_pos (by simp [hm]), ends_bind]
      have hin : m ∈ (s.admitted m q).calls.reachable.toList := State.mem_admitted.mpr (Or.inr rfl)
      refine (spec_enter ht (s := s.admitted m q) hf hin hd hadmitted.justified).mono ?_ ?_
      · exact fun _ s' hr => .enter hq hm hf hr.1 hr.2
      · exact fun e s' he => ⟨(Change.evolves (.reach hq)).trans he.1.evolves, Or.inl he.2⟩

inductive Drained (t : Task) : State → State → Prop
  | done {s : State} : s.pending.toList = [] → Drained t s s
  | turn {s s₁ s' : State} : Drains t s s₁ → Drained t s₁ s' → Drained t s s'

theorem Drained.evolves (h : Drained t s s') : Evolves t s s' := by
  induction h with
  | done _ => exact .refl
  | turn hd _ ih => exact hd.evolves.trans ih

theorem drained_of_turns (ht : t.Valid) {n : Nat} {s₁ : State} (h : Turns t.drainOne n s s₁)
    (h' : t.drainOne.apply s₁ = (.ok false, s')) (hs : s.Invariant t) : Drained t s s' := by
  induction h with
  | none =>
    obtain ⟨rfl, hp⟩ := (ends_drainOne ht hs).of_ok h'
    exact .done hp
  | more hone _ ih =>
    have hd : Drains t _ _ := (ends_drainOne ht hs).of_ok hone
    exact .turn hd (ih h' (hd.invariant hs))

theorem evolves_of_drainTurns (ht : t.Valid) {n : Nat} (h : Turns t.drainOne n s s')
    (hs : s.Invariant t) : Evolves t s s' := by
  refine h.keeps (P := fun s₁ => Evolves t s s₁) (fun s₁ s₂ h₁ hone => ?_) .refl
  have hd : Drains t _ _ := (ends_drainOne ht (h₁.invariant hs)).of_ok hone
  exact h₁.trans hd.evolves

theorem invariant_of_drainTurns (ht : t.Valid) {n : Nat} (h : Turns t.drainOne n s s')
    (hs : s.Invariant t) : s'.Invariant t := (evolves_of_drainTurns ht h hs).invariant hs

theorem ends_drain (ht : t.Valid) (hs : s.Invariant t) :
    Ends t.drain s (fun _ s' => Drained t s s') (Fails t s) := by
  refine (ends_toEnd t s).mono (fun _ s' h => ?_) fun e s' h => ?_
  · obtain ⟨n, s₁, hn, h⟩ := h
    exact drained_of_turns ht hn h hs
  · rcases h with ⟨n, s₁, hn, h⟩ | ⟨rfl, hn⟩
    · have hfails : Fails t s₁ e s' := (ends_drainOne ht (invariant_of_drainTurns ht hn hs)).of_error h
      exact hfails.after (evolves_of_drainTurns ht hn hs)
    · exact ⟨evolves_of_drainTurns ht hn hs, Or.inr ⟨rfl, s, s', hs, hn⟩⟩

/-! ## The start -/

inductive Launches (t : Task) (s : State) : State → Prop
  | before : s.started = true → Launches t s s
  | now {s' : State} : s.started = false → Drained t (s.launched t) s' → Launches t s s'

theorem Launches.evolves (h : Launches t s s') : Evolves t s s' := by
  cases h with
  | before _ => exact .refl
  | now hstart hd => exact (Change.evolves (.launch hstart)).trans hd.evolves

theorem Launches.invariant (h : Launches t s s') (hs : s.Invariant t) : s'.Invariant t :=
  h.evolves.invariant hs

theorem apply_launch : t.launch.apply s =
    if s.started = true then (.ok (), s) else t.drain.apply (s.launched t) := by
  unfold Task.launch
  rw [apply_bind, apply_start]
  by_cases hs : s.started = true
  · rw [if_pos hs]
    dsimp only
    rw [if_pos hs]
    have : ({ s with started := true } : State) = s := by rw [← hs]
    exact congrArg _ this
  · rw [if_neg hs]
    dsimp only
    rw [if_neg hs]
    rfl

theorem ends_launch (ht : t.Valid) (hs : s.Invariant t) :
    Ends t.launch s (fun _ s' => Launches t s s') (Fails t s) := by
  unfold Ends
  rw [apply_launch]
  by_cases hstart : s.started = true
  · rw [if_pos hstart]
    exact .before hstart
  · rw [if_neg hstart]
    rw [Bool.not_eq_true] at hstart
    exact (ends_drain ht (hs.launched hstart)).mono (fun _ _ hd => .now hstart hd)
      fun _ _ he => Fails.after (Change.evolves (.launch hstart)) he

/-! ## Entries of the worklist -/

theorem apply_pushes (set : ObjSet) : ∀ (l : List PointerId) (s : State),
    (l.forM (push · set)).apply s = (.ok (), { s with work := s.work.spread l set })
  | [], s => rfl
  | p :: l, s => by
    show (push p set >>= fun _ => l.forM (push · set)).apply s = _
    rw [apply_bind, apply_push]
    exact apply_pushes set l _

theorem apply_propagate {p : PointerId} (hp : p.idx < s.entities.sets.size) {set : ObjSet}
    {w : Worklist} : (Task.propagate p set).apply { s with work := w, popped := s.popped + 1 } =
      (.ok ((s.entities.pointsTo p).missing set), s.absorbed p set w) := by
  unfold Task.propagate State.absorbed
  show (known (s.entities.pointsTo? p) >>= fun _ => _).apply _ = _
  rw [Entities.pointsTo?_of_lt hp, apply_bind]
  show (onEntities (·.extend p set) >>= fun fresh => _).apply _ = _
  rw [apply_bind, apply_onEntities]
  dsimp only
  rw [Entities.extend_fst]
  cases hf : ((s.entities.pointsTo p).missing set).isEmpty with
  | true => rfl
  | false =>
    rw [if_pos (by simp), apply_bind, apply_countEffective]
    dsimp only
    rw [apply_bind]
    show (((s.flow.successors p).forM (push · set)) >>= fun _ => _).apply _ = _
    rw [apply_bind, apply_pushes]
    rfl

end

namespace Task
variable (t : Task)

def pairMisses : Option Cell → Option Instance → Nat
  | some (.var _ v), some o => t.learnMisses v o
  | _, _ => 0

def gainMisses (e : Entities) (p : PointerId) (set : ObjSet) : Nat :=
  (set.toList.map fun j => t.pairMisses (e.cellOf? p) (e.objectOf? j)).sum

def digest (p : PointerId) (fresh : ObjSet) : Solve Unit := do
  if !fresh.isEmpty then
    let pointer ← known ((← get).entities.pointer? p)
    match pointer with
    | .var context v => fresh.toList.forM (t.learn context v)
    | _ => pure ()

theorem step_eq : t.step = (do
    t.launch
    match ← pop? with
    | none => return false
    | some (p, set) =>
      let fresh ← propagate p set
      t.digest p fresh
      t.drain
      return true) := by
  unfold step digest
  refine congrArg _ (funext fun _ => congrArg _ (funext fun r => ?_))
  cases r with
  | none => rfl
  | some x =>
    obtain ⟨p, set⟩ := x
    dsimp only
    refine congrArg _ (funext fun fresh => ?_)
    cases fresh.isEmpty with
    | true => rfl
    | false =>
      simp only [Bool.not_false, if_true, bind_assoc]
      refine congrArg _ (funext fun s => congrArg _ (funext fun pointer => ?_))
      cases pointer <;> rfl

end Task

structure Learns (t : Task) (p : PointerId) (fresh : ObjSet) (s s' : State) : Prop where
  progress : Progress t (fresh.size * t.world.program.stmts.length) (t.gainMisses s.entities p fresh) s s'
  done : ∀ c v, s.entities.cellOf? p = some (.var c v) →
    ∀ j ∈ fresh, ∀ o, s.entities.objectOf? j = some o → LearnDone t s'.Holds c v o

inductive Steps (t : Task) (s : State) : State → Prop
  | entry {p : PointerId} {set : ObjSet} {w : Worklist} {s₁ s' : State} :
      s.work.toList.Perm ((p, set) :: w.toList) →
      Learns t p ((s.entities.pointsTo p).missing set) (s.absorbed p set w) s₁ →
      Drained t s₁ s' → Steps t s s'

section
variable {t : Task} {s s' : State}

theorem Task.gainMisses_of_ne_var {e : Entities} {p : PointerId} {cell : Cell}
    (hp : e.cellOf? p = some cell) (hv : ∀ c v, cell ≠ .var c v) (set : ObjSet) :
    t.gainMisses e p set = 0 := by
  unfold gainMisses
  rw [List.sum_eq_zero]
  intro n hn
  obtain ⟨_, _, rfl⟩ := List.mem_map.mp hn
  rw [hp]
  cases cell with
  | var c v => exact absurd rfl (hv c v)
  | _ => rfl

/-- Only a variable has anything to see to. -/
theorem ends_idle {p : PointerId} {fresh : ObjSet} (hs : s.Justified t)
    (hk : t.gainMisses s.entities p fresh = 0)
    (hno : ∀ c v, s.entities.cellOf? p = some (.var c v) → ∀ j, j ∉ fresh) :
    Ends (pure () : Solve Unit) s (fun _ s' => Learns t p fresh s s')
      fun e s' => Path t s s' ∧ Fault t.world t.Derives e := by
  have hspec : Spec t 0 (t.gainMisses s.entities p fresh) (pure () : Solve Unit) s fun _ s' => ∀ c v,
      s.entities.cellOf? p = some (.var c v) → ∀ j ∈ fresh, ∀ o, s.entities.objectOf? j = some o →
        LearnDone t s'.Holds c v o := by
    rw [hk]
    exact .pure fun c v hc j hj => absurd hj (hno c v hc j)
  exact (hspec.weaken (Nat.zero_le _) hs).mono (fun _ _ hr => ⟨hr.1, hr.2⟩) fun _ _ he => he

/-- The objects that a variable has learned of, one after the other. -/
theorem spec_learnAll (ht : t.Valid) {p : PointerId} {fresh : ObjSet} {i : ContextId} {c : Context}
    {v : VarId} (hsup : s.entities.Supports t p fresh) (hi : s.entities.context? i = some c)
    (hp : s.entities.cellOf? p = some (.var c v)) :
    Spec t (fresh.toList.map fun _ => (t.index.accessesOf v).calls.length).sum
      (t.gainMisses s.entities p fresh) (fresh.toList.forM (t.learn i v)) s fun _ s' =>
        ∀ j ∈ fresh, ∀ o, s.entities.objectOf? j = some o → LearnDone t s'.Holds c v o := by
  refine Spec.forM (R := fun j s' => ∀ o, s.entities.objectOf? j = some o →
    LearnDone t s'.Holds c v o) ?_ _ ?_
  · exact fun j s₁ s₂ hg h o ho => (h o ho).mono fun _ => hg.holds
  · intro j hj s₁ hg
    obtain ⟨cell, o, hcell, ho, hd⟩ := hsup j hj
    cases Option.some.inj (hp.symm.trans hcell)
    rw [hp, ho]
    refine (spec_learn ht (hg.entities.context hi) (hg.entities.object ho) hd).mono ?_
    intro _ s' _ hdone o' ho'
    cases Option.some.inj ho'
    exact hdone

theorem ends_digest (ht : t.Valid) {p : PointerId} {fresh : ObjSet} (hs : s.Justified t)
    (hsup : s.entities.Supports t p fresh) : Ends (t.digest p fresh) s
      (fun _ s' => Learns t p fresh s s') fun e s' => Path t s s' ∧ Fault t.world t.Derives e := by
  unfold Task.digest
  cases hf : fresh.isEmpty with
  | true =>
    have hnil : fresh.toList = [] := List.isEmpty_iff.mp hf
    exact ends_idle hs (by simp [Task.gainMisses, hnil]) fun _ _ _ => ObjSet.isEmpty_iff.mp hf
  | false =>
    -- something is new at `p`, so `p` stands for a cell
    have hne : ∃ j, j ∈ fresh := by
      by_contra hno
      have := ObjSet.isEmpty_iff.mpr fun j hj => hno ⟨j, hj⟩
      rw [hf] at this; cases this
    obtain ⟨j, hj⟩ := hne
    obtain ⟨cell, _, hcell, _, _⟩ := hsup j hj
    obtain ⟨a, ha, hac⟩ := Entities.cellOf?_eq_some.mp hcell
    have hother : (∀ c v, cell ≠ .var c v) → Ends (pure () : Solve Unit) s
        (fun _ s' => Learns t p fresh s s') fun e s' => Path t s s' ∧ Fault t.world t.Derives e :=
      fun hv => ends_idle hs (Task.gainMisses_of_ne_var hcell hv fresh) fun c v hc =>
        absurd (Option.some.inj (hcell.symm.trans hc)) (hv c v)
    rw [Bool.not_false, if_pos rfl, ends_bind, ends_get, ends_bind]
    rw [show s.entities.pointer? p = some a from ha]
    show Ends (match a with | .var context v => fresh.toList.forM (t.learn context v) | _ => pure ()) s _ _
    cases a with
    | var i v =>
      obtain ⟨c, hi, rfl⟩ := Option.map_eq_some_iff.mp hac
      have hcost : (fresh.toList.map fun _ => (t.index.accessesOf v).calls.length).sum ≤
          fresh.size * t.world.program.stmts.length := by
        rw [List.map_const', List.sum_replicate_nat]
        exact Nat.mul_le_mul_left _ (AccessIndex.length_calls_le ht.index)
      refine ((spec_learnAll ht hsup hi hcell).weaken hcost hs).mono (fun _ s' hr => ⟨hr.1, ?_⟩)
        fun _ _ he => he
      intro c' v' hc'
      cases Option.some.inj (hcell.symm.trans hc')
      exact hr.2
    | staticField f => cases Option.some.inj hac; exact hother fun _ _ h => (by cases h)
    | instanceField o f =>
      obtain ⟨x, _, rfl⟩ := Option.map_eq_some_iff.mp hac
      exact hother fun _ _ h => (by cases h)
    | arrayIndex o =>
      obtain ⟨x, _, rfl⟩ := Option.map_eq_some_iff.mp hac
      exact hother fun _ _ h => (by cases h)

/-! ## Steps -/

theorem Steps.evolves (h : Steps t s s') : Evolves t s s' := by
  cases h with
  | entry hpop hl hd =>
    exact ((Change.evolves (.absorb hpop)).trans hl.progress.path.evolves).trans hd.evolves

theorem Steps.invariant (h : Steps t s s') (hs : s.Invariant t) : s'.Invariant t :=
  h.evolves.invariant hs

def StepEnds (t : Task) (s : State) (more : Bool) (s' : State) : Prop :=
  ∃ s₁, Launches t s s₁ ∧ if more then Steps t s₁ s' else s' = s₁ ∧ s₁.work.toList = []

theorem StepEnds.evolves {more : Bool} (h : StepEnds t s more s') : Evolves t s s' := by
  obtain ⟨s₁, hl, h⟩ := h
  cases more with
  | false => exact h.1 ▸ hl.evolves
  | true => exact hl.evolves.trans (Steps.evolves h)

theorem StepEnds.invariant {more : Bool} (h : StepEnds t s more s') (hs : s.Invariant t) :
    s'.Invariant t := h.evolves.invariant hs

theorem ends_step (ht : t.Valid) (hs : s.Invariant t) : Ends t.step s (StepEnds t s) (Fails t s) := by
  rw [Task.step_eq, ends_bind]
  refine (ends_launch ht hs).mono (fun _ s₁ hl => ?_) fun _ _ he => he
  have hs₁ := hl.invariant hs
  rw [ends_bind]
  unfold Ends
  rw [apply_pop?]
  cases hw : s₁.work.pop? with
  | none => exact ⟨s₁, hl, rfl, Worklist.pop?_eq_none.mp hw⟩
  | some x =>
    obtain ⟨⟨p, set⟩, w⟩ := x
    have hpop := Worklist.pop?_eq_some hw
    have hs₂ := hs₁.absorbed hpop
    have h₂ : Evolves t s (s₁.absorbed p set w) := hl.evolves.tail (.absorb hpop)
    show Ends (Task.propagate p set >>= fun fresh => _) _ _ _
    rw [ends_bind]
    unfold Ends
    rw [apply_propagate (hs₁.justified.pointer_lt hpop)]
    show Ends (t.digest p _ >>= fun _ => _) (s₁.absorbed p set w) _ _
    rw [ends_bind]
    refine (ends_digest ht hs₂.justified fun j hj => ?_).mono (fun _ s₃ hd => ?_) fun _ _ he => ?_
    · refine hs₂.justified.points p j ?_
      exact (hs₁.justified.mem_pointsTo_absorbed hpop).mpr (Or.inr ⟨rfl, (ObjSet.mem_missing.mp hj).1⟩)
    · rw [ends_bind]
      refine (ends_drain ht (hd.progress.path.invariant hs₂)).mono (fun _ s' h => ?_) fun _ _ he => ?_
      · exact ⟨s₁, hl, .entry hpop hd h⟩
      · exact Fails.after (h₂.trans hd.progress.path.evolves) he
    · exact ⟨h₂.trans he.1.evolves, Or.inl he.2⟩

inductive Runs (t : Task) : State → State → Prop
  | done {s s' : State} : StepEnds t s false s' → Runs t s s'
  | step {s s₁ s' : State} : StepEnds t s true s₁ → Runs t s₁ s' → Runs t s s'

theorem evolves_of_stepTurns (ht : t.Valid) {n : Nat} (h : Turns t.step n s s') (hs : s.Invariant t) :
    Evolves t s s' := by
  refine h.keeps (P := fun s₁ => Evolves t s s₁) (fun s₁ s₂ h₁ hone => ?_) .refl
  have he : StepEnds t _ true _ := (ends_step ht (h₁.invariant hs)).of_ok hone
  exact h₁.trans he.evolves

theorem invariant_of_stepTurns (ht : t.Valid) {n : Nat} (h : Turns t.step n s s') (hs : s.Invariant t) :
    s'.Invariant t := (evolves_of_stepTurns ht h hs).invariant hs

theorem runs_of_turns (ht : t.Valid) {n : Nat} {s₁ : State} (h : Turns t.step n s s₁)
    (h' : t.step.apply s₁ = (.ok false, s')) (hs : s.Invariant t) : Runs t s s' := by
  induction h with
  | none => exact .done ((ends_step ht hs).of_ok h')
  | more hone _ ih =>
    have he : StepEnds t _ true _ := (ends_step ht hs).of_ok hone
    exact .step he (ih h' (he.invariant hs))

theorem ends_run (ht : t.Valid) (hs : s.Invariant t) : Ends t.run s
    (fun _ s' => ∃ s₁, Launches t s s₁ ∧ Runs t s₁ s') fun e s' => Fails t s e s' ∨
      e = .unfinished ∧ ∃ s₁, Launches t s s₁ ∧ Turns t.step (2 ^ t.limit - 1) s₁ s' := by
  unfold Task.run
  rw [ends_bind]
  refine (ends_launch ht hs).mono (fun _ s₁ hl => ?_) fun _ _ he => Or.inl he
  have hs₁ := hl.invariant hs
  refine (ends_toEnd t s₁).mono (fun _ s' h => ?_) fun e s' h => ?_
  · obtain ⟨n, s₂, hn, h⟩ := h
    exact ⟨s₁, hl, runs_of_turns ht hn h hs₁⟩
  · rcases h with ⟨n, s₂, hn, h⟩ | ⟨rfl, hn⟩
    · have hfails : Fails t s₂ e s' := (ends_step ht (invariant_of_stepTurns ht hn hs₁)).of_error h
      exact Or.inl (hfails.after (hl.evolves.trans (evolves_of_stepTurns ht hn hs₁)))
    · exact Or.inr ⟨rfl, s₁, hl, hn⟩

theorem Runs.evolves (h : Runs t s s') : Evolves t s s' := by
  induction h with
  | done he => exact he.evolves
  | step he _ ih => exact he.evolves.trans ih

theorem Task.runs_of_solve (ht : t.Valid) {order : Order} (h : t.solve order = .ok s) :
    ∃ s₁, Launches t (.initial order) s₁ ∧ Runs t s₁ s := by
  have hend := ends_run ht (State.invariant_initial t order)
  unfold Task.solve at h
  rcases hr : t.run.apply (.initial order) with ⟨_ | _, s'⟩
  · rw [hr] at h; cases h
  · rw [hr] at h
    cases Except.ok.inj h
    exact hend.of_ok hr

theorem Task.evolves_of_solve (ht : t.Valid) {order : Order} (h : t.solve order = .ok s) :
    Evolves t (.initial order) s := by
  obtain ⟨s₁, hl, hrun⟩ := Task.runs_of_solve ht h
  exact hl.evolves.trans hrun.evolves

/-! ## Reached states -/

/-- The states that any number of starts and steps lead to, failed ones among them. -/
inductive Reached (t : Task) (order : Order) : State → Prop
  | initial : Reached t order (.initial order)
  | launch {s : State} : Reached t order s → Reached t order (t.launch.apply s).2
  | step {s : State} : Reached t order s → Reached t order (t.step.apply s).2

theorem Task.reached_of_solve {order : Order} (h : t.solve order = .ok s) : Reached t order s := by
  have hlaunch : Reached t order (t.launch.apply (.initial order)).2 := .launch .initial
  have hturn : ∀ {s s' r}, Reached t order s → t.step.apply s = (r, s') → Reached t order s' := by
    intro s s' r hs hstep
    have hnext := hs.step
    rwa [hstep] at hnext
  unfold Task.solve Task.run at h
  rw [apply_bind] at h
  rcases hl : t.launch.apply (.initial order) with ⟨_ | _, s₁⟩
  · rw [hl] at h; cases h
  · rw [hl] at h hlaunch
    rcases hr : (t.toEnd t.step).apply s₁ with ⟨_ | _, s'⟩
    · simp only [hr] at h; cases h
    · simp only [hr] at h
      cases Except.ok.inj h
      obtain ⟨n, s₂, hn, hlast⟩ := (ends_toEnd t s₁).of_ok hr
      exact hturn (hn.keeps (fun _ _ => hturn) hlaunch) hlast

theorem evolves_launch (ht : t.Valid) (hs : s.Invariant t) : Evolves t s (t.launch.apply s).2 :=
  ((ends_launch ht hs).mono (fun _ _ hl => Launches.evolves hl) fun _ _ he => he.1).state

theorem evolves_step (ht : t.Valid) (hs : s.Invariant t) : Evolves t s (t.step.apply s).2 :=
  ((ends_step ht hs).mono (fun _ _ he => StepEnds.evolves he) fun _ _ he => he.1).state

theorem Reached.evolves (ht : t.Valid) {order : Order} (h : Reached t order s) :
    Evolves t (.initial order) s := by
  have hinitial := State.invariant_initial t order
  induction h with
  | initial => exact .refl
  | launch _ ih => exact ih.trans (evolves_launch ht (ih.invariant hinitial))
  | step _ ih => exact ih.trans (evolves_step ht (ih.invariant hinitial))

theorem Reached.invariant (ht : t.Valid) {order : Order} (h : Reached t order s) : s.Invariant t :=
  (h.evolves ht).invariant (State.invariant_initial t order)

theorem Reached.fault_of_error (ht : t.Valid) {order : Order} (h : Reached t order s) {e : Error}
    (he : (t.launch.apply s).1 = .error e ∨ (t.step.apply s).1 = .error e) :
    Fault t.world t.Derives e ∨ e = .unfinished ∧ Overruns t := by
  have hs := h.invariant ht
  obtain he | he := he
  · exact ((ends_launch ht hs).of_error (Prod.ext he rfl)).2
  · exact ((ends_step ht hs).of_error (Prod.ext he rfl)).2

end

end PointsTo
