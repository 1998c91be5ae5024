import PointsTo.Proofs.Settling

/-!
# The end of a run is the least fixpoint

Where nothing waits and nothing is owed, the facts of a state are closed under
the rules and give rise to no fault. As they are also derivable, they are the
least closed set, whatever the order of the run.
-/

namespace PointsTo

namespace State.Final
variable {t : Task} {s : State} (h : s.Final t)
include h

theorem has_of_holds {f : Fact} (hf : s.Holds f) : s.Has f := by
  cases f with
  | reaches m =>
    refine hf.elim id ?_
    rintro ⟨i, hi, _⟩
    rw [h.pending] at hi; cases hi
  | points p o =>
    refine hf.elim id ?_
    rintro ⟨i, j, set, _, _, hx, _⟩
    rw [h.work] at hx; cases hx
  | flows p q => exact hf
  | calls e => exact hf

theorem stmtDone {c : Context} {site : StmtId} {st : Stmt} (hr : s.Reaches ⟨c, site.method⟩)
    (hs : t.world.program.stmt? site = some st) : StmtDone t s.Has c site st := by
  obtain ⟨i, hi, hm⟩ := hr
  have hdone := (h.settled.entered i hi _ hm).resolve_left id
  exact (hdone (site, st) (Program.mem_body.mpr ⟨rfl, hs⟩)).mono fun _ => h.has_of_holds

theorem learnDone {c : Context} {v : VarId} {o : Instance} (hp : s.Points (.var c v) o) :
    LearnDone t s.Has c v o := by
  obtain ⟨i, j, hi, hj, hmem⟩ := hp
  exact ((h.settled.learned i j hmem c v o hi hj).resolve_left id).mono fun _ => h.has_of_holds

theorem bound {e : Link} (hc : s.Calls e) : Bound t s.Has s.Knows e := by
  obtain ⟨i, hi, he⟩ := hc
  obtain ⟨e', he', hb⟩ := h.settled.bound i hi
  cases Option.some.inj (he.symm.trans he')
  exact hb.mono (fun _ => h.has_of_holds) fun _ hk => hk

theorem callDone (ht : t.Valid) {c : Context} {site : StmtId} {call : Call} {o : Instance} {obj : Obj}
    {m : MethodId} (hd : Dispatches t.world s.Has c site call o obj m) :
    ∃ method this, t.world.program.method? m = some method ∧ method.thisVar = some this ∧
      s.Has (.points (.var (t.selector.onObject c site o.heap o.obj obj m) this) o) ∧
      s.Has (.calls ⟨.ofCall call.kind, ⟨c, site.method⟩, ⟨c, site⟩,
        ⟨t.selector.onObject c site o.heap o.obj obj m, m⟩⟩) := by
  obtain ⟨r, hr, hp⟩ := hd.receiver
  have hmem := (AccessIndex.mem_calls ht.index).mpr ⟨call, hd.stmt, hr⟩
  exact (h.learnDone hp).calls site hmem call obj m hd.stmt hd.object hd.callee

/-- All rules have been applied. -/
theorem closed (ht : t.Valid) : Closed t.world t.selector s.Has := by
  intro f r
  cases r with
  | entry => exact h.has_of_holds (h.invariant.waits.entry h.started)
  | alloc hr hs ho hb =>
    obtain ⟨o, obj, ho', hb', hp⟩ := h.stmtDone hr hs
    cases Option.some.inj (ho.symm.trans ho')
    cases Option.some.inj (hb.symm.trans hb')
    exact hp
  | copy hr hs => exact h.stmtDone hr hs
  | loadStatic hr hs hf =>
    obtain ⟨f, hf', hflow⟩ := h.stmtDone hr hs
    cases Except.ok.inj (hf.symm.trans hf')
    exact hflow
  | storeStatic hr hs hf =>
    obtain ⟨f, hf', hflow⟩ := h.stmtDone hr hs
    cases Except.ok.inj (hf.symm.trans hf')
    exact hflow
  | loadField hr hs hf ho =>
    exact (h.learnDone ho).fieldLoads _ ((AccessIndex.mem_fieldLoads ht.index).mpr ⟨_, _, hs, hf⟩)
  | storeField hr hs hf ho =>
    exact (h.learnDone ho).fieldStores _ ((AccessIndex.mem_fieldStores ht.index).mpr ⟨_, _, hs, hf⟩)
  | loadArray hr hs ho =>
    exact (h.learnDone ho).arrayLoads _ ((AccessIndex.mem_arrayLoads ht.index).mpr ⟨_, hs⟩)
  | storeArray hr hs ho =>
    exact (h.learnDone ho).arrayStores _ ((AccessIndex.mem_arrayStores ht.index).mpr ⟨_, hs⟩)
  | staticCall hr hs hk hc => exact h.stmtDone hr hs hk _ hc
  | instanceCall hd hm hthis =>
    obtain ⟨_, _, _, _, _, hcalls⟩ := h.callDone ht hd
    exact hcalls
  | this hd hm hthis =>
    obtain ⟨method, this, hm', hthis', hp, _⟩ := h.callDone ht hd
    cases Option.some.inj (hm.symm.trans hm')
    cases Option.some.inj (hthis.symm.trans hthis')
    exact hp
  | callee he =>
    obtain ⟨i, hi, hl⟩ := he
    refine ⟨i.callee, (h.invariant.waits.callee i hi).resolve_right ?_, ?_⟩
    · rw [h.pending]; exact List.not_mem_nil
    · exact (Entities.linkOf?_eq_some.mp hl).2.2.2
  | arg he hj hn ha =>
    obtain ⟨call, method, hj', _, hargs, _⟩ := h.bound he
    cases Option.some.inj (hj.stmt.symm.trans hj'.stmt)
    cases Option.some.inj (hj.callee.symm.trans hj'.callee)
    exact hargs _ ha
  | result he hj hn hr hv =>
    obtain ⟨call, method, hj', _, _, hresult⟩ := h.bound he
    cases Option.some.inj (hj.stmt.symm.trans hj'.stmt)
    cases Option.some.inj (hj.callee.symm.trans hj'.callee)
    exact (hresult _ hr).2 _ hv
  | flow hf ho =>
    obtain ⟨i, j, hp, hq, hj⟩ := hf
    obtain ⟨i', k, hp', ho, hk⟩ := ho
    cases Entities.cellOf?_inj hp hp'
    -- what has not arrived over the edge would still be waiting
    refine ⟨j, k, hq, ho, (h.invariant.waits.flow i j hj k hk).resolve_right ?_⟩
    rintro ⟨set, hset, _⟩
    rw [h.work] at hset; cases hset

/-- What a state has at the end is what can be derived. -/
theorem has_iff (ht : t.Valid) (f : Fact) : s.Has f ↔ t.Derives f := by
  refine ⟨fun hf => h.invariant.justified.derives ?_, fun hd => hd _ (h.closed ht)⟩
  cases f with
  | reaches m => exact Or.inl hf
  | points p o => exact Or.inl hf
  | flows p q => exact hf
  | calls e => exact hf

/-- A run that meets a fault does not come to its end. -/
theorem no_fault (ht : t.Valid) (e : Error) : ¬ Fault t.world t.Derives e := by
  intro hfault
  -- where a fault could arise, what has been done there rules it out
  cases hfault.mono fun f hf => (h.has_iff ht f).mpr hf with
  | noObject hr hs ho =>
    obtain ⟨o, _, ho', _⟩ := h.stmtDone hr hs
    rw [ho] at ho'; cases ho'
  | lostObject hr hs ho hb =>
    obtain ⟨o, obj, ho', hb', _⟩ := h.stmtDone hr hs
    cases Option.some.inj (ho.symm.trans ho')
    rw [hb] at hb'; cases hb'
  | staticTarget hd hm hthis _ =>
    obtain ⟨method, this, hm', hthis', _⟩ := h.callDone ht hd
    cases Option.some.inj (hm.symm.trans hm')
    rw [hthis] at hthis'; cases hthis'
  | arity he hj hn _ =>
    obtain ⟨call, method, hj', hn', _⟩ := h.bound he
    cases Option.some.inj (hj.stmt.symm.trans hj'.stmt)
    cases Option.some.inj (hj.callee.symm.trans hj'.callee)
    exact hn hn'

end State.Final

end PointsTo
