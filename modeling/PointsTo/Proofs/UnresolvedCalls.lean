import PointsTo.Proofs.Blanking
import PointsTo.Proofs.Monotonicity

/-!
# Calls that lead nowhere

A call without an edge in the call graph leaves nothing in a run but a count:
with `nop` in its place, a run passes through the same states.
-/

namespace PointsTo
open Solve

/-! ## Another count -/

def State.recount (s : State) (n : Nat) : State := { s with unresolved := n }

def Recounted (s s' : State) : Prop := ∃ n ≤ s.unresolved, s' = s.recount n

instance : Loyal Recounted where
  veil := by
    rintro s _ ⟨n, hn, rfl⟩
    refine ⟨s.entities.contexts, s.entities.objs, n, rfl, fun s₁ halike => ⟨n, ?_, ?_⟩⟩
    · rw [halike.unresolved]
      exact hn
    · rw [← halike.contexts, ← halike.objs]
      rfl

section
variable {α β : Type} {s : State}

/-- What is looked up does not depend on the count. -/
theorem recounted_look {g : State → Option β} {f f' : β → Solve α} (hg : ∀ s n, g (s.recount n) = g s)
    (h : ∀ y, Simulates Recounted (f y) (f' y) s) :
    Simulates Recounted (get >>= fun s => known (g s) >>= f) (get >>= fun s => known (g s) >>= f') s := by
  refine .look ?_ fun y _ => h y
  rintro _ ⟨n, _, rfl⟩
  exact hg s n

theorem recounted_contextOf {i : ContextId} {f f' : Context → Solve α}
    (h : ∀ c, Simulates Recounted (f c) (f' c) s) :
    Simulates Recounted (contextOf i >>= f) (contextOf i >>= f') s :=
  recounted_look (g := fun s => s.entities.context? i) (fun _ _ => rfl) h

theorem recounted_onEntities {f : Entities → α × Entities}
    (hf : s.Keeps { s with entities := (f s.entities).2 }) :
    Simulates Recounted (onEntities f) (onEntities f) s := by
  intro r s₁ hr
  cases hr
  refine ⟨hf, ?_⟩
  rintro _ ⟨n, hn, rfl⟩
  exact ⟨_, ⟨n, hn, rfl⟩, rfl⟩

theorem recounted_internContext (c : Context) : Simulates Recounted (internContext c) (internContext c) s :=
  recounted_onEntities ⟨Table.prefix_intern _ c, List.prefix_rfl⟩

theorem recounted_internObj (i : ContextId) (o : ObjId) :
    Simulates Recounted (internObj i o) (internObj i o) s :=
  recounted_onEntities ⟨List.prefix_rfl, Table.prefix_intern _ _⟩

theorem recounted_miss : Simulates Recounted countUnresolved countUnresolved s := by
  intro r s₁ hr
  cases hr
  refine ⟨⟨List.prefix_rfl, List.prefix_rfl⟩, ?_⟩
  rintro _ ⟨n, hn, rfl⟩
  exact ⟨_, ⟨n + 1, Nat.succ_le_succ hn, rfl⟩, rfl⟩

theorem recounted_drop : Simulates Recounted countUnresolved (pure ()) s := by
  intro r s₁ hr
  cases hr
  refine ⟨⟨List.prefix_rfl, List.prefix_rfl⟩, ?_⟩
  rintro _ ⟨n, hn, rfl⟩
  exact ⟨_, ⟨n, Nat.le_succ_of_le hn, rfl⟩, rfl⟩

end

/-! ## Actions that do not look at the count -/

namespace Task
variable (t : Task) {s : State}

theorem recounted_staticCall (caller : CSMethodId) (i : ContextId) (site : StmtId) (call : Call) :
    Simulates Recounted (t.staticCall caller i site call) (t.staticCall caller i site call) s := by
  unfold staticCall
  cases t.world.hierarchy.callee? none call with
  | error e => exact .of_error rfl
  | ok r =>
    refine .ofExcept rfl rfl ?_
    cases r with
    | none => exact recounted_miss
    | some m =>
      refine recounted_contextOf fun c => ?_
      refine (recounted_internContext _).bind fun k s₁ _ _ => ?_
      refine .seq (blind_internMethod k m) fun callee s₂ _ _ => ?_
      refine .seq (blind_internSite i site) fun csSite s₃ _ _ => ?_
      exact .of_blind (t.blind_link _ _ _ _ _)

theorem recounted_instanceCall (i : ContextId) (j : CSObjId) (site : StmtId) :
    Simulates Recounted (t.instanceCall i j site) (t.instanceCall i j site) s := by
  unfold instanceCall
  refine .seq (blind_known _) fun method s₁ _ _ => ?_
  cases method.body[site.index]?.bind Stmt.call? with
  | none => exact .of_error rfl
  | some call =>
    refine recounted_look (g := fun s => s.entities.obj? j) (fun _ _ => rfl) fun receiver => ?_
    refine .seq (blind_known _) fun obj s₂ _ _ => ?_
    cases t.world.hierarchy.callee? (some obj.cls) call with
    | error e => exact .of_error rfl
    | ok r =>
      refine .ofExcept rfl rfl ?_
      cases r with
      | none => exact recounted_miss
      | some m =>
        refine recounted_contextOf fun c => recounted_contextOf fun c' => ?_
        refine (recounted_internContext _).bind fun k s₃ _ _ => ?_
        refine .seq (blind_internMethod k m) fun callee s₄ _ _ => ?_
        refine .seq (blind_known _) fun target s₅ _ _ => ?_
        cases target.thisVar with
        | none => exact .of_blind ((blind_known _).bind fun _ => blind_throw _)
        | some this =>
          refine .of_blind ((blind_pointer _).bind fun p => (blind_push p _).bind fun _ => ?_)
          exact (blind_internMethod _ _).bind fun _ => (blind_internSite _ _).bind fun _ => t.blind_link _ _ _ _ _

theorem recounted_alloc (i : ContextId) (site : StmtId) (lhs : VarId) :
    Simulates Recounted (t.alloc i site lhs) (t.alloc i site lhs) s := by
  unfold alloc
  cases t.world.heap.objAt? site with
  | none => exact .of_error rfl
  | some o =>
    refine .seq (blind_known _) fun obj s₁ _ _ => recounted_contextOf fun c => ?_
    refine (recounted_internContext _).bind fun k s₂ _ _ => ?_
    refine (recounted_internObj k o).bind fun j s₃ _ _ => ?_
    exact .of_blind ((blind_pointer _).bind fun _ => blind_push _ _)

theorem recounted_stmt (m : CSMethodId) (i : ContextId) (site : StmtId) (st : Stmt) :
    Simulates Recounted (t.stmt m i site st) (t.stmt m i site st) s := by
  have hfield := t.blind_staticField site
  cases st with
  | alloc lhs cls => exact t.recounted_alloc i site lhs
  | copy lhs rhs => exact .of_blind (blind_flow _ _)
  | loadField lhs base ref =>
    cases base with
    | some b => exact .of_blind (blind_pure ())
    | none => exact .of_blind (hfield.bind fun f => blind_flow _ _)
  | storeField base ref rhs =>
    cases base with
    | some b => exact .of_blind (blind_pure ())
    | none => exact .of_blind (hfield.bind fun f => blind_flow _ _)
  | invoke call =>
    unfold stmt
    dsimp only
    split
    · exact t.recounted_staticCall m i site call
    · split
      · exact recounted_miss
      · exact .of_blind (blind_pure ())
  | loadArray lhs base => exact .of_blind (blind_pure ())
  | storeArray base rhs => exact .of_blind (blind_pure ())
  | ret value => exact .of_blind (blind_pure ())
  | nop => exact .of_blind (blind_pure ())

end Task

/-! ## Tasks without the calls -/

theorem known_map_bind {α β γ : Type} (x : Option α) (g : α → β) (f : β → Solve γ) :
    known (x.map g) >>= f = known x >>= fun y => f (g y) := by
  cases x <;> rfl

/-- `t'` is the task `t` without the calls at `dead` sites, where `t` finds no edge and no fault. -/
structure Task.Blanks (dead : StmtId → Bool) (t t' : Task) : Prop where
  valid : t.Valid
  valid' : t'.Valid
  program : t'.world.program = t.world.program.blank dead
  heap : t'.world.heap = t.world.heap
  entry : t'.world.entry = t.world.entry
  selector : t'.selector = t.selector
  limit : t'.limit = t.limit
  idle : ∀ {e}, t.Derives (.calls e) → dead e.site.stmt = false
  no_fault : ∀ e, ¬ Fault t.world t.Derives e

namespace Task.Blanks
variable {dead : StmtId → Bool} {t t' : Task} (h : t.Blanks dead t') {s : State} {i : ContextId} {c : Context}
include h

theorem callee (type : Option ClassId) (call : Call) :
    t'.world.hierarchy.callee? type call = t.world.hierarchy.callee? type call := by
  rw [h.valid.world.hierarchy, h.valid'.world.hierarchy, h.program]
  exact (t.world.program.agrees_blank dead).callee? type call

theorem signature (m : MethodId) : t'.world.program.signature? m = t.world.program.signature? m := by
  rw [h.program]
  exact (t.world.program.agrees_blank dead).signature? m

theorem index : AccessIndex.ofHierarchy (.ofProgram t.world.program) = .ok t.index := by
  rw [← h.valid.world.hierarchy]
  exact h.valid.index

theorem index' : AccessIndex.ofHierarchy (.ofProgram (t.world.program.blank dead)) = .ok t'.index := by
  rw [← h.program, ← h.valid'.world.hierarchy]
  exact h.valid'.index

theorem method (m : MethodId) :
    t'.world.program.method? m = (t.world.program.method? m).map (.blank dead m) := by
  rw [h.program, Program.method?_blank]

theorem link_eq (edge : Edge CSCallSiteId CSMethodId) (caller : ContextId) (call : Call) (c : ContextId)
    (m : MethodId) : t'.link edge caller call c m = t.link edge caller call c m := by
  have hbind : t'.bindCall caller call c m = t.bindCall caller call c m := by
    unfold Task.bindCall
    rw [h.method, h.signature, known_map_bind]
    simp only [Method.returnVars_blank]
    rfl
  unfold Task.link
  rw [hbind]

theorem staticCall_eq (caller : CSMethodId) (site : StmtId) (call : Call) :
    t'.staticCall caller i site call = t.staticCall caller i site call := by
  unfold Task.staticCall
  rw [h.callee, h.selector]
  simp only [h.link_eq]

theorem instanceCall_eq {site : StmtId} (hlive : dead site = false) (j : CSObjId) :
    t'.instanceCall i j site = t.instanceCall i j site := by
  have hbody (method : Method) :
      (method.blank dead site.method).body[site.index]? = method.body[site.index]? := by
    cases hst : method.body[site.index]? with
    | none => simp [Method.blank, hst]
    | some st =>
      rcases st.blank_cases dead site with hblank | ⟨_, _, hdead, _⟩
      · simp [Method.blank, hst, hblank]
      · rw [hlive] at hdead
        cases hdead
  unfold Task.instanceCall
  simp only [h.method, known_map_bind, h.callee, h.selector, h.heap, h.signature, h.link_eq, hbody]
  rfl

theorem stmt_eq (m : CSMethodId) {site : StmtId} {st : Stmt} (hs : t.world.program.stmt? site = some st) :
    t'.stmt m i site st = t.stmt m i site st := by
  have hfield : ∀ {ref}, AccessIndex.staticRef? st = some ref → t'.staticField site = t.staticField site := by
    intro ref href
    unfold Task.staticField
    rw [AccessIndex.staticField?_blank dead h.index h.index' hs href]
  cases st with
  | alloc lhs cls =>
    show t'.alloc i site lhs = t.alloc i site lhs
    unfold Task.alloc
    rw [h.heap, h.selector]
  | loadField lhs base ref =>
    cases base with
    | some b => rfl
    | none =>
      unfold Task.stmt
      dsimp only
      rw [hfield rfl]
  | storeField base ref rhs =>
    cases base with
    | some b => rfl
    | none =>
      unfold Task.stmt
      dsimp only
      rw [hfield rfl]
  | invoke call =>
    unfold Task.stmt
    dsimp only
    rw [h.staticCall_eq]
  | _ => rfl

/-! ## Calls that are gone -/

section
variable {site : StmtId} (hdead : dead site = true)
include hdead

theorem staticCall {caller : CSMethodId} {call : Call} (hr : t.Derives (.reaches ⟨c, site.method⟩))
    (hs : t.world.program.stmt? site = some (.invoke call)) (hk : call.isStatic = true) :
    Simulates Recounted (t.staticCall caller i site call) (pure ()) s := by
  obtain ⟨r, hc⟩ := t.world.hierarchy.callee?_static hk none
  unfold Task.staticCall
  rw [hc]
  cases r with
  | none => exact recounted_drop
  | some m =>
    have hd := h.idle (.rule (.staticCall hr hs hk hc))
    rw [hdead] at hd
    cases hd

theorem not_dispatches {call : Call} {o : Instance} {obj : Obj} {m : MethodId} :
    ¬ Dispatches t.world t.Derives c site call o obj m := by
  intro hdisp
  obtain ⟨target, htarget⟩ := callee_known h.valid.world hdisp.callee
  cases hthis : target.thisVar with
  | none =>
    obtain ⟨text, htext⟩ := Program.signature?_of_method h.valid.world.check htarget
    exact h.no_fault _ (.staticTarget hdisp htarget hthis htext)
  | some this =>
    have hd := h.idle (.rule (.instanceCall hdisp htarget hthis))
    rw [hdead] at hd
    cases hd

theorem instanceCall {v : VarId} {j : CSObjId} {o : Instance} (hj : s.entities.objectOf? j = some o)
    (hp : t.Derives (.points (.var c v) o)) (hv : site ∈ (t.index.accessesOf v).calls) :
    Simulates Recounted (t.instanceCall i j site) (pure ()) s := by
  obtain ⟨call, hs, hrec⟩ := (AccessIndex.mem_calls h.valid.index).mp hv
  have hs : t.world.program.stmt? site = some (.invoke call) := hs
  obtain ⟨method, hmethod, hbody⟩ := Program.method?_of_stmt? hs
  have hreach : t.Derives (.reaches ⟨c, site.method⟩) :=
    hp.reaches_of_used h.valid.world hs (by simp [Stmt.used, hrec])
  obtain ⟨_, obj, hobj⟩ := hp.grounded h.valid.world
  obtain ⟨r, hc⟩ := t.world.hierarchy.callee?_some obj.cls call
  obtain ⟨k, hrecord, _⟩ := Entities.objectOf?_eq_some.mp hj
  unfold Task.instanceCall
  refine .of_known fun method' hmethod' => ?_
  cases Option.some.inj (hmethod.symm.trans hmethod')
  rw [hbody]
  refine .of_read (g := fun s => s.entities.obj? j) hrecord (.of_known fun obj' hobj' => ?_)
  cases Option.some.inj (hobj.symm.trans hobj')
  rw [hc]
  cases r with
  | none => exact recounted_drop
  | some m => exact absurd ⟨hreach, hs, ⟨v, hrec, hp⟩, hobj, hc⟩ (h.not_dispatches hdead)

end

theorem stmt {m : CSMethodId} {site : StmtId} {st : Stmt} (hr : t.Derives (.reaches ⟨c, site.method⟩))
    (hs : t.world.program.stmt? site = some st) :
    Simulates Recounted (t.stmt m i site st) (t'.stmt m i site (st.blank dead site)) s := by
  rcases st.blank_cases dead site with hst | ⟨call, rfl, hdead, hst⟩
  · rw [hst, h.stmt_eq m hs]
    exact t.recounted_stmt m i site st
  · rw [hst]
    show Simulates Recounted (if call.isStatic then _ else if call.receiver.isNone then _ else _) (pure ()) s
    by_cases hk : call.isStatic = true
    · rw [if_pos hk]
      exact h.staticCall hdead hr hs hk
    · rw [if_neg hk]
      by_cases hn : call.receiver.isNone = true
      · rw [if_pos hn]
        exact recounted_drop
      · rw [if_neg hn]
        exact .of_blind (blind_pure ())

theorem enter {m : CSMethodId} {f : Frame} (hm : s.entities.frameOf? m = some f)
    (hr : t.Derives (.reaches f)) : Simulates Recounted (t.enter m) (t'.enter m) s := by
  obtain ⟨i, hrecord, _⟩ := Entities.frameOf?_eq_some.mp hm
  refine .peek (g := fun s => s.entities.method? m) (fun _ _ _ => rfl) fun record hm => ?_
  cases Option.some.inj (hrecord.symm.trans hm)
  rw [h.method, known_map_bind, h.program, Program.body_blank]
  refine .seq (blind_known _) fun _ s₁ _ _ => ?_
  rw [List.forM_eq_forM, List.forM_map]
  refine .forM _ fun x hx s₂ _ => ?_
  obtain ⟨site, st⟩ := x
  obtain ⟨hsite, hs⟩ := Program.mem_body.mp hx
  have hf : f = ⟨f.context, site.method⟩ := by rw [hsite]
  exact h.stmt (hf ▸ hr) hs

theorem learn {v : VarId} {j : CSObjId} {o : Instance} (hj : s.entities.objectOf? j = some o)
    (hp : t.Derives (.points (.var c v) o)) : Simulates Recounted (t.learn i v j) (t'.learn i v j) s := by
  rw [Task.learn_eq, Task.learn_eq, AccessIndex.accessesOf_blank dead h.index h.index']
  refine .seq (blind_accesses i (t.index.accessesOf v) j) fun _ s₁ _ hkeep => ?_
  refine .forM_filter _ fun site hsite s₂ hkeep' => ?_
  cases hdead : dead site with
  | false =>
    rw [Bool.not_false, if_pos rfl, h.instanceCall_eq hdead]
    exact t.recounted_instanceCall i j site
  | true => exact h.instanceCall hdead ((hkeep.trans hkeep').object hj) hp hsite

theorem couples : t.Couples Recounted t' where
  limit := Nat.le_of_eq h.limit.symm
  enter := h.enter
  learn := fun _ => h.learn
  launched := by
    rintro s _ ⟨n, hn, rfl⟩
    refine ⟨n, hn, ?_⟩
    unfold State.launched
    rw [h.selector, h.entry]
    rfl

end Task.Blanks

/-! ## The states of a run -/

def Task.stateAfter (t : Task) (order : Order) : Nat → State
  | 0 => (t.launch.apply (.initial order)).2
  | k + 1 => (t.step.apply (t.stateAfter order k)).2

section
variable {t : Task} {order : Order} {s : State} (hs : t.solve order = .ok s)
include hs

theorem Task.launch_of_solve : ∃ s₁, t.launch.apply (.initial order) = (.ok (), s₁) ∧
    Stops t.step s₁ (.ok false) s := by
  unfold Task.solve Task.run at hs
  rw [apply_bind] at hs
  rcases hl : t.launch.apply (.initial order) with ⟨_ | _, s₁⟩
  · rw [hl] at hs; cases hs
  · rw [hl] at hs
    refine ⟨s₁, rfl, ?_⟩
    dsimp only at hs
    rcases hr : (t.toEnd t.step).apply s₁ with ⟨_ | _, s'⟩
    · rw [hr] at hs; cases hs
    · rw [hr] at hs
      cases hs
      exact (ends_toEnd t s₁).of_ok hr

variable (ht : t.Valid)
include ht

/-- From each of the states a successful run comes to its end. -/
theorem Task.stops_stateAfter : ∀ k, (t.stateAfter order k).Invariant t ∧
    Stops t.step (t.stateAfter order k) (.ok false) s
  | 0 => by
    obtain ⟨s₁, hl, hstops⟩ := Task.launch_of_solve hs
    have hlaunches : Launches t (.initial order) s₁ := (ends_launch ht (State.invariant_initial t order)).of_ok hl
    unfold stateAfter
    rw [hl]
    exact ⟨hlaunches.invariant (State.invariant_initial t order), hstops⟩
  | k + 1 => by
    obtain ⟨hinv, n, s₂, hturns, hlast⟩ := stops_stateAfter k
    unfold stateAfter
    cases hturns with
    | none =>
      have hends : StepEnds t _ false s := (ends_step ht hinv).of_ok hlast
      rw [hlast]
      exact ⟨hends.invariant hinv, 0, s, .none, apply_step_of_false ht hinv hlast⟩
    | more hone hrest =>
      have hends : StepEnds t _ true _ := (ends_step ht hinv).of_ok hone
      rw [hone]
      exact ⟨hends.invariant hinv, _, s₂, hrest, hlast⟩

theorem Task.step_stateAfter (k : Nat) :
    ∃ more, t.step.apply (t.stateAfter order k) = (.ok more, t.stateAfter order (k + 1)) := by
  obtain ⟨_, n, s₂, hturns, hlast⟩ := Task.stops_stateAfter hs ht k
  have hnext : ∀ {more s₁}, t.step.apply (t.stateAfter order k) = (.ok more, s₁) →
      t.stateAfter order (k + 1) = s₁ := fun hstep => congrArg Prod.snd hstep
  cases hturns with
  | none => exact ⟨false, by rw [hnext hlast, hlast]⟩
  | more hone hrest => exact ⟨true, by rw [hnext hone, hone]⟩

end

namespace Task.Couples
variable {R : State → State → Prop} [Loyal R] {t t' : Task} (h : t.Couples R t') (ht : t.Valid) {order : Order}
  {s : State} (hinitial : R (.initial order) (.initial order)) (hs : t.solve order = .ok s)
include h ht hinitial hs

/-- The states of a successful run go together with those of the other one, one by one. -/
theorem stateAfter : ∀ k, R (t.stateAfter order k) (t'.stateAfter order k)
  | 0 => by
    obtain ⟨s₁, hl, _⟩ := Task.launch_of_solve hs
    obtain ⟨_, hlaunch⟩ := h.launch ht (State.invariant_initial t order) _ s₁ hl
    obtain ⟨s₁', hR, hl'⟩ := hlaunch _ hinitial
    unfold Task.stateAfter
    rw [hl, hl']
    exact hR
  | k + 1 => by
    obtain ⟨more, hstep⟩ := Task.step_stateAfter hs ht k
    obtain ⟨_, hfollow⟩ := h.step ht (Task.stops_stateAfter hs ht k).1 _ _ hstep
    obtain ⟨s₁', hR, hstep'⟩ := hfollow _ (stateAfter k)
    have hnext : t'.stateAfter order (k + 1) = s₁' := congrArg Prod.snd hstep'
    rw [hnext]
    exact hR

theorem step_stateAfter (k : Nat) : (t'.step.apply (t'.stateAfter order k)).1 =
    (t.step.apply (t.stateAfter order k)).1 := by
  obtain ⟨more, hstep⟩ := Task.step_stateAfter hs ht k
  obtain ⟨_, hfollow⟩ := h.step ht (Task.stops_stateAfter hs ht k).1 _ _ hstep
  obtain ⟨_, _, hstep'⟩ := hfollow _ (h.stateAfter ht hinitial hs k)
  rw [hstep, hstep']

end Task.Couples

theorem Task.blanks_of_solve {dead : StmtId → Bool} {p : Program} {w : World} {sel : Selector} {limit : Nat}
    {t : Task} {order : Order} {s : State} (hw : World.ofProgram p = .ok w) (ht : Task.new w sel limit = .ok t)
    (hs : t.solve order = .ok s)
    (hdead : ∀ x, (Outcome.ofState sel.name s).callGraph.hasEdge x = true → dead x.site = false) :
    ∃ w' t', World.ofProgram (p.blank dead) = .ok w' ∧ Task.new w' sel limit = .ok t' ∧ t.Blanks dead t' := by
  have hw' := World.ofProgram_blank dead hw
  have hvalid := Task.valid_of_new ht (World.valid_of_withHeap hw)
  have hfinal := Task.final_of_solve hvalid hs
  obtain ⟨hworld, hsel, hlimit, _⟩ := Task.new_eq ht
  have hprogram : t.world.program = p := by rw [hworld]; exact World.program_of_ofProgram hw
  have hindex : AccessIndex.ofHierarchy (.ofProgram p) = .ok t.index := by
    rw [← hprogram, ← hvalid.world.hierarchy]
    exact hvalid.index
  obtain ⟨index', hindex'⟩ := AccessIndex.ofHierarchy_blank dead hindex
  refine ⟨_, _, hw', except_bind_ok.mpr ⟨index', hindex', rfl⟩, ?_⟩
  exact {
    valid := hvalid
    valid' := ⟨World.valid_of_withHeap hw', hindex'⟩
    program := by rw [hprogram]; rfl
    heap := by rw [hworld]
    entry := by rw [hworld]
    selector := hsel.symm
    limit := hlimit.symm
    idle := fun {e} hd => hdead _ ((hfinal.hasEdge_callGraph hvalid sel.name _).mpr ⟨e, hd, rfl⟩)
    no_fault := hfinal.no_fault hvalid }

/-- **Calls that lead nowhere do no work.** With `nop` in the place of calls that have no edge in the call
graph, whatever the selector and the order, a successful run starts and steps through the same states: all
but the number of unresolved calls is the same in each of them. -/
theorem unresolved_calls_idle {p : Program} {w : World} {sel : Selector} {limit : Nat} {t : Task}
    {order : Order} {s : State} {dead : StmtId → Bool} (hw : World.ofProgram p = .ok w)
    (ht : Task.new w sel limit = .ok t) (hs : t.solve order = .ok s)
    (hdead : ∀ x, (Outcome.ofState sel.name s).callGraph.hasEdge x = true → dead x.site = false) :
    ∃ w' t', World.ofProgram (p.blank dead) = .ok w' ∧ Task.new w' sel limit = .ok t' ∧
      (∀ k, Task.limitFor w' k = Task.limitFor w k) ∧
      (∀ k, ∃ n ≤ (t.stateAfter order k).unresolved,
        t'.stateAfter order k = { t.stateAfter order k with unresolved := n } ∧
        (t'.step.apply (t'.stateAfter order k)).1 = (t.step.apply (t.stateAfter order k)).1) ∧
      ∃ n ≤ s.unresolved, t'.solve order = .ok { s with unresolved := n } := by
  obtain ⟨w', t', hw', ht', hblanks⟩ := Task.blanks_of_solve hw ht hs hdead
  have hvalid := hblanks.valid
  have hinitial : Recounted (.initial order) (.initial order) := ⟨_, Nat.le_refl _, rfl⟩
  refine ⟨w', t', hw', ht', fun k => ?_, fun k => ?_, ?_⟩
  · rw [World.limitFor_eq, World.limitFor_eq, World.size_blank dead hw hw']
  · obtain ⟨n, hn, heq⟩ := hblanks.couples.stateAfter hvalid hinitial hs k
    exact ⟨n, hn, heq, hblanks.couples.step_stateAfter hvalid hinitial hs k⟩
  · obtain ⟨_, ⟨n, hn, rfl⟩, hs'⟩ := hblanks.couples.solve hvalid hinitial hs
    exact ⟨n, hn, hs'⟩

/-! ## A program that calls for what is not there -/

namespace Stranded

/-- The object `x` runs. After that a method that is nowhere is called on `x`, as a static method and
without a receiver. -/
def program : Program where
  classes := #[⟨"Main", none, [], false, false, [⟨0⟩, ⟨1⟩], []⟩]
  methods := #[
    ⟨"main", ⟨0⟩, "main()", true, false, none, [], #[
      .alloc ⟨0⟩ ⟨0⟩,
      .invoke ⟨.virtual, ⟨⟨0⟩, "run()"⟩, some ⟨0⟩, [], none⟩,
      .invoke ⟨.virtual, ⟨⟨0⟩, "gone()"⟩, some ⟨0⟩, [], none⟩,
      .invoke ⟨.static, ⟨⟨0⟩, "gone()"⟩, none, [], none⟩,
      .invoke ⟨.dynamic, ⟨⟨0⟩, "gone()"⟩, none, [], none⟩]⟩,
    ⟨"run", ⟨0⟩, "run()", false, false, some ⟨1⟩, [], #[]⟩]
  fields := #[]
  vars := #[⟨"x", ⟨0⟩⟩, ⟨"this", ⟨1⟩⟩]
  entry := some ⟨0⟩

def world : World := ⟨.ofProgram program, .perSite program, ⟨0⟩⟩

def dead (site : StmtId) : Bool := 2 ≤ site.index

theorem world_eq : World.ofProgram program = .ok world := World.withHeap_of_check rfl _

theorem callee?_ne {site : StmtId} {call : Call} {type : Option ClassId} {m : MethodId}
    (hs : world.program.stmt? site = some (.invoke call)) (hdead : dead site = true) :
    world.hierarchy.callee? type call ≠ .ok (some m) := by
  have hgone : ∀ x ∈ program.stmts, ∀ call ∈ x.2.call?, dead x.1 = true →
      call.target.subsignature = "gone()" := by decide
  have hnone : ∀ method ∈ program.methods, method.subsignature ≠ "gone()" := by decide
  intro hc
  obtain ⟨method, hm, hsig⟩ := Hierarchy.callee?_spec hc
  rw [hgone _ (Program.mem_stmts.mpr hs) call rfl hdead] at hsig
  exact hnone method (Array.mem_of_getElem? hm) hsig

theorem live_of_calls {sel : Selector} {e : Link} (hd : Derives world sel (.calls e)) :
    dead e.site.stmt = false := by
  rw [← Bool.not_eq_true]
  intro hdead
  cases hd.cases with
  | staticCall _ hs _ hc => exact callee?_ne hs hdead hc
  | instanceCall d _ _ => exact callee?_ne d.stmt hdead d.callee

end Stranded

/-- All three calls can go. -/
theorem unresolved_calls_idle_stranded : ∃ t s, Task.ofSensitivity Stranded.world ⟨.object, 1⟩ = .ok t ∧
    t.solve .fifo = .ok s ∧
    (Stranded.program.blank Stranded.dead).stmts.map (·.2.call?.isSome) = [false, true, false, false, false] ∧
    ∃ w' t', World.ofProgram (Stranded.program.blank Stranded.dead) = .ok w' ∧
      Task.ofSensitivity w' ⟨.object, 1⟩ = .ok t' ∧
      ∃ n ≤ s.unresolved, t'.solve .fifo = .ok { s with unresolved := n } := by
  have hno : ∀ x ∈ Stranded.program.stmts, AccessIndex.access? x.2 = none := by decide
  have hfit : Stranded.program.CallsFit := by decide
  obtain ⟨r, hr⟩ := exists_outcome_of_callsFit Stranded.world_eq hno hfit .standard ⟨.object, 1⟩
  obtain ⟨t, s, ht, hs, _⟩ := analyzeWith_ok hr
  have hvalid := Task.valid_of_new ht (World.valid_of_withHeap Stranded.world_eq)
  have hfinal := Task.final_of_solve hvalid hs
  have hdead : ∀ x, (Outcome.ofState (Selector.ofSensitivity ⟨.object, 1⟩).name s).callGraph.hasEdge x = true →
      Stranded.dead x.site = false := by
    intro x hx
    obtain ⟨e, hd, rfl⟩ := (hfinal.hasEdge_callGraph hvalid _ x).mp hx
    unfold Task.Derives at hd
    rw [(Task.new_eq ht).1] at hd
    exact Stranded.live_of_calls hd
  obtain ⟨w', t', hw', ht', hlimit, _, n, hn, hs'⟩ := unresolved_calls_idle Stranded.world_eq ht hs hdead
  refine ⟨t, s, ht, hs, by decide, w', t', hw', ?_, n, hn, hs'⟩
  unfold Task.ofSensitivity
  rw [hlimit]
  exact ht'

end PointsTo
