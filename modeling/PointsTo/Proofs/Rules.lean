import Mathlib.Algebra.Order.BigOperators.Group.List
import PointsTo.Proofs.Accesses
import PointsTo.Proofs.Moves

/-!
# What the rules do

One statement for each action of the rules: which facts it leaves behind when
it comes to its end, how much work it adds, and that it fails only because of a
fault. An action that fails has made moves as well.
-/

namespace PointsTo
open Solve

/-! ## Obligations

What the facts `X` owe to a call edge, to a statement of a reached method and to an object that a
variable points to. -/

section
variable (t : Task) (X : Fact → Prop)

/-- The arguments and the result of the call behind `e` are connected; `K` are the known cells. -/
def Bound (K : Cell → Prop) (e : Link) : Prop :=
  ∃ call method, Joins t.world e call method ∧ call.args.length = method.params.length ∧
    (∀ x ∈ call.args.zip method.params,
      X (.flows (.var e.caller.context x.1) (.var e.callee.context x.2))) ∧
    ∀ r, call.result = some r → K (.var e.caller.context r) ∧ ∀ v ∈ method.returnVars,
      X (.flows (.var e.callee.context v) (.var e.caller.context r))

def StmtDone (c : Context) (site : StmtId) : Stmt → Prop
  | .alloc lhs _ => ∃ o obj, t.world.heap.objAt? site = some o ∧ t.world.heap.obj? o = some obj ∧
      X (.points (.var c lhs) ⟨t.selector.heap c site.method obj, o⟩)
  | .copy lhs rhs => X (.flows (.var c rhs) (.var c lhs))
  | .loadField lhs none ref => ∃ f, t.world.hierarchy.resolveField ref = .ok f ∧
      X (.flows (.staticField f) (.var c lhs))
  | .storeField none ref rhs => ∃ f, t.world.hierarchy.resolveField ref = .ok f ∧
      X (.flows (.var c rhs) (.staticField f))
  | .invoke call => call.isStatic = true → ∀ m, t.world.hierarchy.callee? none call = .ok (some m) →
      X (.calls ⟨.static, ⟨c, site.method⟩, ⟨c, site⟩, ⟨t.selector.static c site m, m⟩⟩)
  | _ => True

def CallDone (c : Context) (o : Instance) (site : StmtId) : Prop :=
  ∀ call obj m, t.world.program.stmt? site = some (.invoke call) → t.world.heap.obj? o.obj = some obj →
    t.world.hierarchy.callee? (some obj.cls) call = .ok (some m) →
    ∃ method this, t.world.program.method? m = some method ∧ method.thisVar = some this ∧
      X (.points (.var (t.selector.onObject c site o.heap o.obj obj m) this) o) ∧
      X (.calls ⟨.ofCall call.kind, ⟨c, site.method⟩, ⟨c, site⟩,
        ⟨t.selector.onObject c site o.heap o.obj obj m, m⟩⟩)

structure LearnDone (c : Context) (v : VarId) (o : Instance) : Prop where
  fieldStores : ∀ x ∈ (t.index.accessesOf v).fieldStores,
    X (.flows (.var c x.2) (.instanceField o x.1))
  fieldLoads : ∀ x ∈ (t.index.accessesOf v).fieldLoads,
    X (.flows (.instanceField o x.2) (.var c x.1))
  arrayStores : ∀ rhs ∈ (t.index.accessesOf v).arrayStores, X (.flows (.var c rhs) (.arrayIndex o))
  arrayLoads : ∀ lhs ∈ (t.index.accessesOf v).arrayLoads, X (.flows (.arrayIndex o) (.var c lhs))
  calls : ∀ site ∈ (t.index.accessesOf v).calls, CallDone t X c o site

end

section
variable {t : Task} {X Y : Fact → Prop} (hXY : ∀ f, X f → Y f)
include hXY

theorem Bound.mono {K L : Cell → Prop} (hKL : ∀ p, K p → L p) {e : Link} (h : Bound t X K e) :
    Bound t Y L e := by
  obtain ⟨call, method, hj, hn, ha, hr⟩ := h
  exact ⟨call, method, hj, hn, fun x hx => hXY _ (ha x hx),
    fun r h => ⟨hKL _ (hr r h).1, fun v hv => hXY _ ((hr r h).2 v hv)⟩⟩

theorem StmtDone.mono {c : Context} {site : StmtId} {st : Stmt} (h : StmtDone t X c site st) :
    StmtDone t Y c site st := by
  unfold StmtDone at h ⊢
  split
  · obtain ⟨o, obj, ho, hobj, hx⟩ := h
    exact ⟨o, obj, ho, hobj, hXY _ hx⟩
  · exact hXY _ h
  · exact h.imp fun _ hf => ⟨hf.1, hXY _ hf.2⟩
  · exact h.imp fun _ hf => ⟨hf.1, hXY _ hf.2⟩
  · exact fun hk m hm => hXY _ (h hk m hm)
  · trivial

theorem CallDone.mono {c : Context} {o : Instance} {site : StmtId} (h : CallDone t X c o site) :
    CallDone t Y c o site := by
  intro call obj m hs ho hm
  obtain ⟨method, this, hmethod, hthis, hp, hc⟩ := h call obj m hs ho hm
  exact ⟨method, this, hmethod, hthis, hXY _ hp, hXY _ hc⟩

theorem LearnDone.mono {c : Context} {v : VarId} {o : Instance} (h : LearnDone t X c v o) :
    LearnDone t Y c v o where
  fieldStores x hx := hXY _ (h.fieldStores x hx)
  fieldLoads x hx := hXY _ (h.fieldLoads x hx)
  arrayStores x hx := hXY _ (h.arrayStores x hx)
  arrayLoads x hx := hXY _ (h.arrayLoads x hx)
  calls x hx := (h.calls x hx).mono hXY

end

/-! ## Calls without a target -/

def missed : Except Error (Option MethodId) → Nat
  | .ok none => 1
  | _ => 0

namespace Task
variable (t : Task)

def stmtMisses : Stmt → Nat
  | .invoke call =>
    if call.isStatic then missed (t.world.hierarchy.callee? none call)
    else if call.receiver.isNone then 1 else 0
  | _ => 0

def frameMisses (m : MethodId) : Nat := ((t.world.program.body m).map fun x => t.stmtMisses x.2).sum

def callMisses (o : Instance) (site : StmtId) : Nat :=
  match (t.world.program.stmt? site).bind Stmt.call?, t.world.heap.obj? o.obj with
  | some call, some obj => missed (t.world.hierarchy.callee? (some obj.cls) call)
  | _, _ => 0

def learnMisses (v : VarId) (o : Instance) : Nat :=
  ((t.index.accessesOf v).calls.map (t.callMisses o)).sum

end Task

/-! ## Specifications of actions -/

/-- What an action that comes to its end has done: `n` bounds the entries it adds to the worklist
beyond one for each new edge, `k` counts the calls without a target. -/
structure Progress (t : Task) (n k : Nat) (s s' : State) : Prop where
  path : Path t s s'
  bound : ∀ i ∈ s'.calls.edges.toList, i ∈ s.calls.edges.toList ∨
    ∃ e, s'.entities.linkOf? i = some e ∧ Bound t s'.Holds s'.Knows e
  cost : s'.work.toList.length + s.flow.edgeCount ≤ s.work.toList.length + s'.flow.edgeCount + n
  missed : s'.unresolved = s.unresolved + k

namespace Progress
variable {t : Task} {n k n' k' : Nat} {s s₁ s' : State}

theorem refl (t : Task) (s : State) : Progress t 0 0 s s :=
  ⟨.refl, fun _ => Or.inl, Nat.le_refl _, rfl⟩

theorem trans (h : Progress t n k s s₁) (h' : Progress t n' k' s₁ s') :
    Progress t (n + n') (k + k') s s' where
  path := h.path.trans h'.path
  bound i hi := by
    rcases h'.bound i hi with hi | hi
    · rcases h.bound i hi with hi | ⟨e, he, hb⟩
      · exact Or.inl hi
      · have hg := h'.path.grows
        exact Or.inr ⟨e, hg.entities.link he, hb.mono (fun _ => hg.holds) fun _ => hg.knows⟩
    · exact Or.inr hi
  cost := by have := h.cost; have := h'.cost; omega
  missed := by have := h.missed; have := h'.missed; omega

/-- Moves that add no call edge. -/
theorem of_move (m : Move t s s') (hc : s'.calls = s.calls)
    (hw : s'.work.toList.length + s.flow.edgeCount ≤ s.work.toList.length + s'.flow.edgeCount + n)
    (hu : s'.unresolved = s.unresolved + k) : Progress t n k s s' :=
  ⟨.tail .refl m, fun _ hi => Or.inl (hc ▸ hi), hw, hu⟩

end Progress

section
variable {α β : Type}

def Spec (t : Task) (n k : Nat) (a : Solve α) (s : State) (Q : α → State → Prop) : Prop :=
  s.Justified t → Ends a s (fun r s' => Progress t n k s s' ∧ Q r s')
    fun e s' => Path t s s' ∧ Fault t.world t.Derives e

variable {t : Task} {n k n' : Nat} {s : State} {a : Solve β} {f : β → Solve α}
variable {Q : α → State → Prop}

theorem Spec.of_apply {a : Solve α} {r : α} {s' : State} (h : a.apply s = (.ok r, s'))
    (hp : Progress t n k s s') (hq : Q r s') : Spec t n k a s Q := by
  intro _
  unfold Ends
  rw [h]; exact ⟨hp, hq⟩

theorem Spec.pure {r : α} (hq : Q r s) : Spec t 0 0 (pure r) s Q := .of_apply rfl (.refl t s) hq

theorem Spec.throw {e : Error} (he : Fault t.world t.Derives e) : Spec t n k (throw e) s Q :=
  fun _ => ⟨.refl, he⟩

theorem Spec.throw_bind {e : Error} (he : Fault t.world t.Derives e) :
    Spec t n k (MonadExcept.throw e >>= f) s Q := fun _ => ⟨.refl, he⟩

theorem Spec.mono {Q' : α → State → Prop} {a : Solve α} (h : Spec t n k a s Q)
    (hq : ∀ r s', Grows s s' → Q r s' → Q' r s') : Spec t n k a s Q' :=
  fun hs => (h hs).mono (fun r s' h => ⟨h.1, hq r s' h.1.path.grows h.2⟩) fun _ _ h => h

theorem Spec.weaken {a : Solve α} (h : Spec t n k a s Q) (hn : n ≤ n') : Spec t n' k a s Q :=
  fun hs => (h hs).mono (fun _ _ hr => ⟨{ hr.1 with cost := by have := hr.1.cost; omega }, hr.2⟩)
    fun _ _ h => h

theorem Spec.bind {m l : Nat} {R : β → State → Prop} (h : Spec t n k a s R)
    (hf : ∀ r s₁, Grows s s₁ → R r s₁ → Spec t m l (f r) s₁ Q) :
    Spec t (n + m) (k + l) (a >>= f) s Q := by
  intro hs
  rw [ends_bind]
  refine (h hs).mono (fun r s₁ hr => ?_) fun _ _ he => he
  obtain ⟨hp, hr⟩ := hr
  refine (hf r s₁ hp.path.grows hr (hp.path.justified hs)).mono (fun _ _ hq => ?_) fun _ _ he => ?_
  · exact ⟨hp.trans hq.1, hq.2⟩
  · exact ⟨hp.path.trans he.1, he.2⟩

/-- An action that adds no work comes first. -/
theorem Spec.seq {R : β → State → Prop} (h : Spec t 0 0 a s R)
    (hf : ∀ r s₁, Grows s s₁ → R r s₁ → Spec t n k (f r) s₁ Q) : Spec t n k (a >>= f) s Q := by
  have := h.bind hf
  rwa [Nat.zero_add, Nat.zero_add] at this

theorem Spec.get {f : State → Solve α} (h : Spec t n k (f s) s Q) : Spec t n k (get >>= f) s Q := h

theorem Spec.known {x : Option β} {b : β} (hx : x = some b) (h : Spec t n k (f b) s Q) :
    Spec t n k (known x >>= f) s Q := by
  subst hx; exact h

theorem Spec.contextOf {i : ContextId} {c : Context} {f : Context → Solve α}
    (hc : s.entities.context? i = some c) (h : Spec t n k (f c) s Q) :
    Spec t n k (contextOf i >>= f) s Q := by
  intro hs
  have := h hs
  rw [ends_bind]
  unfold Solve.contextOf
  rw [ends_bind, ends_get, hc]
  exact this

theorem Spec.ofExcept {x : Except Error β} {b : β} (hx : x = .ok b) (h : Spec t n k (f b) s Q) :
    Spec t n k (ofExcept x >>= f) s Q := by
  subst hx; exact h

/-- An action for each item of a list. -/
theorem Spec.forM {f : β → Solve Unit} {n k : β → Nat} {R : β → State → Prop}
    (hR : ∀ x s₁ s₂, Grows s₁ s₂ → R x s₁ → R x s₂) : ∀ (l : List β) {s : State},
    (∀ x ∈ l, ∀ s₁, Grows s s₁ → Spec t (n x) (k x) (f x) s₁ fun _ => R x) →
    Spec t (l.map n).sum (l.map k).sum (l.forM f) s fun _ s' => ∀ x ∈ l, R x s'
  | [], s, _ => .pure fun x hx => (by cases hx)
  | x :: l, s, h => by
    rw [List.map_cons, List.map_cons, List.sum_cons, List.sum_cons]
    refine Spec.bind (h x (by simp) s (.refl s)) fun _ s₁ hg hx => ?_
    intro hs₁
    have hl := Spec.forM hR l (s := s₁) fun y hy s₂ hg₂ => h y (by simp [hy]) s₂ (hg.trans hg₂)
    refine (hl hs₁).mono (fun _ s₂ hq => ⟨hq.1, fun y hy => ?_⟩) fun _ _ he => he
    rcases List.mem_cons.mp hy with rfl | hy
    · exact hR _ _ _ hq.1.path.grows hx
    · exact hq.2 y hy

theorem Spec.each {f : β → Solve Unit} {R : β → State → Prop}
    (hR : ∀ x s₁ s₂, Grows s₁ s₂ → R x s₁ → R x s₂) (l : List β)
    (h : ∀ x ∈ l, ∀ s₁, Grows s s₁ → Spec t 0 0 (f x) s₁ fun _ => R x) :
    Spec t 0 0 (l.forM f) s fun _ s' => ∀ x ∈ l, R x s' := by
  have := Spec.forM (n := fun _ => 0) (k := fun _ => 0) hR l h
  simpa using this

end

/-! ## Handles -/

section
variable {t : Task} {s : State}

theorem spec_internContext {c : Context} (hc : ContextOccurs t c) :
    Spec t 0 0 (internContext c) s fun i s' => s'.entities.context? i = some c :=
  .of_apply rfl (.of_move (.context hc) rfl (Nat.le_refl _) rfl) (Entities.context?_intern c)

theorem spec_internObj {i : ContextId} {x : Instance} {p : Cell}
    (hi : s.entities.context? i = some x.heap) (hd : t.Derives (.points p x)) (hmade : s.Makes t x) :
    Spec t 0 0 (internObj i x.obj) s fun j s' => s'.entities.objectOf? j = some x :=
  .of_apply rfl (.of_move (.object hi hd hmade) rfl (Nat.le_refl _) rfl) (Entities.objectOf?_intern hi)

theorem spec_internSite {i : ContextId} {e : Link} (hi : s.entities.context? i = some e.site.context)
    (hd : t.Derives (.calls e)) :
    Spec t 0 0 (internSite i e.site.stmt) s fun j s' => s'.entities.siteOf? j = some e.site :=
  .of_apply rfl (.of_move (.site hi hd) rfl (Nat.le_refl _) rfl) (Entities.siteOf?_intern hi)

theorem spec_internMethod {i : ContextId} {m : Frame} (hi : s.entities.context? i = some m.context)
    (hd : FrameOccurs t m) :
    Spec t 0 0 (internMethod i m.method) s fun j s' => s'.entities.frameOf? j = some m :=
  .of_apply rfl (.of_move (.method hi hd) rfl (Nat.le_refl _) rfl) (Entities.frameOf?_intern hi)

theorem spec_pointer {x : Pointer} {p : Cell} (hx : s.entities.cell? x = some p)
    (hp : CellOccurs t p) :
    Spec t 0 0 (onEntities (·.internPointer x)) s fun i s' => s'.entities.cellOf? i = some p :=
  .of_apply rfl (.of_move (.pointer hx hp) rfl (Nat.le_refl _) rfl) (Entities.cellOf?_intern hx)

theorem spec_varPointer {i : ContextId} {c : Context} {v : VarId} (hi : s.entities.context? i = some c)
    (hp : CellOccurs t (.var c v)) :
    Spec t 0 0 (varPointer i v) s fun j s' => s'.entities.cellOf? j = some (.var c v) :=
  spec_pointer (Entities.cell?_eq_var.mpr ⟨i, rfl, hi⟩) hp

theorem spec_staticPointer {f : FieldId} (hp : CellOccurs t (.staticField f)) :
    Spec t 0 0 (staticPointer f) s fun j s' => s'.entities.cellOf? j = some (.staticField f) :=
  spec_pointer (Entities.cell?_eq_staticField.mpr rfl) hp

theorem spec_fieldPointer {i : CSObjId} {o : Instance} {f : FieldId}
    (hi : s.entities.objectOf? i = some o) (hp : CellOccurs t (.instanceField o f)) :
    Spec t 0 0 (fieldPointer i f) s fun j s' => s'.entities.cellOf? j = some (.instanceField o f) :=
  spec_pointer (Entities.cell?_eq_instanceField.mpr ⟨i, rfl, hi⟩) hp

theorem spec_arrayPointer {i : CSObjId} {o : Instance} (hi : s.entities.objectOf? i = some o)
    (hp : CellOccurs t (.arrayIndex o)) :
    Spec t 0 0 (arrayPointer i) s fun j s' => s'.entities.cellOf? j = some (.arrayIndex o) :=
  spec_pointer (Entities.cell?_eq_arrayIndex.mpr ⟨i, rfl, hi⟩) hp

/-! ## Flow -/

theorem spec_seed {i : PointerId} {j : CSObjId} {p : Cell} {o : Instance}
    (hi : s.entities.cellOf? i = some p) (hj : s.entities.objectOf? j = some o)
    (hd : t.Derives (.points p o)) :
    Spec t 1 0 (push i (.singleton j)) s fun _ s' => s'.Holds (.points p o) := by
  refine .of_apply rfl (.of_move (.seed hi hj hd) rfl ?_ rfl) ?_
  · simp; omega
  · refine Or.inr ⟨i, j, .singleton j, hi, hj, ?_, List.mem_singleton.mpr rfl⟩
    simp

theorem apply_connect {p : PointerId} (hp : p.idx < s.entities.sets.size) (q : PointerId) :
    (Task.connect p q).apply s = (.ok (), s.connected p q) := by
  unfold Task.connect State.connected
  rw [apply_bind, apply_onFlow]
  dsimp only
  cases hn : (s.flow.addEdge p q).1 with
  | false => rfl
  | true =>
    rw [if_pos rfl, apply_bind]
    show (known (s.entities.pointsTo? p) >>= fun set =>
      if (!set.isEmpty) = true then push q set else Pure.pure ()).apply _ = _
    rw [Entities.pointsTo?_of_lt hp]
    show (if (!(s.entities.pointsTo p).isEmpty) = true then push q _ else Pure.pure ()).apply _ = _
    cases (s.entities.pointsTo p).isEmpty <;> rfl

theorem spec_connect {i j : PointerId} {p q : Cell} (hi : s.entities.cellOf? i = some p)
    (hj : s.entities.cellOf? j = some q) (hd : t.Derives (.flows p q)) :
    Spec t 0 0 (Task.connect i j) s fun _ s' => s'.Holds (.flows p q) := by
  intro hs
  refine Spec.of_apply (apply_connect (hs.entities.set_lt hi) j)
    (.of_move (.connect hi hj hd) rfl ?_ rfl) ?_ hs
  · unfold State.connected
    dsimp only
    rw [FlowGraph.addEdge_fst, FlowGraph.edgeCount_addEdge]
    by_cases hn : j ∈ s.flow.successors i
    · simp [hn]
    · simp only [hn, not_false_eq_true, decide_true, Bool.true_and, if_false]
      split
      · rw [Worklist.toList_push, List.length_append]; simp; omega
      · omega
  · exact ⟨i, j, hi, hj, FlowGraph.mem_successors_addEdge.mpr (Or.inr ⟨rfl, rfl⟩)⟩

/-- Two pointers are asked for and connected. -/
theorem spec_flow {a b : Solve PointerId} {p q : Cell}
    (ha : ∀ s₁, Grows s s₁ → Spec t 0 0 a s₁ fun i s' => s'.entities.cellOf? i = some p)
    (hb : ∀ s₁, Grows s s₁ → Spec t 0 0 b s₁ fun i s' => s'.entities.cellOf? i = some q)
    (hd : t.Derives (.flows p q)) :
    Spec t 0 0 (do let source ← a; let target ← b; Task.connect source target) s
      fun _ s' => s'.Holds (.flows p q) := by
  refine .seq (ha s (.refl s)) fun i s₁ hg₁ hi => ?_
  refine .seq (hb s₁ hg₁) fun j s₂ hg₂ hj => ?_
  exact spec_connect (hg₂.entities.cellOf hi) hj hd

theorem spec_miss : Spec t 0 1 countUnresolved s fun _ _ => True :=
  .of_apply rfl (.of_move .miss rfl (Nat.le_refl _) rfl) trivial

/-! ## Calls -/

theorem spec_bindCall (ht : t.Valid) {i j : ContextId} {e : Link} {call : Call}
    (hi : s.entities.context? i = some e.caller.context)
    (hj : s.entities.context? j = some e.callee.context) (hd : t.Derives (.calls e))
    (hs : t.world.program.stmt? e.site.stmt = some (.invoke call)) :
    Spec t 0 0 (t.bindCall i call j e.callee.method) s fun _ s' => Bound t s'.Holds s'.Knows e := by
  obtain ⟨call', method, hjoin⟩ := (hd.grounded ht.world).joins
  cases Option.some.inj (hs.symm.trans hjoin.stmt)
  unfold Task.bindCall
  refine .known hjoin.callee ?_
  dsimp only
  by_cases hn : call.args.length = method.params.length
  · rw [if_neg (not_not_intro hn)]
    refine .seq (.each (R := fun x s' => s'.Holds
      (.flows (.var e.caller.context x.1) (.var e.callee.context x.2)))
      (fun _ _ _ hg => hg.holds) _ fun x hx s₁ hg => ?_) fun _ s₁ hg ha => ?_
    · have hx : t.Derives (.flows (.var e.caller.context x.1) (.var e.callee.context x.2)) :=
        .rule (.arg hd hjoin hn hx)
      exact spec_flow (fun _ h => spec_varPointer ((hg.trans h).entities.context hi) (.source hx))
        (fun _ h => spec_varPointer ((hg.trans h).entities.context hj) (.target hx)) hx
    · cases hr : call.result with
      | none =>
        exact .pure ⟨call, method, hjoin, hn, ha, fun r h => (by rw [hr] at h; cases h)⟩
      | some r =>
        refine .seq (spec_varPointer (hg.entities.context hi) (.result hd hs hr)) fun k s₂ hg₂ hk => ?_
        refine (Spec.each (R := fun v s' => s'.Holds
          (.flows (.var e.callee.context v) (.var e.caller.context r)))
          (fun _ _ _ hg => hg.holds) _ fun v hv s₃ hg₃ => ?_).mono fun _ s' hg' hq => ?_
        · have hv : t.Derives (.flows (.var e.callee.context v) (.var e.caller.context r)) :=
            .rule (.result hd hjoin hn hr hv)
          have hg' := (hg.trans hg₂).trans hg₃
          refine .seq (spec_varPointer (hg'.entities.context hj) (.source hv)) fun l s₄ hg₄ hl => ?_
          exact spec_connect hl ((hg₃.trans hg₄).entities.cellOf hk) hv
        · refine ⟨call, method, hjoin, hn, fun x hx => (hg₂.trans hg').holds (ha x hx), ?_⟩
          intro r' hr'
          cases hr.symm.trans hr'
          exact ⟨⟨k, hg'.entities.cellOf hk⟩, hq⟩
  · rw [if_pos hn]
    obtain ⟨text, hx⟩ := Program.signature?_of_method ht.world.check hjoin.callee
    exact .known hx (.throw_bind (.arity hd hjoin hn hx))

/-- An edge that is not new has its callee bound already. -/
theorem spec_link (ht : t.Valid) {l : Edge CSCallSiteId CSMethodId} {i j : ContextId} {e : Link}
    {call : Call} (hl : s.entities.linkOf? l = some e)
    (hi : s.entities.context? i = some e.caller.context)
    (hj : s.entities.context? j = some e.callee.context) (hd : t.Derives (.calls e))
    (hs : t.world.program.stmt? e.site.stmt = some (.invoke call)) :
    Spec t 0 0 (t.link l i call j e.callee.method) s fun _ s' => s'.Holds (.calls e) := by
  intro hjust
  have hmem : l ∈ (s.linked l).calls.edges.toList := State.mem_linked.mpr (Or.inr rfl)
  have hmove : Move t s (s.linked l) := .link hl hd
  unfold Task.link Ends
  rw [apply_bind, apply_onCalls]
  dsimp only
  cases hn : (s.calls.addEdge l).1 with
  | false =>
    have hsame : ({ s with calls := (s.calls.addEdge l).2 } : State) = s.linked l := by
      simp [State.linked, hn]
    rw [if_neg (by simp), apply_pure, hsame]
    have hold : l ∈ s.calls.edges.toList := by
      rw [CallGraph.addEdge_fst] at hn
      simpa using hn
    refine ⟨⟨.tail .refl hmove, fun k hk => ?_, Nat.le_refl _, rfl⟩, l, hmem, hl⟩
    exact Or.inl ((State.mem_linked.mp hk).elim id fun he => he ▸ hold)
  | true =>
    have hsame : ({ s with calls := (s.calls.addEdge l).2, pending := s.pending.push l.callee } : State) =
        s.linked l := by
      simp [State.linked, hn]
    rw [if_pos rfl, apply_bind, apply_enqueue]
    dsimp only
    rw [hsame]
    have hb := spec_bindCall ht (s := s.linked l) hi hj hd hs (hmove.justified hjust)
    refine Ends.mono hb (fun _ s' hr => ?_) fun _ s' hr => ?_
    · obtain ⟨hp, hbound⟩ := hr
      have hg := hp.path.grows
      refine ⟨⟨(Path.refl.tail hmove).trans hp.path, fun k hk => ?_, hp.cost, hp.missed⟩, ?_⟩
      · rcases hp.bound k hk with hk | hk
        · -- the one edge that binding did not see to is the new one itself
          rcases State.mem_linked.mp hk with hk | rfl
          · exact Or.inl hk
          · exact Or.inr ⟨e, hg.entities.link hl, hbound⟩
        · exact Or.inr hk
      · exact ⟨l, hg.edges.subset hmem, hg.entities.link hl⟩
    · exact ⟨(Path.refl.tail hmove).trans hr.1, hr.2⟩

theorem spec_staticCall (ht : t.Valid) {caller : CSMethodId} {i : ContextId} {c : Context}
    {site : StmtId} {call : Call} (hm : s.entities.frameOf? caller = some ⟨c, site.method⟩)
    (hi : s.entities.context? i = some c) (hr : t.Derives (.reaches ⟨c, site.method⟩))
    (hs : t.world.program.stmt? site = some (.invoke call)) (hk : call.isStatic = true) :
    Spec t 0 (missed (t.world.hierarchy.callee? none call)) (t.staticCall caller i site call) s
      fun _ s' => StmtDone t s'.Holds c site (.invoke call) := by
  obtain ⟨r, hc⟩ := t.world.hierarchy.callee?_static hk none
  unfold Task.staticCall
  rw [hc]
  refine .ofExcept rfl ?_
  cases r with
  | none =>
    refine spec_miss.mono fun _ s' _ _ => ?_
    intro _ m hm'
    rw [hc] at hm'; cases hm'
  | some m =>
    have hd : t.Derives (.calls ⟨.static, ⟨c, site.method⟩, ⟨c, site⟩, ⟨t.selector.static c site m, m⟩⟩) :=
      .rule (.staticCall hr hs hk hc)
    refine .contextOf hi ?_
    refine .seq (spec_internContext (.frame (.reached hd.callee))) fun j s₁ hg₁ hj => ?_
    refine .seq (spec_internMethod (m := ⟨_, m⟩) hj (.reached hd.callee)) fun callee s₂ hg₂ hcallee => ?_
    have hg := hg₁.trans hg₂
    have hintern := spec_internSite (hg.entities.context hi) hd
    refine .seq hintern fun csSite s₃ hg₃ hsite => ?_
    have hg := hg.trans hg₃
    refine (spec_link ht ?_ (hg.entities.context hi) ((hg₂.trans hg₃).entities.context hj) hd hs).mono
      fun _ s' _ hcalls => ?_
    · exact Entities.linkOf?_eq_some.mpr ⟨rfl, hg.entities.frame hm, hsite, hg₃.entities.frame hcallee⟩
    · intro _ m' hm'
      rw [hc] at hm'; cases hm'
      exact hcalls

theorem spec_instanceCall (ht : t.Valid) {i : ContextId} {c : Context} {v : VarId} {j : CSObjId}
    {o : Instance} {site : StmtId} (hi : s.entities.context? i = some c)
    (hj : s.entities.objectOf? j = some o) (hp : t.Derives (.points (.var c v) o))
    (hv : site ∈ (t.index.accessesOf v).calls) :
    Spec t 1 (t.callMisses o site) (t.instanceCall i j site) s
      fun _ s' => CallDone t s'.Holds c o site := by
  obtain ⟨call, hs, hrec⟩ := (AccessIndex.mem_calls ht.index).mp hv
  obtain ⟨method, hmethod, hbody⟩ := Program.method?_of_stmt? hs
  obtain ⟨_, obj, hobj⟩ := hp.grounded ht.world
  obtain ⟨r, hc⟩ := t.world.hierarchy.callee?_some obj.cls call
  have hreach : t.Derives (.reaches ⟨c, site.method⟩) :=
    hp.reaches_of_used ht.world hs (by simp [Stmt.used, hrec])
  have hmisses : t.callMisses o site = missed (.ok r) := by
    have hs' : t.world.program.stmt? site = some (.invoke call) := hs
    simp [Task.callMisses, hs', hobj, hc, Stmt.call?]
  rw [hmisses]
  unfold Task.instanceCall
  obtain ⟨heap, hrecord, hheap⟩ := Entities.objectOf?_eq_some.mp hj
  refine .known hmethod ?_
  rw [hbody]
  refine .get (.known hrecord (.known hobj ?_))
  rw [hc]
  refine .ofExcept rfl ?_
  cases r with
  | none =>
    refine (spec_miss.weaken (Nat.zero_le 1)).mono fun _ s' _ _ => ?_
    intro call' obj' m hs' hobj' hm
    cases Option.some.inj (hs.symm.trans hs')
    cases Option.some.inj (hobj.symm.trans hobj')
    rw [hc] at hm; cases hm
  | some m =>
    have hdisp : Dispatches t.world t.Derives c site call o obj m :=
      ⟨hreach, hs, ⟨v, hrec, hp⟩, hobj, hc⟩
    obtain ⟨target, htarget⟩ := callee_known ht.world hc
    refine .contextOf hi (.contextOf hheap ?_)
    cases hthis : target.thisVar with
    | none =>
      -- the callee has its handle before it turns out to take no receiver
      obtain ⟨text, hx⟩ := Program.signature?_of_method ht.world.check htarget
      have hfault := Fault.staticTarget hdisp htarget hthis hx
      refine .seq (spec_internContext (.frame (.target hdisp))) fun k s₁ hg₁ hk => ?_
      refine .seq (spec_internMethod (m := ⟨_, m⟩) hk (.target hdisp)) fun _ s₂ hg₂ _ => ?_
      refine .known htarget ?_
      rw [hthis]
      exact .known hx (.throw hfault)
    | some this =>
      have hd : t.Derives (.calls ⟨.ofCall call.kind, ⟨c, site.method⟩, ⟨c, site⟩,
          ⟨t.selector.onObject c site o.heap o.obj obj m, m⟩⟩) :=
        .rule (.instanceCall hdisp htarget hthis)
      have hpoints : t.Derives (.points (.var (t.selector.onObject c site o.heap o.obj obj m) this) o) :=
        .rule (.this hdisp htarget hthis)
      refine .seq (spec_internContext (.frame (.reached hd.callee))) fun k s₁ hg₁ hk => ?_
      refine .seq (spec_internMethod (m := ⟨_, m⟩) hk (.reached hd.callee)) fun callee s₂ hg₂ hcallee => ?_
      refine .known htarget ?_
      rw [hthis]
      refine .seq (spec_varPointer (hg₂.entities.context hk) (.holder hpoints)) fun p s₃ hg₃ hp' => ?_
      have hg := (hg₁.trans hg₂).trans hg₃
      refine .bind (m := 0) (l := 0)
        (spec_seed hp' (hg.entities.object hj) hpoints) fun _ s₄ hg₄ hthis' => ?_
      have hg := hg.trans hg₄
      refine .seq (spec_internMethod (m := ⟨c, site.method⟩) (hg.entities.context hi) (.reached hreach))
        fun caller s₅ hg₅ hcaller => ?_
      have hg := hg.trans hg₅
      have hintern := spec_internSite (hg.entities.context hi) hd
      refine .seq hintern fun csSite s₆ hg₆ hsite => ?_
      have hg := hg.trans hg₆
      have hg' := ((hg₃.trans hg₄).trans hg₅).trans hg₆
      refine (spec_link ht ?_ (hg.entities.context hi) ((hg₂.trans hg').entities.context hk) hd hs).mono
        fun _ s' hlast hcalls => ?_
      · exact Entities.linkOf?_eq_some.mpr
          ⟨rfl, hg₆.entities.frame hcaller, hsite, hg'.entities.frame hcallee⟩
      · intro call' obj' m' hs' hobj' hm'
        cases Option.some.inj (hs.symm.trans hs')
        cases Option.some.inj (hobj.symm.trans hobj')
        rw [hc] at hm'; cases hm'
        exact ⟨target, this, htarget, hthis, ((hg₅.trans hg₆).trans hlast).holds hthis', hcalls⟩

/-! ## Statements -/

theorem spec_alloc {i : ContextId} {c : Context} {site : StmtId} {lhs : VarId}
    {cls : ClassId} (hi : s.entities.context? i = some c) (hr : t.Derives (.reaches ⟨c, site.method⟩))
    (hin : s.Reaches ⟨c, site.method⟩) (hs : t.world.program.stmt? site = some (.alloc lhs cls)) :
    Spec t 1 0 (t.alloc i site lhs) s fun _ s' => StmtDone t s'.Holds c site (.alloc lhs cls) := by
  unfold Task.alloc
  cases ho : t.world.heap.objAt? site with
  | none => exact .throw (.noObject hr hs ho)
  | some o =>
    dsimp only
    cases hobj : t.world.heap.obj? o with
    | none => exact .throw_bind (.lostObject hr hs ho hobj)
    | some obj =>
      have hd : t.Derives (.points (.var c lhs) ⟨t.selector.heap c site.method obj, o⟩) :=
        .rule (.alloc hr hs ho hobj)
      refine .known rfl (.contextOf hi ?_)
      refine .seq (spec_internContext (.heap hd)) fun j s₁ hg₁ hj => ?_
      have hmade : s₁.Makes t ⟨t.selector.heap c site.method obj, o⟩ :=
        ⟨c, site, obj, ⟨hr, ⟨lhs, cls, hs⟩, ho, hobj, rfl⟩, hg₁.reaches hin⟩
      refine .seq (spec_internObj hj hd hmade) fun k s₂ hg₂ hk => ?_
      have hg := hg₁.trans hg₂
      refine .seq (spec_varPointer (hg.entities.context hi) (.holder hd)) fun p s₃ hg₃ hp => ?_
      refine (spec_seed hp (hg₃.entities.object hk) hd).mono fun _ s' _ hpoints => ?_
      exact ⟨o, obj, ho, hobj, hpoints⟩

/-- What a statement does at once. -/
theorem spec_stmt (ht : t.Valid) {m : CSMethodId} {i : ContextId} {c : Context} {site : StmtId}
    {st : Stmt} (hm : s.entities.frameOf? m = some ⟨c, site.method⟩)
    (hin : s.Reaches ⟨c, site.method⟩) (hi : s.entities.context? i = some c)
    (hr : t.Derives (.reaches ⟨c, site.method⟩)) (hs : t.world.program.stmt? site = some st) :
    Spec t 1 (t.stmtMisses st) (t.stmt m i site st) s fun _ s' => StmtDone t s'.Holds c site st := by
  have hvar : ∀ {s₁ : State} {v : VarId}, Grows s s₁ → CellOccurs t (.var c v) →
      Spec t 0 0 (varPointer i v) s₁ fun j s' => s'.entities.cellOf? j = some (.var c v) :=
    fun hg hp => spec_varPointer (hg.entities.context hi) hp
  cases st with
  | alloc lhs cls => exact spec_alloc hi hr hin hs
  | copy lhs rhs =>
    have hd : t.Derives (.flows (.var c rhs) (.var c lhs)) := .rule (.copy hr hs)
    exact (spec_flow (fun _ hg => hvar hg (.source hd)) (fun _ hg => hvar hg (.target hd)) hd).weaken
      (Nat.zero_le 1)
  | loadField lhs base ref =>
    cases base with
    | some b => exact (Spec.pure trivial).weaken (Nat.zero_le 1)
    | none =>
      obtain ⟨f, hf, href⟩ := AccessIndex.staticField?_of_stmt ht.index hs rfl
      have hd : t.Derives (.flows (.staticField f) (.var c lhs)) := .rule (.loadStatic hr hs href)
      have := spec_flow (fun _ _ => spec_staticPointer (.source hd)) (fun _ hg => hvar hg (.target hd)) hd
      refine (Spec.weaken ?_ (Nat.zero_le 1)).mono fun _ _ _ hflows => ⟨f, href, hflows⟩
      unfold Task.stmt Task.staticField
      rw [hf]
      exact this
  | storeField base ref rhs =>
    cases base with
    | some b => exact (Spec.pure trivial).weaken (Nat.zero_le 1)
    | none =>
      obtain ⟨f, hf, href⟩ := AccessIndex.staticField?_of_stmt ht.index hs rfl
      have hd : t.Derives (.flows (.var c rhs) (.staticField f)) := .rule (.storeStatic hr hs href)
      have := spec_flow (fun _ hg => hvar hg (.source hd)) (fun _ _ => spec_staticPointer (.target hd)) hd
      refine (Spec.weaken ?_ (Nat.zero_le 1)).mono fun _ _ _ hflows => ⟨f, href, hflows⟩
      unfold Task.stmt Task.staticField
      rw [hf]
      exact this
  | invoke call =>
    unfold Task.stmt Task.stmtMisses
    dsimp only
    by_cases hk : call.isStatic = true
    · rw [if_pos hk, if_pos hk]
      exact (spec_staticCall ht hm hi hr hs hk).weaken (Nat.zero_le 1)
    · rw [if_neg hk, if_neg hk]
      have hdone : ∀ s' : State, StmtDone t s'.Holds c site (.invoke call) := fun _ h => absurd h hk
      split
      · exact (spec_miss.weaken (Nat.zero_le 1)).mono fun _ s' _ _ => hdone s'
      · exact (Spec.pure (hdone s)).weaken (Nat.zero_le 1)
  | loadArray lhs base => exact (Spec.pure trivial).weaken (Nat.zero_le 1)
  | storeArray base rhs => exact (Spec.pure trivial).weaken (Nat.zero_le 1)
  | ret value => exact (Spec.pure trivial).weaken (Nat.zero_le 1)
  | nop => exact (Spec.pure trivial).weaken (Nat.zero_le 1)

def EnterDone (t : Task) (X : Fact → Prop) (f : Frame) : Prop :=
  ∀ x ∈ t.world.program.body f.method, StmtDone t X f.context x.1 x.2

theorem spec_enter (ht : t.Valid) {m : CSMethodId} {f : Frame} (hm : s.entities.frameOf? m = some f)
    (hin : m ∈ s.calls.reachable.toList) (hr : t.Derives (.reaches f)) :
    Spec t (t.world.program.body f.method).length (t.frameMisses f.method) (t.enter m) s
      fun _ s' => EnterDone t s'.Holds f := by
  obtain ⟨i, hrecord, hi⟩ := Entities.frameOf?_eq_some.mp hm
  have hcost : ((t.world.program.body f.method).map fun _ => 1).sum =
      (t.world.program.body f.method).length := by simp
  rw [← hcost]
  have hkeep : ∀ (x : StmtId × Stmt) (s₁ s₂ : State), Grows s₁ s₂ →
      StmtDone t s₁.Holds f.context x.1 x.2 → StmtDone t s₂.Holds f.context x.1 x.2 :=
    fun _ _ _ hg h => h.mono fun _ => hg.holds
  obtain ⟨method, hmethod⟩ := hr.grounded ht.world
  refine .get (.known hrecord (.known hmethod (.forM hkeep _ ?_)))
  rintro ⟨site, st⟩ hx s₁ hg
  obtain ⟨hsite, hs⟩ := Program.mem_body.mp hx
  have hf : f = ⟨f.context, site.method⟩ := by rw [hsite]
  exact spec_stmt ht (hf ▸ hg.entities.frame hm) (hf ▸ hg.reaches ⟨m, hin, hm⟩) (hg.entities.context hi)
    (hf ▸ hr) hs

/-! ## Objects -/

theorem Task.learn_eq (t : Task) (i : ContextId) (v : VarId) (j : CSObjId) : t.learn i v j = (do
    Task.accesses i (t.index.accessesOf v) j
    (t.index.accessesOf v).calls.forM (t.instanceCall i j)) := by
  unfold Task.learn AccessIndex.accessesOf
  cases t.index.accesses? v <;> rfl

section
variable (ht : t.Valid) {i : ContextId} {c : Context} {v : VarId} {j : CSObjId} {o : Instance}
variable (hi : s.entities.context? i = some c) (hj : s.entities.objectOf? j = some o)
variable (hp : t.Derives (.points (.var c v) o))
include ht hi hj hp

theorem spec_accesses : Spec t 0 0 (Task.accesses i (t.index.accessesOf v) j) s fun _ s' =>
    (∀ x ∈ (t.index.accessesOf v).fieldStores, s'.Holds (.flows (.var c x.2) (.instanceField o x.1))) ∧
    (∀ x ∈ (t.index.accessesOf v).fieldLoads, s'.Holds (.flows (.instanceField o x.2) (.var c x.1))) ∧
    (∀ x ∈ (t.index.accessesOf v).arrayStores, s'.Holds (.flows (.var c x) (.arrayIndex o))) ∧
    ∀ x ∈ (t.index.accessesOf v).arrayLoads, s'.Holds (.flows (.arrayIndex o) (.var c x)) := by
  have hvar : ∀ {s₁ : State} {x : VarId}, Grows s s₁ → CellOccurs t (.var c x) →
      Spec t 0 0 (varPointer i x) s₁ fun k s' => s'.entities.cellOf? k = some (.var c x) :=
    fun hg => spec_varPointer (hg.entities.context hi)
  have hfield : ∀ {s₁ : State} {f : FieldId}, Grows s s₁ → CellOccurs t (.instanceField o f) →
      Spec t 0 0 (fieldPointer j f) s₁ fun k s' => s'.entities.cellOf? k = some (.instanceField o f) :=
    fun hg => spec_fieldPointer (hg.entities.object hj)
  have harray : ∀ {s₁ : State}, Grows s s₁ → CellOccurs t (.arrayIndex o) →
      Spec t 0 0 (arrayPointer j) s₁ fun k s' => s'.entities.cellOf? k = some (.arrayIndex o) :=
    fun hg => spec_arrayPointer (hg.entities.object hj)
  unfold Task.accesses
  refine .seq (.each (R := fun (x : FieldId × VarId) s' => s'.Holds
    (.flows (.var c x.2) (.instanceField o x.1))) (fun _ _ _ hg => hg.holds) _ ?_) fun _ s₁ hg₁ hfs => ?_
  · rintro ⟨f, rhs⟩ hx s₁ hg
    obtain ⟨site, ref, hs, hf⟩ := (AccessIndex.mem_fieldStores ht.index).mp hx
    have hd : t.Derives (.flows (.var c rhs) (.instanceField o f)) :=
      .rule (.storeField (hp.reaches_of_used ht.world hs (by simp [Stmt.used])) hs hf hp)
    exact spec_flow (fun _ h => hvar (hg.trans h) (.source hd))
      (fun _ h => hfield (hg.trans h) (.target hd)) hd
  refine .seq (.each (R := fun (x : VarId × FieldId) s' => s'.Holds
    (.flows (.instanceField o x.2) (.var c x.1))) (fun _ _ _ hg => hg.holds) _ ?_) fun _ s₂ hg₂ hfl => ?_
  · rintro ⟨lhs, f⟩ hx s₂ hg₂
    have hg := hg₁.trans hg₂
    obtain ⟨site, ref, hs, hf⟩ := (AccessIndex.mem_fieldLoads ht.index).mp hx
    have hd : t.Derives (.flows (.instanceField o f) (.var c lhs)) :=
      .rule (.loadField (hp.reaches_of_used ht.world hs (by simp [Stmt.used])) hs hf hp)
    exact spec_flow (fun _ h => hfield (hg.trans h) (.source hd))
      (fun _ h => hvar (hg.trans h) (.target hd)) hd
  refine .seq (.each (R := fun (x : VarId) s' => s'.Holds (.flows (.var c x) (.arrayIndex o)))
    (fun _ _ _ hg => hg.holds) _ ?_) fun _ s₃ hg₃ has => ?_
  · intro rhs hx s₃ hg₃
    have hg := (hg₁.trans hg₂).trans hg₃
    obtain ⟨site, hs⟩ := (AccessIndex.mem_arrayStores ht.index).mp hx
    have hd : t.Derives (.flows (.var c rhs) (.arrayIndex o)) :=
      .rule (.storeArray (hp.reaches_of_used ht.world hs (by simp [Stmt.used])) hs hp)
    exact spec_flow (fun _ h => hvar (hg.trans h) (.source hd))
      (fun _ h => harray (hg.trans h) (.target hd)) hd
  refine (Spec.each (R := fun (x : VarId) s' => s'.Holds (.flows (.arrayIndex o) (.var c x)))
    (fun _ _ _ hg => hg.holds) _ ?_).mono fun _ s' hg' hal => ?_
  · intro lhs hx s₄ hg₄
    have hg := ((hg₁.trans hg₂).trans hg₃).trans hg₄
    obtain ⟨site, hs⟩ := (AccessIndex.mem_arrayLoads ht.index).mp hx
    have hd : t.Derives (.flows (.arrayIndex o) (.var c lhs)) :=
      .rule (.loadArray (hp.reaches_of_used ht.world hs (by simp [Stmt.used])) hs hp)
    exact spec_flow (fun _ h => harray (hg.trans h) (.source hd))
      (fun _ h => hvar (hg.trans h) (.target hd)) hd
  · exact ⟨fun x hx => ((hg₂.trans hg₃).trans hg').holds (hfs x hx),
      fun x hx => (hg₃.trans hg').holds (hfl x hx), fun x hx => hg'.holds (has x hx), hal⟩

/-- All that follows from a new object. -/
theorem spec_learn : Spec t (t.index.accessesOf v).calls.length (t.learnMisses v o) (t.learn i v j) s
    fun _ s' => LearnDone t s'.Holds c v o := by
  have hcost : ((t.index.accessesOf v).calls.map fun _ => 1).sum =
      (t.index.accessesOf v).calls.length := by simp
  have hkeep : ∀ (site : StmtId) (s₁ s₂ : State), Grows s₁ s₂ → CallDone t s₁.Holds c o site →
      CallDone t s₂.Holds c o site := fun _ _ _ hg h => h.mono fun _ => hg.holds
  rw [Task.learn_eq, ← hcost]
  refine .seq (spec_accesses ht hi hj hp) fun _ s₁ hg₁ hq => ?_
  refine (Spec.forM hkeep _ fun site hsite s₂ hg₂ => ?_).mono fun _ s' hg' hcalls => ?_
  · have hg := hg₁.trans hg₂
    exact spec_instanceCall ht (hg.entities.context hi) (hg.entities.object hj) hp hsite
  · obtain ⟨hfs, hfl, has, hal⟩ := hq
    exact ⟨fun x hx => hg'.holds (hfs x hx), fun x hx => hg'.holds (hfl x hx),
      fun x hx => hg'.holds (has x hx), fun x hx => hg'.holds (hal x hx), hcalls⟩

end

end

end PointsTo
