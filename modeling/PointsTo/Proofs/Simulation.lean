import PointsTo.Proofs.Runs

/-!
# Two runs side by side

What one task does from a state, another one does from a state that goes with
it: rules for actions, then for loops and for whole runs. The states may differ
in what stands behind the handles of contexts and objects, and in the number of
calls that have been counted as unresolved.
-/

namespace PointsTo
open Solve

/-! ## Blind actions -/

def State.veil (s : State) (contexts : Table Context) (objs : Table CSObj) (n : Nat) : State :=
  { s with entities := { s.entities with contexts, objs }, unresolved := n }

/-- An action that neither looks at contexts, objects and the count nor changes them. -/
def Blind {α : Type} (a : Solve α) : Prop := ∀ s contexts objs n,
  a.apply (s.veil contexts objs n) = ((a.apply s).1, (a.apply s).2.veil contexts objs n)

section
variable {α β : Type}

theorem blind_pure (r : α) : Blind (pure r : Solve α) := fun _ _ _ _ => rfl

theorem blind_throw (e : Error) : Blind (throw e : Solve α) := fun _ _ _ _ => rfl

theorem Blind.bind {a : Solve β} {f : β → Solve α} (ha : Blind a) (hf : ∀ r, Blind (f r)) :
    Blind (a >>= f) := by
  intro s contexts objs n
  rw [apply_bind, apply_bind, ha]
  rcases a.apply s with ⟨_ | r, s₁⟩
  · rfl
  · exact hf r s₁ contexts objs n

theorem Blind.get {f : State → Solve α} (h : ∀ s, Blind (f s))
    (hf : ∀ s contexts objs n, f (s.veil contexts objs n) = f s) : Blind (get >>= f) := by
  intro s contexts objs n
  rw [apply_bind, apply_bind]
  show (f (s.veil contexts objs n)).apply (s.veil contexts objs n) = _
  rw [hf]
  exact h s s contexts objs n

theorem blind_known (x : Option α) : Blind (known x) := by
  cases x with
  | none => exact blind_throw _
  | some r => exact blind_pure r

theorem Blind.forM {f : β → Solve Unit} (hf : ∀ x, Blind (f x)) : ∀ l : List β, Blind (l.forM f)
  | [] => blind_pure ()
  | x :: l => (hf x).bind fun _ => Blind.forM hf l

theorem Blind.ite {c : Prop} [Decidable c] {a b : Solve α} (ha : Blind a) (hb : Blind b) :
    Blind (if c then a else b) := by
  by_cases hc : c
  · rw [if_pos hc]; exact ha
  · rw [if_neg hc]; exact hb

theorem blind_onFlow (f : FlowGraph → α × FlowGraph) : Blind (onFlow f) := fun _ _ _ _ => rfl

theorem blind_onCalls (f : CallGraph CSCallSiteId CSMethodId → α × CallGraph CSCallSiteId CSMethodId) :
    Blind (onCalls f) := fun _ _ _ _ => rfl

theorem blind_push (p : PointerId) (set : ObjSet) : Blind (push p set) := fun _ _ _ _ => rfl

theorem blind_enqueue (m : CSMethodId) : Blind (enqueue m) := fun _ _ _ _ => rfl

theorem blind_countEffective : Blind countEffective := fun _ _ _ _ => rfl

theorem blind_pop? : Blind pop? := by
  intro s contexts objs n
  rw [apply_pop?, apply_pop?, show (s.veil contexts objs n).work = s.work from rfl]
  cases s.work.pop? <;> rfl

theorem blind_dequeue? : Blind dequeue? := by
  intro s contexts objs n
  rw [apply_dequeue?, apply_dequeue?, show (s.veil contexts objs n).pending = s.pending from rfl]
  cases s.pending.popOldest? <;> rfl

theorem blind_internSite (c : ContextId) (site : StmtId) : Blind (internSite c site) := fun _ _ _ _ => rfl

theorem blind_internMethod (c : ContextId) (m : MethodId) : Blind (internMethod c m) := fun _ _ _ _ => rfl

theorem blind_pointer (p : Pointer) : Blind (onEntities (·.internPointer p)) := by
  intro s contexts objs n
  rw [apply_onEntities, apply_onEntities]
  unfold Entities.internPointer State.veil
  dsimp only
  by_cases h : (s.entities.pointers.intern p).1 < s.entities.pointers.size
  · simp only [if_pos h]
  · simp only [if_neg h]

theorem blind_extend (p : PointerId) (set : ObjSet) : Blind (onEntities (·.extend p set)) :=
  fun _ _ _ _ => rfl

end

theorem blind_connect (p q : PointerId) : Blind (Task.connect p q) := by
  refine (blind_onFlow _).bind fun new => .ite ?_ (blind_pure ())
  refine .get (fun s => (blind_known _).bind fun set => ?_) fun _ _ _ _ => rfl
  exact .ite (blind_push _ _) (blind_pure ())

theorem blind_flow (p q : Pointer) : Blind (do
    let source ← onEntities (·.internPointer p)
    let target ← onEntities (·.internPointer q)
    Task.connect source target) :=
  (blind_pointer p).bind fun _ => (blind_pointer q).bind fun _ => blind_connect _ _

theorem blind_propagate (p : PointerId) (set : ObjSet) : Blind (Task.propagate p set) := by
  refine .get (fun s => (blind_known _).bind fun _ => (blind_extend p set).bind fun fresh => ?_)
    fun _ _ _ _ => rfl
  refine .ite (blind_countEffective.bind fun _ => .get (fun s => ?_) fun _ _ _ _ => rfl) (blind_pure _)
  exact (Blind.forM (fun q => blind_push q set) _).bind fun _ => blind_pure _

theorem blind_accesses (c : ContextId) (a : Accesses) (o : CSObjId) : Blind (Task.accesses c a o) := by
  refine (Blind.forM (fun x => blind_flow _ _) _).bind fun _ => ?_
  refine (Blind.forM (fun x => blind_flow _ _) _).bind fun _ => ?_
  refine (Blind.forM (fun x => blind_flow _ _) _).bind fun _ => ?_
  exact Blind.forM (fun x => blind_flow _ _) _

theorem Task.blind_bindCall (t : Task) (caller : ContextId) (call : Call) (c : ContextId) (m : MethodId) :
    Blind (t.bindCall caller call c m) := by
  refine (blind_known _).bind fun method => ?_
  refine .ite ((blind_known _).bind fun text => (blind_throw _).bind fun _ => ?_) ?_
  all_goals
    refine (Blind.forM (fun x => blind_flow _ _) _).bind fun _ => ?_
    cases call.result with
    | none => exact blind_pure ()
    | some r =>
      refine (blind_pointer _).bind fun target => Blind.forM (fun v => ?_) _
      exact (blind_pointer _).bind fun _ => blind_connect _ _

theorem Task.blind_link (t : Task) (edge : Edge CSCallSiteId CSMethodId) (caller : ContextId) (call : Call)
    (c : ContextId) (m : MethodId) : Blind (t.link edge caller call c m) := by
  refine (blind_onCalls _).bind fun new => .ite ?_ (blind_pure ())
  exact (blind_enqueue _).bind fun _ => t.blind_bindCall caller call c m

theorem Task.blind_staticField (t : Task) (site : StmtId) : Blind (t.staticField site) := by
  unfold Task.staticField
  cases t.index.staticField? site with
  | none => exact blind_throw _
  | some f => exact blind_pure f

/-! ## Actions side by side -/

structure State.Keeps (s s₁ : State) : Prop where
  contexts : s.entities.contexts.toList <+: s₁.entities.contexts.toList
  objs : s.entities.objs.toList <+: s₁.entities.objs.toList

namespace State.Keeps
variable {s s₁ s₂ : State}

theorem refl (s : State) : s.Keeps s := ⟨List.prefix_rfl, List.prefix_rfl⟩

theorem trans (h : s.Keeps s₁) (h' : s₁.Keeps s₂) : s.Keeps s₂ :=
  ⟨h.contexts.trans h'.contexts, h.objs.trans h'.objs⟩

theorem context (h : s.Keeps s₁) {i : ContextId} {c : Context} (hi : s.entities.context? i = some c) :
    s₁.entities.context? i = some c := Table.get?_mono h.contexts hi

theorem object (h : s.Keeps s₁) {j : CSObjId} {o : Instance} (hj : s.entities.objectOf? j = some o) :
    s₁.entities.objectOf? j = some o := by
  obtain ⟨k, hj, hk⟩ := Entities.objectOf?_eq_some.mp hj
  exact Entities.objectOf?_eq_some.mpr ⟨k, Table.get?_mono h.objs hj, h.context hk⟩

end State.Keeps

structure State.Alike (s s₁ : State) : Prop where
  contexts : s₁.entities.contexts = s.entities.contexts
  objs : s₁.entities.objs = s.entities.objs
  unresolved : s₁.unresolved = s.unresolved

theorem Blind.alike {α : Type} {a : Solve α} (h : Blind a) (s : State) : s.Alike (a.apply s).2 := by
  have hself := h s s.entities.contexts s.entities.objs s.unresolved
  have hs : (a.apply s).2 = (a.apply s).2.veil s.entities.contexts s.entities.objs s.unresolved :=
    congrArg Prod.snd hself
  constructor <;> rw [hs] <;> rfl

/-- States that go together, `s'` for `s`, are told apart by no blind action. -/
class Loyal (R : State → State → Prop) : Prop where
  veil : ∀ {s s'}, R s s' → ∃ contexts objs n, s' = s.veil contexts objs n ∧
    ∀ s₁, s.Alike s₁ → R s₁ (s₁.veil contexts objs n)

/-- Where `a` comes to its end in `s`, there `a'` comes to the same end in a state that goes with `s`. -/
def Simulates {α : Type} (R : State → State → Prop) (a a' : Solve α) (s : State) : Prop :=
  ∀ r s₁, a.apply s = (.ok r, s₁) → s.Keeps s₁ ∧ ∀ s', R s s' → ∃ s₁', R s₁ s₁' ∧ a'.apply s' = (.ok r, s₁')

namespace Simulates
variable {α β : Type} {R : State → State → Prop} {s : State}

/-- An action that fails need not be followed. -/
theorem of_error {a a' : Solve α} {e : Error} (h : (a.apply s).1 = .error e) : Simulates R a a' s := by
  intro r s₁ hr
  rw [hr] at h
  cases h

theorem bind {a a' : Solve β} {f f' : β → Solve α} (ha : Simulates R a a' s)
    (hf : ∀ r s₁, a.apply s = (.ok r, s₁) → s.Keeps s₁ → Simulates R (f r) (f' r) s₁) :
    Simulates R (a >>= f) (a' >>= f') s := by
  intro r s₂ hr
  rw [apply_bind] at hr
  rcases h : a.apply s with ⟨_ | q, s₁⟩
  · rw [h] at hr; cases hr
  · rw [h] at hr
    obtain ⟨hkeep, ha⟩ := ha q s₁ h
    obtain ⟨hkeep', hf⟩ := hf q s₁ h hkeep r s₂ hr
    refine ⟨hkeep.trans hkeep', fun s' hR => ?_⟩
    obtain ⟨s₁', hR₁, ha⟩ := ha s' hR
    obtain ⟨s₂', hR₂, hf⟩ := hf s₁' hR₁
    refine ⟨s₂', hR₂, ?_⟩
    rw [apply_bind, ha]
    exact hf

/-- The first action of each is done. -/
theorem congr {a a' b b' : Solve α} (h : Simulates R b b' s) (ha : a.apply s = b.apply s)
    (ha' : ∀ s', R s s' → a'.apply s' = b'.apply s') : Simulates R a a' s := by
  intro r s₁ hr
  obtain ⟨hkeep, h⟩ := h r s₁ (ha ▸ hr)
  refine ⟨hkeep, fun s' hR => ?_⟩
  rw [ha' s' hR]
  exact h s' hR

theorem of_known {x : Option β} {f : β → Solve α} {a' : Solve α}
    (h : ∀ y, x = some y → Simulates R (f y) a' s) : Simulates R (known x >>= f) a' s := by
  cases x with
  | none => exact .of_error rfl
  | some y => exact h y rfl

theorem known {x x' : Option β} {y : β} {f f' : β → Solve α} (hx : x = some y) (hx' : x' = some y)
    (h : Simulates R (f y) (f' y) s) : Simulates R (known x >>= f) (known x' >>= f') s := by
  subst hx
  subst hx'
  exact h

theorem ofExcept {x x' : Except Error β} {y : β} {f f' : β → Solve α} (hx : x = .ok y)
    (hx' : x' = .ok y) (h : Simulates R (f y) (f' y) s) :
    Simulates R (ofExcept x >>= f) (ofExcept x' >>= f') s := by
  subst hx
  subst hx'
  exact h

/-- What one looks up in its state, the other looks up in its own. -/
theorem read {g : State → Option β} {y y' : β} {f f' : β → Solve α} (hy : g s = some y)
    (hy' : ∀ s', R s s' → g s' = some y') (h : Simulates R (f y) (f' y') s) :
    Simulates R (get >>= fun s => Solve.known (g s) >>= f) (get >>= fun s => Solve.known (g s) >>= f') s := by
  refine h.congr ?_ fun s' hR => ?_
  · show (Solve.known (g s) >>= f).apply s = _
    rw [hy]; rfl
  · show (Solve.known (g s') >>= f').apply s' = _
    rw [hy' s' hR]; rfl

/-- The other need not look. -/
theorem of_read {g : State → Option β} {y : β} {f : β → Solve α} {a' : Solve α} (hy : g s = some y)
    (h : Simulates R (f y) a' s) : Simulates R (get >>= fun s => Solve.known (g s) >>= f) a' s := by
  refine h.congr ?_ fun _ _ => rfl
  show (Solve.known (g s) >>= f).apply s = _
  rw [hy]; rfl

theorem look {g : State → Option β} {f f' : β → Solve α} (hg : ∀ s', R s s' → g s' = g s)
    (h : ∀ y, g s = some y → Simulates R (f y) (f' y) s) :
    Simulates R (get >>= fun s => Solve.known (g s) >>= f) (get >>= fun s => Solve.known (g s) >>= f') s := by
  cases hy : g s with
  | none =>
    refine .of_error (e := .unknownId) ?_
    show ((Solve.known (g s) >>= f).apply s).1 = _
    rw [hy]; rfl
  | some y => exact read hy (fun s' hR => (hg s' hR).trans hy) (h y hy)

variable [Loyal R]

theorem of_blind {a : Solve α} (h : Blind a) : Simulates R a a s := by
  intro r s₁ hr
  have halike := h.alike s
  rw [hr] at halike
  refine ⟨⟨halike.contexts ▸ List.prefix_rfl, halike.objs ▸ List.prefix_rfl⟩, fun s' hR => ?_⟩
  obtain ⟨contexts, objs, n, rfl, hnext⟩ := Loyal.veil hR
  refine ⟨_, hnext s₁ halike, ?_⟩
  rw [h s contexts objs n, hr]

/-- A look at what is the same in both. -/
theorem peek {g : State → Option β} {f f' : β → Solve α} (hg : ∀ contexts objs n, g (s.veil contexts objs n) = g s)
    (h : ∀ y, g s = some y → Simulates R (f y) (f' y) s) :
    Simulates R (get >>= fun s => Solve.known (g s) >>= f) (get >>= fun s => Solve.known (g s) >>= f') s := by
  refine look (fun s' hR => ?_) h
  obtain ⟨contexts, objs, n, rfl, _⟩ := Loyal.veil hR
  exact hg contexts objs n

/-- An action that neither run can tell apart comes first. -/
theorem seq {a : Solve β} {f f' : β → Solve α} (ha : Blind a)
    (hf : ∀ r s₁, a.apply s = (.ok r, s₁) → s.Keeps s₁ → Simulates R (f r) (f' r) s₁) :
    Simulates R (a >>= f) (a >>= f') s := (of_blind ha).bind hf

theorem forM {f f' : β → Solve Unit} : ∀ (l : List β) {s : State},
    (∀ x ∈ l, ∀ s₁, s.Keeps s₁ → Simulates R (f x) (f' x) s₁) → Simulates R (l.forM f) (l.forM f') s
  | [], s, _ => .of_blind (blind_pure ())
  | x :: l, s, h => by
    refine (h x List.mem_cons_self s (.refl s)).bind fun _ s₁ _ hkeep => ?_
    exact forM l fun y hy s₂ hkeep' => h y (List.mem_cons_of_mem _ hy) s₂ (hkeep.trans hkeep')

/-- The other skips some of the items, for which it does nothing. -/
theorem forM_filter {f f' : β → Solve Unit} {q : β → Bool} : ∀ (l : List β) {s : State},
    (∀ x ∈ l, ∀ s₁, s.Keeps s₁ → Simulates R (f x) (if q x then f' x else pure ()) s₁) →
      Simulates R (l.forM f) ((l.filter q).forM f') s
  | [], s, _ => .of_blind (blind_pure ())
  | x :: l, s, h => by
    have hx := h x List.mem_cons_self s (.refl s)
    have hl : ∀ s₁, s.Keeps s₁ → Simulates R (l.forM f) ((l.filter q).forM f') s₁ := fun s₁ hkeep =>
      forM_filter l fun y hy s₂ hkeep' => h y (List.mem_cons_of_mem _ hy) s₂ (hkeep.trans hkeep')
    cases hq : q x with
    | true =>
      rw [List.filter_cons_of_pos hq]
      rw [hq, if_pos rfl] at hx
      exact hx.bind fun _ s₁ _ hkeep => hl s₁ hkeep
    | false =>
      rw [List.filter_cons_of_neg (by simp [hq])]
      rw [hq, if_neg Bool.false_ne_true] at hx
      exact hx.bind fun _ s₁ _ hkeep => hl s₁ hkeep

end Simulates

/-! ## Loops -/

section
variable {R : State → State → Prop} [Loyal R] {turn turn' : Solve Bool} {P : State → Prop}
  (hturn : ∀ s, P s → Simulates R turn turn' s) (hP : ∀ s s₁, P s → turn.apply s = (.ok true, s₁) → P s₁)
include hturn hP

theorem simulates_burst : ∀ (j : Nat) {s : State}, P s →
    Simulates R (Iterate.burst turn j) (Iterate.burst turn' j) s
  | 0, s, hs => hturn s hs
  | j + 1, s, hs => by
    refine (simulates_burst j hs).bind fun more s₁ hmore _ => ?_
    cases more with
    | false => exact .of_blind (blind_pure false)
    | true =>
      have hturns : Turns turn (2 ^ j) s s₁ := (rounds_burst j s).of_ok hmore
      exact simulates_burst j (hturns.keeps hP hs)

/-- A larger limit makes no difference to what ends below the smaller one. -/
theorem simulates_bursts : ∀ (limit limit' j : Nat) {s : State}, limit ≤ limit' → P s →
    Simulates R (do if ← Iterate.bursts turn limit j then throw .unfinished)
      (do if ← Iterate.bursts turn' limit' j then throw .unfinished) s
  | 0, _, _, _, _, _ => .of_error rfl
  | limit + 1, limit' + 1, j, s, hle, hs => by
    unfold Iterate.bursts
    rw [bind_assoc, bind_assoc]
    refine (simulates_burst hturn hP j hs).bind fun more s₁ hmore _ => ?_
    cases more with
    | false =>
      simp only [Bool.false_eq_true, if_false, pure_bind]
      exact .of_blind (blind_pure ())
    | true =>
      have hturns : Turns turn (2 ^ j) s s₁ := (rounds_burst j s).of_ok hmore
      rw [if_pos rfl, if_pos rfl]
      exact simulates_bursts limit limit' (j + 1) (Nat.le_of_succ_le_succ hle) (hturns.keeps hP hs)

theorem simulates_toEnd {t t' : Task} (hlimit : t.limit ≤ t'.limit) {s : State} (hs : P s) :
    Simulates R (t.toEnd turn) (t'.toEnd turn') s :=
  simulates_bursts hturn hP t.limit t'.limit 0 hlimit hs

end

/-! ## Runs -/

/-- In states that go together `t'` does what `t` does where a method is entered, where a variable has
learned of an object, and at the start. -/
structure Task.Couples (R : State → State → Prop) (t t' : Task) : Prop where
  limit : t.limit ≤ t'.limit
  enter : ∀ {s m f}, s.entities.frameOf? m = some f → t.Derives (.reaches f) →
    Simulates R (t.enter m) (t'.enter m) s
  learn : ∀ {s i c v j o}, s.entities.context? i = some c → s.entities.objectOf? j = some o →
    t.Derives (.points (.var c v) o) → Simulates R (t.learn i v j) (t'.learn i v j) s
  launched : ∀ {s s'}, R s s' → R (s.launched t) (s'.launched t')

namespace Task.Couples
variable {R : State → State → Prop} [Loyal R] {t t' : Task} (h : t.Couples R t') {s : State}
include h

theorem drainOne (hs : s.Invariant t) : Simulates R t.drainOne t'.drainOne s := by
  unfold Task.drainOne
  refine .seq blind_dequeue? fun r s₁ hr _ => ?_
  rw [apply_dequeue?] at hr
  cases hq : s.pending.popOldest? with
  | none =>
    rw [hq] at hr
    cases hr
    exact .of_blind (blind_pure false)
  | some x =>
    obtain ⟨m, q⟩ := x
    rw [hq] at hr
    cases hr
    have hmem : m ∈ s.pending.toList := by simp [Queue.popOldest?_eq_some hq]
    obtain ⟨f, hf, hd⟩ := hs.justified.pending m hmem
    refine .seq (blind_onCalls _) fun new s₂ hnew _ => ?_
    rw [apply_onCalls] at hnew
    cases hnew
    by_cases hm : (s.calls.addReachable m).1 = true
    · rw [if_pos hm, if_pos hm]
      exact (h.enter (s := s.admitted m q) hf hd).bind fun _ _ _ _ => .of_blind (blind_pure true)
    · rw [if_neg hm, if_neg hm]
      exact .of_blind (blind_pure true)

theorem digest {p : PointerId} {fresh : ObjSet} (hsup : s.entities.Supports t p fresh) :
    Simulates R (t.digest p fresh) (t'.digest p fresh) s := by
  unfold Task.digest
  by_cases hf : (!fresh.isEmpty) = true
  · rw [if_pos hf, if_pos hf]
    refine .peek (g := fun s => s.entities.pointer? p) (fun _ _ _ => rfl) fun a hp => ?_
    cases a with
    | var i v =>
      refine .forM _ fun j hj s₁ hkeep => ?_
      obtain ⟨cell, o, hcell, ho, hd⟩ := hsup j hj
      obtain ⟨a, ha, hac⟩ := Entities.cellOf?_eq_some.mp hcell
      cases Option.some.inj (hp.symm.trans ha)
      obtain ⟨c, hi, rfl⟩ := Option.map_eq_some_iff.mp hac
      exact h.learn (hkeep.context hi) (hkeep.object ho) hd
    | _ => exact .of_blind (blind_pure ())
  · rw [if_neg hf, if_neg hf]
    exact .of_blind (blind_pure ())

variable (ht : t.Valid)
include ht

theorem drain (hs : s.Invariant t) : Simulates R t.drain t'.drain s := by
  unfold Task.drain
  refine simulates_toEnd (P := State.Invariant t) (fun s hs => h.drainOne hs) (fun s s₁ hs hone => ?_)
    h.limit hs
  have hd : Drains t s s₁ := (ends_drainOne ht hs).of_ok hone
  exact hd.invariant hs

theorem launch (hs : s.Invariant t) : Simulates R t.launch t'.launch s := by
  intro r s₁ hr
  have hstarted : ∀ {s'}, R s s' → s'.started = s.started := by
    intro s' hR
    obtain ⟨_, _, _, rfl, _⟩ := Loyal.veil hR
    rfl
  rw [apply_launch] at hr
  by_cases hstart : s.started = true
  · rw [if_pos hstart] at hr
    cases hr
    refine ⟨.refl s, fun s' hR => ⟨s', hR, ?_⟩⟩
    rw [apply_launch, hstarted hR, if_pos hstart]
  · rw [if_neg hstart] at hr
    obtain ⟨hkeep, hdrain⟩ := h.drain ht (hs.launched (Bool.eq_false_of_not_eq_true hstart)) r s₁ hr
    have hfirst : s.Keeps (s.launched t) := ⟨Table.prefix_intern _ _, List.prefix_rfl⟩
    refine ⟨hfirst.trans hkeep, fun s' hR => ?_⟩
    rw [apply_launch, hstarted hR, if_neg hstart]
    exact hdrain _ (h.launched hR)

theorem step (hs : s.Invariant t) : Simulates R t.step t'.step s := by
  rw [Task.step_eq, Task.step_eq]
  refine (h.launch ht hs).bind fun _ s₁ hl _ => ?_
  have hlaunches : Launches t s s₁ := (ends_launch ht hs).of_ok hl
  have hs₁ := hlaunches.invariant hs
  refine .seq blind_pop? fun r s₂ hr _ => ?_
  rw [apply_pop?] at hr
  cases hw : s₁.work.pop? with
  | none =>
    rw [hw] at hr
    cases hr
    exact .of_blind (blind_pure false)
  | some x =>
    obtain ⟨⟨p, set⟩, w⟩ := x
    rw [hw] at hr
    cases hr
    have hpop := Worklist.pop?_eq_some hw
    have hs₂ := hs₁.absorbed hpop
    refine .seq (blind_propagate p set) fun fresh s₃ hfresh _ => ?_
    rw [apply_propagate (hs₁.justified.pointer_lt hpop)] at hfresh
    cases hfresh
    have hsup : (s₁.absorbed p set w).entities.Supports t p ((s₁.entities.pointsTo p).missing set) := by
      intro j hj
      refine hs₂.justified.points p j ?_
      exact (hs₁.justified.mem_pointsTo_absorbed hpop).mpr (Or.inr ⟨rfl, (ObjSet.mem_missing.mp hj).1⟩)
    refine (h.digest hsup).bind fun _ s₄ hdigest _ => ?_
    have hlearns := (ends_digest ht hs₂.justified hsup).of_ok hdigest
    refine (h.drain ht (hlearns.progress.path.invariant hs₂)).bind fun _ _ _ _ => ?_
    exact .of_blind (blind_pure true)

theorem run (hs : s.Invariant t) : Simulates R t.run t'.run s := by
  unfold Task.run
  refine (h.launch ht hs).bind fun _ s₁ hl _ => ?_
  have hlaunches : Launches t s s₁ := (ends_launch ht hs).of_ok hl
  refine simulates_toEnd (P := State.Invariant t) (fun s hs => h.step ht hs) (fun s s₁ hs hone => ?_)
    h.limit (hlaunches.invariant hs)
  have hends : StepEnds t s true s₁ := (ends_step ht hs).of_ok hone
  exact hends.invariant hs

theorem solve {order : Order} (hinitial : R (.initial order) (.initial order))
    (hs : t.solve order = .ok s) : ∃ s', R s s' ∧ t'.solve order = .ok s' := by
  unfold Task.solve at hs
  rcases hr : t.run.apply (.initial order) with ⟨_ | _, s₁⟩
  · rw [hr] at hs; cases hs
  · rw [hr] at hs
    cases Except.ok.inj hs
    obtain ⟨_, hrun⟩ := h.run ht (State.invariant_initial t order) _ s hr
    obtain ⟨s', hR, hr'⟩ := hrun _ hinitial
    refine ⟨s', hR, ?_⟩
    unfold Task.solve
    rw [hr']

end Task.Couples

end PointsTo
