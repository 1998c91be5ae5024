import PointsTo.Proofs.Refinement
import PointsTo.Proofs.Simulation

/-!
# Runs in lockstep

Two tasks may give their objects different numbers. If they look the same from
all that the first one reaches, the second does what the first does, step by
step and with the same handles: only the objects behind the handles have other
numbers.
-/

namespace PointsTo
open Solve

/-! ## New numbers for objects -/

def Element.rename (ρ : ObjId → ObjId) : Element → Element
  | .object o => .object (ρ o)
  | e => e

def Context.rename (ρ : ObjId → ObjId) (c : Context) : Context := c.map (.rename ρ)

def CSObj.rename (ρ : ObjId → ObjId) (o : CSObj) : CSObj := ⟨o.heap, ρ o.obj⟩

section
variable {ρ : ObjId → ObjId} (hρ : Function.Injective ρ)
include hρ

theorem Element.rename_injective : Function.Injective (rename ρ) := by
  intro a b h
  cases a <;> cases b <;> simp_all [rename, hρ.eq_iff]

theorem Context.rename_injective : Function.Injective (rename ρ) := by
  intro a b h
  obtain ⟨a⟩ := a
  obtain ⟨b⟩ := b
  exact congrArg mk (List.map_injective_iff.mpr (Element.rename_injective hρ) (mk.inj h))

theorem CSObj.rename_injective : Function.Injective (rename ρ) := by
  intro a b h
  obtain ⟨hheap, hobj⟩ := mk.inj h
  cases a
  cases b
  exact congrArg₂ mk hheap (hρ hobj)

end

/-- Interning goes on in step with a renamed table. -/
theorem Table.intern_map {α β : Type} [DecidableEq α] [Hashable α] [DecidableEq β] [Hashable β] {g : α → β}
    (hg : Function.Injective g) {t : Table α} {t' : Table β} (h : t'.toList = t.toList.map g) (x : α) :
    (t'.intern (g x)).1 = (t.intern x).1 ∧ (t'.intern (g x)).2.toList = (t.intern x).2.toList.map g := by
  have hlist : (t'.intern (g x)).2.toList = (t.intern x).2.toList.map g := by
    rw [toList_intern, toList_intern, h]
    by_cases hx : x ∈ t.toList
    · rw [if_pos hx, if_pos (List.mem_map_of_mem hx)]
    · rw [if_neg hx, if_neg fun hgx => hx ((List.mem_map_of_injective hg).mp hgx), List.map_append,
        List.map_singleton]
  refine ⟨?_, hlist⟩
  have hx := t.get?_intern_self x
  have hplace : (t'.intern (g x)).2.get? (t.intern x).1 = some (g x) := by
    rw [get?_eq] at hx ⊢
    rw [hlist, List.getElem?_map, hx]
    rfl
  exact get?_inj (t'.get?_intern_self (g x)) hplace

/-! ## States in other dress -/

def State.dress (s : State) (contexts : Table Context) (objs : Table CSObj) : State :=
  { s with entities := { s.entities with contexts, objs } }

structure Renames (ρ : ObjId → ObjId) (s : State) (contexts : Table Context) (objs : Table CSObj) : Prop where
  contexts : contexts.toList = s.entities.contexts.toList.map (.rename ρ)
  objs : objs.toList = s.entities.objs.toList.map (.rename ρ)

theorem renames_initial (ρ : ObjId → ObjId) (order : Order) : Renames ρ (.initial order)
    (State.initial order).entities.contexts (State.initial order).entities.objs := by
  refine ⟨?_, rfl⟩
  show (Table.empty.intern Context.empty).2.toList = (Table.empty.intern Context.empty).2.toList.map _
  rw [Table.toList_intern, if_neg (by simp)]
  rfl

def Dressed (ρ : ObjId → ObjId) (s s' : State) : Prop :=
  ∃ contexts objs, Renames ρ s contexts objs ∧ s' = s.dress contexts objs

instance (ρ : ObjId → ObjId) : Loyal (Dressed ρ) where
  veil := by
    rintro s s' ⟨contexts, objs, hrename, rfl⟩
    refine ⟨contexts, objs, s.unresolved, rfl, fun s₁ halike => ⟨contexts, objs, ?_, ?_⟩⟩
    · exact ⟨halike.contexts ▸ hrename.contexts, halike.objs ▸ hrename.objs⟩
    · rw [← halike.unresolved]
      rfl

abbrev Follows {α : Type} (ρ : ObjId → ObjId) (a a' : Solve α) (s : State) : Prop :=
  Simulates (Dressed ρ) a a' s

section
variable {α β : Type} {ρ : ObjId → ObjId} {s : State}

theorem Renames.context {contexts : Table Context} {objs : Table CSObj} (h : Renames ρ s contexts objs)
    {i : ContextId} {c : Context} (hi : s.entities.context? i = some c) :
    contexts.get? i.idx = some (c.rename ρ) := by
  rw [Table.get?_eq, h.contexts, List.getElem?_map, ← Table.get?_eq]
  exact congrArg (Option.map _) hi

theorem Renames.object {contexts : Table Context} {objs : Table CSObj} (h : Renames ρ s contexts objs)
    {j : CSObjId} {x : CSObj} (hj : s.entities.obj? j = some x) : objs.get? j.idx = some (x.rename ρ) := by
  rw [Table.get?_eq, h.objs, List.getElem?_map, ← Table.get?_eq]
  exact congrArg (Option.map _) hj

theorem follows_contextOf {i : ContextId} {c : Context} {f f' : Context → Solve α}
    (hi : s.entities.context? i = some c) (h : Follows ρ (f c) (f' (c.rename ρ)) s) :
    Follows ρ (contextOf i >>= f) (contextOf i >>= f') s := by
  refine Simulates.read (g := fun s => s.entities.context? i) hi ?_ h
  rintro _ ⟨contexts, objs, hrename, rfl⟩
  exact hrename.context hi

theorem follows_object {j : CSObjId} {x : CSObj} {f f' : CSObj → Solve α}
    (hj : s.entities.obj? j = some x) (h : Follows ρ (f x) (f' (x.rename ρ)) s) :
    Follows ρ (get >>= fun s => known (s.entities.obj? j) >>= f)
      (get >>= fun s => known (s.entities.obj? j) >>= f') s := by
  refine Simulates.read (g := fun s => s.entities.obj? j) hj ?_ h
  rintro _ ⟨contexts, objs, hrename, rfl⟩
  exact hrename.object hj

theorem follows_miss : Follows ρ countUnresolved countUnresolved s := by
  intro r s₁ hr
  cases hr
  refine ⟨⟨List.prefix_rfl, List.prefix_rfl⟩, ?_⟩
  rintro _ ⟨contexts, objs, hrename, rfl⟩
  exact ⟨_, ⟨contexts, objs, ⟨hrename.contexts, hrename.objs⟩, rfl⟩, rfl⟩

section
variable (hρ : Function.Injective ρ)
include hρ

theorem follows_internContext (c : Context) :
    Follows ρ (internContext c) (internContext (c.rename ρ)) s := by
  intro r s₁ hr
  rw [show (internContext c).apply s = (.ok ⟨(s.entities.contexts.intern c).1⟩,
    s.dress (s.entities.contexts.intern c).2 s.entities.objs) from rfl] at hr
  cases hr
  refine ⟨⟨Table.prefix_intern _ c, List.prefix_rfl⟩, ?_⟩
  rintro _ ⟨contexts, objs, hrename, rfl⟩
  obtain ⟨hplace, hlist⟩ := Table.intern_map (Context.rename_injective hρ) hrename.contexts c
  refine ⟨_, ⟨(contexts.intern (c.rename ρ)).2, objs, ⟨hlist, hrename.objs⟩, rfl⟩, ?_⟩
  rw [← hplace]
  rfl

theorem follows_internObj (i : ContextId) (o : ObjId) :
    Follows ρ (internObj i o) (internObj i (ρ o)) s := by
  intro r s₁ hr
  rw [show (internObj i o).apply s = (.ok ⟨(s.entities.objs.intern ⟨i, o⟩).1⟩,
    s.dress s.entities.contexts (s.entities.objs.intern ⟨i, o⟩).2) from rfl] at hr
  cases hr
  refine ⟨⟨List.prefix_rfl, Table.prefix_intern _ _⟩, ?_⟩
  rintro _ ⟨contexts, objs, hrename, rfl⟩
  obtain ⟨hplace, hlist⟩ := Table.intern_map (CSObj.rename_injective hρ) hrename.objs ⟨i, o⟩
  refine ⟨_, ⟨contexts, (objs.intern ⟨i, ρ o⟩).2, ⟨hrename.contexts, hlist⟩, rfl⟩, ?_⟩
  rw [← hplace]
  rfl

end

end

/-! ## Tasks that look the same -/

structure Selector.Mirrors (ρ : ObjId → ObjId) (sel sel' : Selector) : Prop where
  entry : sel'.entry = sel.entry.rename ρ
  static : ∀ c site m, sel'.static (c.rename ρ) site m = (sel.static c site m).rename ρ
  onObject : ∀ c site k o obj m,
    sel'.onObject (c.rename ρ) site (k.rename ρ) (ρ o) obj m = (sel.onObject c site k o obj m).rename ρ
  heap : ∀ c m obj, sel'.heap (c.rename ρ) m obj = (sel.heap c m obj).rename ρ

/-- From all that `t` reaches, `t'` looks the same, up to the numbers of objects. -/
structure Task.Mirrors (ρ : ObjId → ObjId) (t t' : Task) : Prop where
  injective : Function.Injective ρ
  selector : t.selector.Mirrors ρ t'.selector
  entry : t'.world.entry = t.world.entry
  callee : ∀ type call, t'.world.hierarchy.callee? type call = t.world.hierarchy.callee? type call
  signature : ∀ m, t'.world.program.signature? m = t.world.program.signature? m
  method : ∀ {f}, t.Derives (.reaches f) →
    t'.world.program.method? f.method = t.world.program.method? f.method
  objAt : ∀ {c site o}, t.Derives (.reaches ⟨c, site.method⟩) → t.world.heap.objAt? site = some o →
    t'.world.heap.objAt? site = some (ρ o)
  obj : ∀ {p o}, t.Derives (.points p o) → t'.world.heap.obj? (ρ o.obj) = t.world.heap.obj? o.obj
  staticField : ∀ {c site st ref}, t.Derives (.reaches ⟨c, site.method⟩) →
    t.world.program.stmt? site = some st → AccessIndex.staticRef? st = some ref →
    t'.index.staticField? site = t.index.staticField? site
  accesses : ∀ {c v o}, t.Derives (.points (.var c v) o) → t'.index.accessesOf v = t.index.accessesOf v

namespace Task.Mirrors
variable {ρ : ObjId → ObjId} {t t' : Task} (h : t.Mirrors ρ t') {s : State} {i : ContextId} {c : Context}
include h

theorem body {f : Frame} (hd : t.Derives (.reaches f)) :
    t'.world.program.body f.method = t.world.program.body f.method := by
  unfold Program.body
  rw [h.method hd]

theorem link_eq {f : Frame} (hd : t.Derives (.reaches f)) (edge : Edge CSCallSiteId CSMethodId)
    (caller : ContextId) (call : Call) (context : ContextId) :
    t'.link edge caller call context f.method = t.link edge caller call context f.method := by
  have hbind : t'.bindCall caller call context f.method = t.bindCall caller call context f.method := by
    unfold Task.bindCall
    rw [h.method hd, h.signature f.method]
  unfold Task.link
  rw [hbind]

theorem staticCall {caller : CSMethodId} {site : StmtId} {call : Call}
    (hi : s.entities.context? i = some c) (hr : t.Derives (.reaches ⟨c, site.method⟩))
    (hs : t.world.program.stmt? site = some (.invoke call)) (hk : call.isStatic = true) :
    Follows ρ (t.staticCall caller i site call) (t'.staticCall caller i site call) s := by
  obtain ⟨r, hc⟩ := t.world.hierarchy.callee?_static hk none
  refine .ofExcept hc ((h.callee none call).trans hc) ?_
  cases r with
  | none => exact follows_miss
  | some m =>
    have hd : t.Derives (.calls ⟨.static, ⟨c, site.method⟩, ⟨c, site⟩, ⟨t.selector.static c site m, m⟩⟩) :=
      .rule (.staticCall hr hs hk hc)
    refine follows_contextOf hi ?_
    rw [h.selector.static]
    refine (follows_internContext h.injective _).bind fun k s₁ _ _ => ?_
    refine .seq (blind_internMethod k m) fun callee s₂ _ _ => ?_
    refine .seq (blind_internSite i site) fun csSite s₃ _ _ => ?_
    rw [h.link_eq hd.callee]
    exact .of_blind (t.blind_link _ _ _ _ _)

theorem instanceCall (ht : t.Valid) {v : VarId} {j : CSObjId} {o : Instance} {site : StmtId}
    (hi : s.entities.context? i = some c) (hj : s.entities.objectOf? j = some o)
    (hp : t.Derives (.points (.var c v) o)) (hv : site ∈ (t.index.accessesOf v).calls) :
    Follows ρ (t.instanceCall i j site) (t'.instanceCall i j site) s := by
  obtain ⟨call, hs, hrec⟩ := (AccessIndex.mem_calls ht.index).mp hv
  have hs : t.world.program.stmt? site = some (.invoke call) := hs
  obtain ⟨method, hmethod, hbody⟩ := Program.method?_of_stmt? hs
  have hreach : t.Derives (.reaches ⟨c, site.method⟩) :=
    hp.reaches_of_used ht.world hs (by simp [Stmt.used, hrec])
  obtain ⟨_, obj, hobj⟩ := hp.grounded ht.world
  obtain ⟨r, hc⟩ := t.world.hierarchy.callee?_some obj.cls call
  obtain ⟨k, hrecord, hk⟩ := Entities.objectOf?_eq_some.mp hj
  unfold Task.instanceCall
  refine .known hmethod ((h.method hreach).trans hmethod) ?_
  rw [hbody]
  refine follows_object hrecord (.known hobj ((h.obj hp).trans hobj) ?_)
  refine .ofExcept hc ((h.callee _ call).trans hc) ?_
  cases r with
  | none => exact follows_miss
  | some m =>
    have hdisp : Dispatches t.world t.Derives c site call o obj m :=
      ⟨hreach, hs, ⟨v, hrec, hp⟩, hobj, hc⟩
    obtain ⟨target, htarget⟩ := callee_known ht.world hc
    refine follows_contextOf hi (follows_contextOf hk ?_)
    rw [show (CSObj.rename ρ ⟨k, o.obj⟩).obj = ρ o.obj from rfl, h.selector.onObject]
    refine (follows_internContext h.injective _).bind fun k s₁ _ _ => ?_
    refine .seq (blind_internMethod k m) fun callee s₂ _ _ => ?_
    cases hthis : target.thisVar with
    | none =>
      refine .of_known fun target' htarget' => ?_
      cases Option.some.inj (htarget.symm.trans htarget')
      rw [hthis]
      exact .of_known fun _ _ => .of_error rfl
    | some this =>
      have hd : t.Derives (.calls ⟨.ofCall call.kind, ⟨c, site.method⟩, ⟨c, site⟩,
          ⟨t.selector.onObject c site o.heap o.obj obj m, m⟩⟩) :=
        .rule (.instanceCall hdisp htarget hthis)
      refine .known htarget ((h.method hd.callee).trans htarget) ?_
      rw [hthis]
      refine .seq (blind_pointer _) fun this s₃ _ _ => ?_
      refine .seq (blind_push this _) fun _ s₄ _ _ => ?_
      refine .seq (blind_internMethod i site.method) fun caller s₅ _ _ => ?_
      refine .seq (blind_internSite i site) fun csSite s₆ _ _ => ?_
      rw [h.link_eq hd.callee]
      exact .of_blind (t.blind_link _ _ _ _ _)

theorem alloc {site : StmtId} {lhs : VarId} {cls : ClassId} (hi : s.entities.context? i = some c)
    (hr : t.Derives (.reaches ⟨c, site.method⟩))
    (hs : t.world.program.stmt? site = some (.alloc lhs cls)) :
    Follows ρ (t.alloc i site lhs) (t'.alloc i site lhs) s := by
  unfold Task.alloc
  cases ho : t.world.heap.objAt? site with
  | none => exact .of_error rfl
  | some o =>
    rw [h.objAt hr ho]
    dsimp only
    cases hobj : t.world.heap.obj? o with
    | none => exact .of_error rfl
    | some obj =>
      have hd : t.Derives (.points (.var c lhs) ⟨t.selector.heap c site.method obj, o⟩) :=
        .rule (.alloc hr hs ho hobj)
      refine .known rfl ((h.obj hd).trans hobj) (follows_contextOf hi ?_)
      rw [h.selector.heap]
      refine (follows_internContext h.injective _).bind fun k s₁ _ _ => ?_
      refine (follows_internObj h.injective k o).bind fun j s₂ _ _ => ?_
      refine .seq (blind_pointer _) fun target s₃ _ _ => ?_
      exact .of_blind (blind_push _ _)

theorem stmt {m : CSMethodId} {site : StmtId} {st : Stmt} (hi : s.entities.context? i = some c)
    (hr : t.Derives (.reaches ⟨c, site.method⟩)) (hs : t.world.program.stmt? site = some st) :
    Follows ρ (t.stmt m i site st) (t'.stmt m i site st) s := by
  have hfield : ∀ {ref}, AccessIndex.staticRef? st = some ref → t'.staticField site = t.staticField site := by
    intro ref href
    unfold Task.staticField
    rw [h.staticField hr hs href]
  have hblind := t.blind_staticField site
  cases st with
  | alloc lhs cls => exact h.alloc hi hr hs
  | copy lhs rhs => exact .of_blind (blind_flow _ _)
  | loadField lhs base ref =>
    cases base with
    | some b => exact .of_blind (blind_pure ())
    | none =>
      unfold Task.stmt
      dsimp only
      rw [hfield rfl]
      exact .of_blind (hblind.bind fun f => blind_flow _ _)
  | storeField base ref rhs =>
    cases base with
    | some b => exact .of_blind (blind_pure ())
    | none =>
      unfold Task.stmt
      dsimp only
      rw [hfield rfl]
      exact .of_blind (hblind.bind fun f => blind_flow _ _)
  | invoke call =>
    unfold Task.stmt
    dsimp only
    by_cases hk : call.isStatic = true
    · rw [if_pos hk, if_pos hk]
      exact h.staticCall hi hr hs hk
    · rw [if_neg hk, if_neg hk]
      by_cases hn : call.receiver.isNone = true
      · rw [if_pos hn]
        exact follows_miss
      · rw [if_neg hn]
        exact .of_blind (blind_pure ())
  | loadArray lhs base => exact .of_blind (blind_pure ())
  | storeArray base rhs => exact .of_blind (blind_pure ())
  | ret value => exact .of_blind (blind_pure ())
  | nop => exact .of_blind (blind_pure ())

theorem enter {m : CSMethodId} {f : Frame} (hm : s.entities.frameOf? m = some f)
    (hr : t.Derives (.reaches f)) : Follows ρ (t.enter m) (t'.enter m) s := by
  obtain ⟨i, hrecord, hi⟩ := Entities.frameOf?_eq_some.mp hm
  refine .peek (g := fun s => s.entities.method? m) (fun _ _ _ => rfl) fun record hm => ?_
  cases Option.some.inj (hrecord.symm.trans hm)
  rw [h.body hr, h.method hr]
  refine .seq (blind_known _) fun _ s₁ _ hkeep => ?_
  refine .forM _ fun x hx s₂ hkeep' => ?_
  obtain ⟨site, st⟩ := x
  obtain ⟨hsite, hs⟩ := Program.mem_body.mp hx
  have hf : f = ⟨f.context, site.method⟩ := by rw [hsite]
  exact h.stmt ((hkeep.trans hkeep').context hi) (hf ▸ hr) hs

theorem learn (ht : t.Valid) {v : VarId} {j : CSObjId} {o : Instance} (hi : s.entities.context? i = some c)
    (hj : s.entities.objectOf? j = some o) (hp : t.Derives (.points (.var c v) o)) :
    Follows ρ (t.learn i v j) (t'.learn i v j) s := by
  rw [Task.learn_eq, Task.learn_eq, h.accesses hp]
  refine .seq (blind_accesses i _ j) fun _ s₁ _ hkeep => ?_
  refine .forM _ fun site hsite s₂ hkeep' => ?_
  have hkeep := hkeep.trans hkeep'
  exact h.instanceCall ht (hkeep.context hi) (hkeep.object hj) hp hsite

theorem couples (ht : t.Valid) (hlimit : t.limit ≤ t'.limit) : t.Couples (Dressed ρ) t' where
  limit := hlimit
  enter := h.enter
  learn := h.learn ht
  launched := by
    rintro s _ ⟨contexts, objs, hrename, rfl⟩
    obtain ⟨hplace, hlist⟩ := Table.intern_map (Context.rename_injective h.injective) hrename.contexts
      t.selector.entry
    refine ⟨(contexts.intern (t.selector.entry.rename ρ)).2, objs, ⟨hlist, hrename.objs⟩, ?_⟩
    unfold State.launched State.dress Entities.internContext
    dsimp only
    rw [h.selector.entry, h.entry, hplace]
    rfl

theorem solve (ht : t.Valid) (hlimit : t.limit ≤ t'.limit) {order : Order} (hs : t.solve order = .ok s) :
    ∃ contexts objs, Renames ρ s contexts objs ∧ t'.solve order = .ok (s.dress contexts objs) := by
  obtain ⟨_, ⟨contexts, objs, hrename, rfl⟩, hs'⟩ :=
    (h.couples ht hlimit).solve ht ⟨_, _, renames_initial ρ order, rfl⟩ hs
  exact ⟨contexts, objs, hrename, hs'⟩

end Task.Mirrors

/-! ## Limits -/

theorem Context.rename_id (c : Context) : c.rename id = c := by
  have hid : Element.rename id = id := by
    funext e
    cases e <;> rfl
  unfold rename map
  rw [hid, List.map_id]

namespace Task

def withLimit (t : Task) (limit : Nat) : Task := { t with limit }

theorem mirrors_withLimit (t : Task) (limit : Nat) : t.Mirrors id (t.withLimit limit) := by
  constructor
  case injective => exact Function.injective_id
  case selector => constructor <;> simp [Context.rename_id, withLimit]
  case objAt => exact fun _ ho => ho
  all_goals intros; rfl

theorem Mirrors.withLimit {ρ : ObjId → ObjId} {t t' : Task} (h : t.Mirrors ρ t') (limit : Nat) :
    t.Mirrors ρ (t'.withLimit limit) := { h with }

end Task

theorem Renames.of_dress {ρ : ObjId → ObjId} {s s' : State} {contexts contexts' : Table Context}
    {objs objs' : Table CSObj} (h : Renames ρ s contexts objs) (h' : Renames id s' contexts' objs')
    (heq : s.dress contexts objs = s'.dress contexts' objs') :
    Renames ρ s s'.entities.contexts s'.entities.objs ∧
      s' = s.dress s'.entities.contexts s'.entities.objs := by
  have hcontexts : contexts = contexts' := congrArg (·.entities.contexts) heq
  have hobjs : objs = objs' := congrArg (·.entities.objs) heq
  have hid : (CSObj.rename id) = id := rfl
  refine ⟨⟨?_, ?_⟩, ?_⟩
  · rw [← h.contexts, hcontexts, h'.contexts, funext Context.rename_id, List.map_id']
  · rw [← h.objs, hobjs, h'.objs, hid, List.map_id]
  · exact (congrArg (·.dress s'.entities.contexts s'.entities.objs) heq).symm

/-- **Lockstep.** Where one task succeeds, a task that looks the same and has turns enough succeeds,
with the same handles. -/
theorem Task.Mirrors.solve_of_ample {ρ : ObjId → ObjId} {t t' : Task} (h : t.Mirrors ρ t') (ht : t.Valid)
    {X : Nat} (ht' : t'.Ample X) {order : Order} {s : State} (hs : t.solve order = .ok s) :
    ∃ contexts objs, Renames ρ s contexts objs ∧ t'.solve order = .ok (s.dress contexts objs) := by
  let limit := max t.limit t'.limit
  obtain ⟨contexts, objs, hrename, hs₁⟩ := (h.withLimit limit).solve ht (Nat.le_max_left _ _) hs
  have hvalid : (t'.withLimit limit).Valid := ⟨ht'.valid.world, ht'.valid.index⟩
  have hfinal := Task.final_of_solve hvalid hs₁
  obtain ⟨s', hs'⟩ := (ht'.solve_ok_iff order).mpr (hfinal.no_fault hvalid)
  obtain ⟨contexts', objs', hrename', hs₂⟩ :=
    (t'.mirrors_withLimit limit).solve ht'.valid (Nat.le_max_right _ _) hs'
  obtain ⟨hrename, heq⟩ := hrename.of_dress hrename' (Except.ok.inj (hs₁.symm.trans hs₂))
  exact ⟨_, _, hrename, heq ▸ hs'⟩

end PointsTo
