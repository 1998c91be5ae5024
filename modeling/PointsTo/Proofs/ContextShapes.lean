import PointsTo.Proofs.Unreached

/-!
# The shape of contexts

How long the contexts of methods and of objects get, what they are made of, and
where the context of an object comes from, in every state that an analysis
passes through.
-/

namespace PointsTo

/-! ## What a context may hold -/

inductive Element.Fits (w : World) : SelectorKind → Element → Prop
  | callSite {site : StmtId} {call : Call} :
      w.program.stmt? site = some (.invoke call) → Fits w .callSite (.callSite site)
  | object {o : ObjId} {obj : Obj} : w.heap.obj? o = some obj → Fits w .object (.object o)
  /-- A class that declares a method with an allocation. -/
  | type {site : StmtId} {lhs : VarId} {cls : ClassId} {method : Method} :
      w.program.stmt? site = some (.alloc lhs cls) → w.program.method? site.method = some method →
      Fits w .type (.type method.cls)
  | staticCall {site : StmtId} {call : Call} : w.program.stmt? site = some (.invoke call) →
      call.isStatic = true → Fits w .hybrid (.callSite site)
  | receiver {o : ObjId} {obj : Obj} : w.heap.obj? o = some obj → Fits w .hybrid (.object o)

namespace Context

structure Fits (w : World) (kind : SelectorKind) (n : Nat) (c : Context) : Prop where
  length : c.length ≤ n
  elements : ∀ e ∈ c.elems, e.Fits w kind

variable {w : World} {kind : SelectorKind} {n : Nat} {c : Context}

theorem fits_empty (w : World) (kind : SelectorKind) (n : Nat) : empty.Fits w kind n :=
  ⟨Nat.zero_le n, by simp [empty]⟩

theorem Fits.suffix (h : c.Fits w kind n) (k : Nat) : (c.suffix k).Fits w kind k :=
  ⟨c.length_suffix_le k, fun e he => h.elements e (mem_of_mem_suffix he)⟩

theorem Fits.append (h : c.Fits w kind n) {e : Element} (he : e.Fits w kind) (k : Nat) :
    (c.append e k).Fits w kind k where
  length := c.length_append_le e k
  elements x hx := by
    rcases mem_of_mem_append hx with hx | rfl
    · exact h.elements x hx
    · exact he

end Context

namespace Sensitivity

def frameDepth (sens : Sensitivity) : Nat :=
  match sens.kind with
  | .insensitive => 0
  | _ => sens.depth

def heapDepth (sens : Sensitivity) : Nat :=
  match sens.kind with
  | .insensitive | .callSite => 0
  | _ => sens.depth - 1

end Sensitivity

theorem Element.fits_container {w : World} (hheap : w.heap = .perSite w.program) {o : ObjId} {obj : Obj}
    (ho : w.heap.obj? o = some obj) : (Element.type obj.container).Fits w .type := by
  rw [hheap] at ho
  obtain ⟨lhs, method, hs, hm, hc⟩ := Heap.mem_allocations.mp (Heap.mem_allocations_of_obj? ho)
  rw [← hc]
  exact .type hs hm

theorem Selector.confines_ofSensitivity {w : World} (hheap : w.heap = .perSite w.program)
    (sens : Sensitivity) : (ofSensitivity sens).Confines w (Context.Fits w sens.kind sens.frameDepth)
      (Context.Fits w sens.kind sens.heapDepth) := by
  obtain ⟨kind, k⟩ := sens
  have hempty := Context.fits_empty w kind
  cases kind with
  | insensitive => constructor <;> intros <;> exact hempty _
  | callSite =>
    exact ⟨hempty _, fun _ _ _ _ hc hs _ => hc.append (.callSite hs) k,
      fun _ _ _ _ _ _ _ hc _ hs _ => hc.append (.callSite hs) k, fun _ _ _ _ _ _ => hempty _⟩
  | object =>
    exact ⟨hempty _, fun _ _ _ _ hc _ _ => hc,
      fun _ _ _ _ _ _ _ _ hh _ ho => hh.append (.object ho) k, fun _ _ _ _ hc _ => hc.suffix (k - 1)⟩
  | type =>
    exact ⟨hempty _, fun _ _ _ _ hc _ _ => hc,
      fun _ _ _ _ _ _ _ _ hh _ ho => hh.append (Element.fits_container hheap ho) k,
      fun _ _ _ _ hc _ => hc.suffix (k - 1)⟩
  | hybrid =>
    exact ⟨hempty _, fun _ _ _ _ hc hs hk => hc.append (.staticCall hs hk) k,
      fun _ _ _ _ _ _ _ _ hh _ ho => hh.append (.receiver ho) k, fun _ _ _ _ hc _ => hc.suffix (k - 1)⟩

/-! ## Where objects come from -/

def State.Sited (t : Task) (s : State) : Prop :=
  ∀ x ∈ s.entities.objs.toList, ∃ c, s.entities.context? x.heap = some c ∧ s.Makes t ⟨c, x.obj⟩

section
variable {t : Task} {s s' : State}

theorem State.sited_initial (t : Task) (order : Order) : (initial order).Sited t := fun _ hx => by cases hx

theorem State.Sited.mono (h : s.Sited t) (hext : s.entities.Extends s'.entities)
    (hobjs : s'.entities.objs = s.entities.objs) (hreach : ∀ m, s.Reaches m → s'.Reaches m) : s'.Sited t := by
  intro x hx
  rw [hobjs] at hx
  obtain ⟨c, hc, k, site, obj, hmade, hr⟩ := h x hx
  exact ⟨c, hext.context hc, k, site, obj, hmade, hreach _ hr⟩

theorem Entities.objs_internPointer (e : Entities) (a : Pointer) : (e.internPointer a).2.objs = e.objs := by
  unfold internPointer
  dsimp only
  split <;> rfl

theorem Move.sited (m : Move t s s') (h : s.Sited t) : s'.Sited t := by
  have hg := m.grows
  have hreach : ∀ m, s.Reaches m → s'.Reaches m := fun _ => hg.reaches
  cases m with
  | @object i x p hi hd hmade =>
    intro y hy
    obtain ⟨k, site, obj, hmade, hr⟩ := hmade
    rcases Table.mem_intern.mp hy with hy | rfl
    · obtain ⟨c, hc, k', site', obj', hmade', hr'⟩ := h y hy
      exact ⟨c, hg.entities.context hc, k', site', obj', hmade', hreach _ hr'⟩
    · exact ⟨x.heap, hg.entities.context hi, k, site, obj, hmade, hreach _ hr⟩
  | pointer _ _ => exact h.mono hg.entities (Entities.objs_internPointer _ _) hreach
  | _ => exact h.mono hg.entities rfl hreach

theorem Path.sited (h : Path t s s') (hs : s.Sited t) : s'.Sited t := by
  induction h with
  | refl => exact hs
  | tail _ m ih => exact m.sited ih

theorem Change.sited (h : Change t s s') (hs : s.Sited t) : s'.Sited t := by
  cases h with
  | move m => exact m.sited hs
  | absorb _ =>
    refine hs.mono Entities.extends_extend rfl fun m hm => ?_
    obtain ⟨i, hi, hm⟩ := hm
    exact ⟨i, hi, Entities.extends_extend.frame hm⟩
  | reach _ =>
    refine hs.mono (.refl _) rfl fun m hm => ?_
    obtain ⟨i, hi, hm⟩ := hm
    exact ⟨i, State.mem_admitted.mpr (Or.inl hi), hm⟩
  | launch _ => exact (Path.launched t s).sited hs

theorem Evolves.sited (h : Evolves t s s') (hs : s.Sited t) : s'.Sited t := by
  induction h with
  | refl => exact hs
  | tail _ c ih => exact c.sited ih

end

/-! ## In every state -/

section
variable {w : World} {sel : Selector} {F H : Context → Prop} (hsel : sel.Confines w F H)
include hsel

theorem Allocates.confined {c : Context} {site : StmtId} {o : Instance} {obj : Obj}
    (h : Allocates w sel c site o obj) : H o.heap := by
  rw [h.heap]
  exact hsel.heap _ _ _ _ (h.reached.confined hsel) h.object

theorem Derives.site_confined (hw : w.Valid) {e : Link} (d : Derives w sel (.calls e)) :
    F e.site.context := by
  have hg := d.grounded hw
  rw [hg.site]
  exact hg.caller.confined hsel

end

/-- The contexts that a state has are as its sensitivity says, and the context of an object is the one
that a reached method chooses where it allocates it. -/
structure State.ContextsFit (w : World) (sens : Sensitivity) (s : State) : Prop where
  vars : ∀ i v, Pointer.var i v ∈ s.entities.pointers.toList →
    ∃ c, s.entities.context? i = some c ∧ c.Fits w sens.kind sens.frameDepth
  methods : ∀ x ∈ s.entities.methods.toList,
    ∃ c, s.entities.context? x.context = some c ∧ c.Fits w sens.kind sens.frameDepth
  sites : ∀ x ∈ s.entities.sites.toList,
    ∃ c, s.entities.context? x.context = some c ∧ c.Fits w sens.kind sens.frameDepth
  objects : ∀ x ∈ s.entities.objs.toList,
    ∃ k, s.entities.context? x.heap = some k ∧ k.Fits w sens.kind sens.heapDepth ∧
      ∃ c obj, w.heap.obj? x.obj = some obj ∧ s.Reaches ⟨c, obj.site.method⟩ ∧
        k = (Selector.ofSensitivity sens).heap c obj.site.method obj

/-- **Contexts are bounded, of one kind and justified.** This holds however many starts and steps an
analysis has seen, with any sensitivity, and also if some of them failed. -/
theorem contexts_fit {p : Program} {w : World} {sens : Sensitivity} {t : Task} {order : Order} {s : State}
    (hw : World.ofProgram p = .ok w) (ht : Task.ofSensitivity w sens = .ok t) (hs : Reached t order s) :
    s.ContextsFit w sens := by
  have hper := World.perSite_of_ofProgram hw
  have hvalid := Task.valid_of_new ht hper.toValid
  obtain ⟨rfl, hsel, _⟩ := Task.new_eq ht
  have hentities := (hs.invariant hvalid).justified.entities
  have hsited := (hs.evolves hvalid).sited (State.sited_initial t order)
  have hconfines := Selector.confines_ofSensitivity hper.heap sens
  rw [← hsel] at hconfines
  constructor
  case vars =>
    intro i v hx
    obtain ⟨cell, hcell, hoccurs⟩ := hentities.pointers _ hx
    obtain ⟨c, hc, rfl⟩ := Option.map_eq_some_iff.mp hcell
    obtain ⟨m, _, hr⟩ := hoccurs.grounded hvalid
    exact ⟨c, hc, hr.confined hconfines⟩
  case methods =>
    intro x hx
    obtain ⟨c, hc, hframe⟩ := hentities.methods x hx
    exact ⟨c, hc, hframe.confined hconfines⟩
  case sites =>
    intro x hx
    obtain ⟨c, hc, e, hd, hsite⟩ := hentities.sites x hx
    have hfits := hd.site_confined hconfines hper.toValid
    rw [hsite] at hfits
    exact ⟨c, hc, hfits⟩
  case objects =>
    intro x hx
    obtain ⟨k, hk, c, site, obj, hmade, hr⟩ := hsited x hx
    cases hmade.site_eq hper.heap
    exact ⟨k, hk, hmade.confined hconfines, c, obj, hmade.object, hr, hsel ▸ hmade.heap⟩

/-- The square is drawn under the class that has made it. -/
theorem contexts_fit_shapes : ∃ t s, Task.ofSensitivity (Shapes.world 1) ⟨.type, 1⟩ = .ok t ∧
    t.solve .lifo = .ok s ∧ s.Reaches ⟨⟨[.type ⟨0⟩]⟩, ⟨2⟩⟩ ∧ s.ContextsFit (Shapes.world 1) ⟨.type, 1⟩ := by
  obtain ⟨r, hr⟩ := Shapes.exists_outcome 1 ⟨.insensitive, .lifo, false⟩ ⟨.type, 1⟩
  obtain ⟨t, s, ht, hs, _⟩ := analyzeWith_ok hr
  refine ⟨t, s, ht, hs, ?_, contexts_fit (Shapes.world_eq 1) ht (Task.reached_of_solve hs)⟩
  have hvalid := Task.valid_of_new ht (World.valid_of_withHeap (Shapes.world_eq 1))
  refine ((Task.final_of_solve hvalid hs).has_iff hvalid (.reaches _)).mpr ?_
  obtain ⟨hworld, hsel, _⟩ := Task.new_eq ht
  unfold Task.Derives
  rw [hworld, hsel]
  obtain ⟨o, obj, hd⟩ := Shapes.dispatches_draw 1 (.type 1)
  have hcontext : (Selector.type 1).onObject .empty ⟨⟨0⟩, 1⟩ o.heap o.obj obj ⟨2⟩ = ⟨[.type ⟨0⟩]⟩ := by
    rw [Shapes.object_eq hd.object]
    show o.heap.append (.type ⟨0⟩) 1 = _
    simp [Context.append, Context.suffix_zero, Context.empty]
  have hcall : Derives (Shapes.world 1) (.type 1) _ := .rule (.instanceCall hd rfl rfl)
  rw [← hcontext]
  exact hcall.callee

end PointsTo
