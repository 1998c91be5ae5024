import PointsTo.Proofs.Success

/-!
# Soundness

At the end of a successful run every statement of every reachable method has
had its effect, under every context in which the method is reached.
-/

namespace PointsTo

def State.Includes (s : State) (q p : Cell) : Prop := ∀ o, s.Points p o → s.Points q o

/-- What the statements of the reachable methods ask of a state. -/
structure State.Sound (w : World) (sel : Selector) (s : State) : Prop where
  entry : s.Reaches ⟨.empty, w.entry⟩
  alloc : ∀ c site lhs cls, s.Reaches ⟨c, site.method⟩ →
    w.program.stmt? site = some (.alloc lhs cls) → ∃ o obj, w.heap.objAt? site = some o ∧
      w.heap.obj? o = some obj ∧ s.Points (.var c lhs) ⟨sel.heap c site.method obj, o⟩
  copy : ∀ c site lhs rhs, s.Reaches ⟨c, site.method⟩ →
    w.program.stmt? site = some (.copy lhs rhs) → s.Includes (.var c lhs) (.var c rhs)
  loadStatic : ∀ c site lhs ref, s.Reaches ⟨c, site.method⟩ →
    w.program.stmt? site = some (.loadField lhs none ref) →
      ∃ f, w.hierarchy.resolveField ref = .ok f ∧ s.Includes (.var c lhs) (.staticField f)
  storeStatic : ∀ c site ref rhs, s.Reaches ⟨c, site.method⟩ →
    w.program.stmt? site = some (.storeField none ref rhs) →
      ∃ f, w.hierarchy.resolveField ref = .ok f ∧ s.Includes (.staticField f) (.var c rhs)
  loadField : ∀ c site lhs base ref, s.Reaches ⟨c, site.method⟩ →
    w.program.stmt? site = some (.loadField lhs (some base) ref) →
      ∃ f, w.hierarchy.resolveField ref = .ok f ∧
        ∀ o, s.Points (.var c base) o → s.Includes (.var c lhs) (.instanceField o f)
  storeField : ∀ c site base ref rhs, s.Reaches ⟨c, site.method⟩ →
    w.program.stmt? site = some (.storeField (some base) ref rhs) →
      ∃ f, w.hierarchy.resolveField ref = .ok f ∧
        ∀ o, s.Points (.var c base) o → s.Includes (.instanceField o f) (.var c rhs)
  loadArray : ∀ c site lhs base, s.Reaches ⟨c, site.method⟩ →
    w.program.stmt? site = some (.loadArray lhs base) →
      ∀ o, s.Points (.var c base) o → s.Includes (.var c lhs) (.arrayIndex o)
  storeArray : ∀ c site base rhs, s.Reaches ⟨c, site.method⟩ →
    w.program.stmt? site = some (.storeArray base rhs) →
      ∀ o, s.Points (.var c base) o → s.Includes (.arrayIndex o) (.var c rhs)
  staticCall : ∀ c site call m, s.Reaches ⟨c, site.method⟩ →
    w.program.stmt? site = some (.invoke call) → call.isStatic = true →
      w.hierarchy.callee? none call = .ok (some m) →
        s.Calls ⟨.static, ⟨c, site.method⟩, ⟨c, site⟩, ⟨sel.static c site m, m⟩⟩
  instanceCall : ∀ c site call r o obj m, s.Reaches ⟨c, site.method⟩ →
    w.program.stmt? site = some (.invoke call) → call.receiver = some r → s.Points (.var c r) o →
      w.heap.obj? o.obj = some obj → w.hierarchy.callee? (some obj.cls) call = .ok (some m) →
        ∃ method this, w.program.method? m = some method ∧ method.thisVar = some this ∧
          s.Points (.var (sel.onObject c site o.heap o.obj obj m) this) o ∧
          s.Calls ⟨.ofCall call.kind, ⟨c, site.method⟩, ⟨c, site⟩,
            ⟨sel.onObject c site o.heap o.obj obj m, m⟩⟩
  /-- Behind each call edge the callee is reachable and bound. -/
  callee : ∀ e, s.Calls e → s.Reaches e.callee ∧ ∃ call method,
    w.program.stmt? e.site.stmt = some (.invoke call) ∧
    w.program.method? e.callee.method = some method ∧ call.args.length = method.params.length ∧
    (∀ x ∈ call.args.zip method.params,
      s.Includes (.var e.callee.context x.2) (.var e.caller.context x.1)) ∧
    ∀ r, call.result = some r → ∀ v ∈ method.returnVars,
      s.Includes (.var e.caller.context r) (.var e.callee.context v)
  /-- No handle of the state is without contents. -/
  decodes : (∀ i, ∀ j ∈ s.entities.pointsTo i, ∃ p o, s.entities.cellOf? i = some p ∧
      s.entities.objectOf? j = some o) ∧
    (∀ i ∈ s.calls.reachable.toList, ∃ m, s.entities.frameOf? i = some m) ∧
    ∀ i ∈ s.calls.edges.toList, ∃ e, s.entities.linkOf? i = some e

section
variable {t : Task} {s : State}

theorem State.Final.includes (h : s.Final t) (ht : t.Valid) {p q : Cell} (hf : s.Has (.flows p q)) :
    s.Includes q p := fun _ ho => h.closed ht _ (.flow hf ho)

theorem State.Final.sound (h : s.Final t) (ht : t.Valid) (he : t.selector.entry = .empty) :
    s.Sound t.world t.selector := by
  have hc := h.closed ht
  constructor
  case entry => exact he ▸ hc _ .entry
  case alloc => exact fun c site lhs cls hr hs => h.stmtDone hr hs
  case copy => exact fun c site lhs rhs hr hs => h.includes ht (hc _ (.copy hr hs))
  case loadStatic =>
    intro c site lhs ref hr hs
    obtain ⟨f, hf, hflow⟩ := h.stmtDone hr hs
    exact ⟨f, hf, h.includes ht hflow⟩
  case storeStatic =>
    intro c site ref rhs hr hs
    obtain ⟨f, hf, hflow⟩ := h.stmtDone hr hs
    exact ⟨f, hf, h.includes ht hflow⟩
  case loadField =>
    intro c site lhs base ref hr hs
    obtain ⟨f, hf⟩ := AccessIndex.resolve_of_load ht.index hs
    have hf := AccessIndex.resolve_ok hf
    exact ⟨f, hf, fun o ho => h.includes ht (hc _ (.loadField hr hs hf ho))⟩
  case storeField =>
    intro c site base ref rhs hr hs
    obtain ⟨f, hf⟩ := AccessIndex.resolve_of_store ht.index hs
    have hf := AccessIndex.resolve_ok hf
    exact ⟨f, hf, fun o ho => h.includes ht (hc _ (.storeField hr hs hf ho))⟩
  case loadArray =>
    exact fun c site lhs base hr hs o ho => h.includes ht (hc _ (.loadArray hr hs ho))
  case storeArray =>
    exact fun c site base rhs hr hs o ho => h.includes ht (hc _ (.storeArray hr hs ho))
  case staticCall => exact fun c site call m hr hs hk hm => hc _ (.staticCall hr hs hk hm)
  case instanceCall =>
    intro c site call r o obj m hr hs hrec hp ho hm
    exact h.callDone ht ⟨hr, hs, ⟨r, hrec, hp⟩, ho, hm⟩
  case callee =>
    intro e he
    obtain ⟨call, method, hj, hn, hargs, hresult⟩ := h.bound he
    refine ⟨hc _ (.callee he), call, method, hj.stmt, hj.callee, hn, ?_, ?_⟩
    · exact fun x hx => h.includes ht (hargs x hx)
    · exact fun r hr v hv => h.includes ht ((hresult r hr).2 v hv)
  case decodes =>
    have hj := h.invariant.justified
    refine ⟨fun i j hij => ?_, fun i hi => ?_, fun i hi => ?_⟩
    · obtain ⟨p, o, hp, ho, _⟩ := hj.points i j hij
      exact ⟨p, o, hp, ho⟩
    · exact (hj.reachable i hi).imp fun _ hm => hm.1
    · exact (hj.calls i hi).imp fun _ he => he.1

end

/-- **Soundness.** Whatever the sensitivity and the order, a run that succeeds has applied every
rule of the analysis. -/
theorem solve_sound {p : Program} {heap : Heap} {w : World} {sens : Sensitivity} {limit : Nat} {t : Task}
    {order : Order} {s : State} (hw : World.withHeap p heap = .ok w)
    (ht : Task.new w (.ofSensitivity sens) limit = .ok t) (hs : t.solve order = .ok s) :
    s.Sound w (.ofSensitivity sens) := by
  have hvalid := Task.valid_of_new ht (World.valid_of_withHeap hw)
  obtain ⟨rfl, hsel, _, _⟩ := Task.new_eq ht
  rw [← hsel]
  refine (Task.final_of_solve hvalid hs).sound hvalid ?_
  rw [hsel]; exact Selector.entry_ofSensitivity sens

/-- The boxes, two objects deep. -/
theorem solve_sound_sample : ∃ t s, Task.ofSensitivity Sample.world ⟨.object, 2⟩ = .ok t ∧
    t.solve .lifo = .ok s ∧ s.Sound Sample.world (.ofSensitivity ⟨.object, 2⟩) := by
  obtain ⟨t, ht, hsolve⟩ := Sample.exists_solution ⟨.object, 2⟩
  obtain ⟨s, hs⟩ := hsolve .lifo
  exact ⟨t, s, ht, hs, solve_sound Sample.world_eq ht hs⟩

end PointsTo
