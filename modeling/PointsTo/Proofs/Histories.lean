import PointsTo.Proofs.Connectivity
import PointsTo.Proofs.Coverage
import PointsTo.Proofs.Refinement

/-!
# Contexts as histories

Under contexts of objects a method sees one receiver for each of its contexts:
the object at the end of the context, allocated under the rest of it. Under
contexts of calls a context is the end of a call string.
-/

namespace PointsTo

section
variable {w : World} {sel : Selector}

/-- What is true of each new heap context is true of all. -/
theorem Derives.heap_context {Q : Context → Prop} (h : ∀ c m obj, Q (sel.heap c m obj)) {p : Cell}
    {o : Instance} (d : Derives w sel (.points p o)) : Q o.heap := by
  obtain ⟨c, site, obj, hmade⟩ := d.allocated
  rw [hmade.heap]
  exact h c site.method obj

/-! ## Receivers -/

structure Program.Receives (p : Program) (m : MethodId) (this : VarId) : Prop where
  method : ∃ method, p.method? m = some method ∧ method.thisVar = some this ∧ this ∉ method.params
  kept : ∀ x ∈ p.body m, x.2.defined ≠ some this

namespace Program.Receives
variable {m : MethodId} {this : VarId} (hw : w.Valid) (h : w.program.Receives m this)
include hw h

theorem owner : w.program.owner? this = some m := by
  obtain ⟨method, hm, hthis, _⟩ := h.method
  exact Program.owner_of_this hw.check hm hthis

theorem not_defined {site : StmtId} {st : Stmt} (hs : w.program.stmt? site = some st) :
    st.defined ≠ some this := by
  intro hdef
  have howner := Program.owner_of_defined hw.check hs hdef
  cases Option.some.inj ((h.owner hw).symm.trans howner)
  exact h.kept (site, st) (Program.mem_body.mpr ⟨rfl, hs⟩) hdef

theorem not_flows {p : Cell} {c : Context} : ¬ Derives w sel (.flows p (.var c this)) := by
  intro hd
  cases hd.cases with
  | copy _ hs | loadStatic _ hs _ | loadField _ hs _ _ | loadArray _ hs _ =>
    exact h.not_defined hw hs rfl
  | arg _ hj _ hzip =>
    obtain ⟨method, hm, _, hparams⟩ := h.method
    have hparam := (List.of_mem_zip hzip).2
    have howner := Program.owner_of_param hw.check hj.callee hparam
    rw [h.owner hw] at howner
    have hcallee := hj.callee
    rw [← Option.some.inj howner, hm] at hcallee
    cases hcallee
    exact hparams hparam
  | result _ hj _ hr _ => exact h.not_defined hw hj.stmt hr

/-- The receiver is there by calls alone. -/
theorem dispatched {c : Context} {o : Instance} (hd : Derives w sel (.points (.var c this) o)) :
    ∃ c' site obj, c = sel.onObject c' site o.heap o.obj obj m := by
  cases hd.cases with
  | alloc _ hs _ _ => exact absurd rfl (h.not_defined hw hs)
  | this d hm hthis =>
    have howner := Program.owner_of_this hw.check hm hthis
    cases Option.some.inj ((h.owner hw).symm.trans howner)
    exact ⟨_, _, _, rfl⟩
  | flow hf _ => exact absurd hf (h.not_flows hw)

end Program.Receives

/-- A method is analysed per receiver, behind at most `k` elements of the context that it was
allocated under. -/
structure Selector.PerReceiver (k : Nat) (sel : Selector) : Prop where
  onObject : ∀ c site heap o obj m, sel.onObject c site heap o obj m = heap.append (.object o) (k + 1)
  heap : ∀ c m obj, sel.heap c m obj = c.suffix k

theorem Context.append_of_length_le {c : Context} {k : Nat} (h : c.length ≤ k) (e : Element) :
    c.append e (k + 1) = ⟨c.elems ++ [e]⟩ := by
  have hc : c.suffix k = c := by
    unfold suffix
    rw [Nat.sub_eq_zero_of_le h, List.drop_zero]
  show (⟨(c.suffix k).elems ++ [e]⟩ : Context) = _
  rw [hc]

/-- Heap contexts are short, so none of their elements is lost. -/
theorem Selector.PerReceiver.context_eq {k : Nat} (hsel : sel.PerReceiver k) (hw : w.Valid) {m : MethodId}
    {this : VarId} (h : w.program.Receives m this) {c : Context} {o : Instance}
    (hd : Derives w sel (.points (.var c this) o)) : c = ⟨o.heap.elems ++ [.object o.obj]⟩ := by
  have hshort : o.heap.length ≤ k := by
    refine hd.heap_context (Q := fun c => c.length ≤ k) fun c m obj => ?_
    rw [hsel.heap]
    exact c.length_suffix_le k
  obtain ⟨c', site, obj, rfl⟩ := h.dispatched hw hd
  rw [hsel.onObject, Context.append_of_length_le hshort]

end

theorem Selector.perReceiver_ofSensitivity {sens : Sensitivity}
    (hkind : sens.kind = .object ∨ sens.kind = .hybrid) (hdepth : 1 ≤ sens.depth) :
    (ofSensitivity sens).PerReceiver (sens.depth - 1) := by
  obtain ⟨kind, n⟩ := sens
  match n, hdepth, hkind with
  | n + 1, _, .inl hkind => cases hkind; exact ⟨fun _ _ _ _ _ _ => rfl, fun _ _ _ => rfl⟩
  | n + 1, _, .inr hkind => cases hkind; exact ⟨fun _ _ _ _ _ _ => rfl, fun _ _ _ => rfl⟩

/-- The context that a receiver makes tells which receiver it was. -/
theorem Instance.eq_of_context {o o' : Instance}
    (h : (⟨o.heap.elems ++ [.object o.obj]⟩ : Context) = ⟨o'.heap.elems ++ [.object o'.obj]⟩) : o = o' := by
  obtain ⟨⟨l⟩, x⟩ := o
  obtain ⟨⟨l'⟩, x'⟩ := o'
  simpa using h

theorem ObjSet.size_le_one {set : ObjSet} (h : ∀ i ∈ set, ∀ j ∈ set, i = j) : set.size ≤ 1 := by
  obtain ⟨l, hl⟩ := set
  match l, hl with
  | [], _ => exact Nat.zero_le 1
  | [_], _ => exact Nat.le_refl 1
  | i :: j :: l, hl =>
    have hij : i = j := h i List.mem_cons_self j (List.mem_cons_of_mem _ List.mem_cons_self)
    have hlt := (List.pairwise_cons.mp hl).1 j List.mem_cons_self
    rw [hij] at hlt
    exact absurd hlt (Nat.lt_irrefl _)

/-- **Receiver separation.** With objects as contexts, alone or with the sites of static calls, a method
sees one receiver under each context, in every state of every run: the last element of the context is
the receiver, and the others are its heap context. -/
theorem receivers_separate {p : Program} {heap : Heap} {w : World} {sens : Sensitivity} {limit : Nat}
    {t : Task} {order : Order} {s : State} (hw : World.withHeap p heap = .ok w)
    (hkind : sens.kind = .object ∨ sens.kind = .hybrid) (hdepth : 1 ≤ sens.depth)
    (ht : Task.new w (.ofSensitivity sens) limit = .ok t) (hs : Reached t order s) {m : MethodId}
    {this : VarId} (hthis : w.program.Receives m this) {i : PointerId} {k : ContextId}
    (hi : s.entities.pointer? i = some (.var k this)) :
    ∃ c, s.entities.context? k = some c ∧ (s.entities.pointsTo i).size ≤ 1 ∧
      ∀ j ∈ s.entities.pointsTo i, ∃ o, s.entities.objectOf? j = some o ∧
        c = ⟨o.heap.elems ++ [.object o.obj]⟩ := by
  have hvalid := World.valid_of_withHeap hw
  have htvalid := Task.valid_of_new ht hvalid
  have hsel := Selector.perReceiver_ofSensitivity hkind hdepth
  have hj := (hs.invariant htvalid).justified
  obtain ⟨c, _, hc, _, _⟩ := hj.owner htvalid hi
  have hcell : s.entities.cellOf? i = some (.var c this) :=
    Entities.cellOf?_eq_some.mpr ⟨_, hi, Entities.cell?_eq_var.mpr ⟨k, rfl, hc⟩⟩
  have hobjs : ∀ j ∈ s.entities.pointsTo i, ∃ o, s.entities.objectOf? j = some o ∧
      c = ⟨o.heap.elems ++ [.object o.obj]⟩ := by
    intro j hmem
    obtain ⟨p, o, hp, ho, hd⟩ := hj.points i j hmem
    cases Option.some.inj (hcell.symm.trans hp)
    obtain ⟨hworld, hselector, _, _⟩ := Task.new_eq ht
    unfold Task.Derives at hd
    rw [hworld, hselector] at hd
    exact ⟨o, ho, hsel.context_eq hvalid hthis hd⟩
  refine ⟨c, hc, ObjSet.size_le_one fun j hj j' hj' => ?_, hobjs⟩
  obtain ⟨o, ho, heq⟩ := hobjs j hj
  obtain ⟨o', ho', heq'⟩ := hobjs j' hj'
  have hsame := Instance.eq_of_context (heq.symm.trans heq')
  exact Entities.objectOf?_inj ho (hsame ▸ ho')

/-- The square that is drawn, under the context that it makes. -/
theorem receivers_separate_shapes : ∃ t s i k c j o, Task.ofSensitivity (Shapes.world 1) ⟨.object, 2⟩ = .ok t ∧
    Reached t .fifo s ∧ s.entities.pointer? i = some (.var k ⟨2⟩) ∧ s.entities.context? k = some c ∧
    j ∈ s.entities.pointsTo i ∧ s.entities.objectOf? j = some o ∧
    c = ⟨o.heap.elems ++ [.object o.obj]⟩ ∧ (s.entities.pointsTo i).size ≤ 1 := by
  obtain ⟨r, hr⟩ := Shapes.exists_outcome 1 .standard ⟨.object, 2⟩
  obtain ⟨t, s, ht, hs, _⟩ := analyzeWith_ok hr
  have hvalid := Task.valid_of_new ht (World.valid_of_withHeap (Shapes.world_eq 1))
  obtain ⟨o, obj, hd⟩ := Shapes.dispatches_draw 1 (.ofSensitivity ⟨.object, 2⟩)
  obtain ⟨c, hdraw⟩ : ∃ c, t.Derives (.points (.var c ⟨2⟩) o) := by
    unfold Task.Derives
    rw [(Task.new_eq ht).1, (Task.new_eq ht).2.1]
    exact ⟨_, .rule (.this hd rfl rfl)⟩
  obtain ⟨i, j, hi, hj, hmem⟩ : s.Points _ _ := ((Task.final_of_solve hvalid hs).has_iff hvalid _).mpr hdraw
  obtain ⟨a, hi, ha⟩ := Entities.cellOf?_eq_some.mp hi
  obtain ⟨k, rfl, _⟩ := Entities.cell?_eq_var.mp ha
  have hthis : (Shapes.world 1).program.Receives ⟨2⟩ ⟨2⟩ := ⟨⟨_, rfl, rfl, by decide⟩, by decide⟩
  have hreached := Task.reached_of_solve hs
  obtain ⟨c, hc, hsize, hobjs⟩ := receivers_separate (Shapes.world_eq 1) (.inl rfl) (by decide) ht hreached
    hthis hi
  obtain ⟨o', ho', heq⟩ := hobjs j hmem
  exact ⟨t, s, i, k, c, j, o', ht, hreached, hi, hc, hmem, ho', heq, hsize⟩

/-! ## Call strings -/

/-- A path of calls that starts at an entry: the calls in order, and where the last one leads. -/
inductive CallGraph.Route {σ μ : Type} [DecidableEq σ] [Hashable σ] [DecidableEq μ] [Hashable μ]
    (g : CallGraph σ μ) : List (Edge σ μ) → μ → Prop
  | entry {m : μ} : m ∈ g.entries.toList → Route g [] m
  | call {es : List (Edge σ μ)} {e : Edge σ μ} : Route g es e.caller → e ∈ g.edges.toList →
      Route g (es ++ [e]) e.callee

/-- The last `k` of some call sites, the oldest first. -/
def Context.ofSites (k : Nat) (sites : List StmtId) : Context :=
  ⟨(sites.drop (sites.length - k)).map .callSite⟩

theorem Context.ofSites_eq (k : Nat) (sites : List StmtId) :
    ofSites k sites = suffix ⟨sites.map .callSite⟩ k := by
  unfold ofSites suffix length
  rw [List.map_drop, List.length_map]

theorem Context.ofSites_nil (k : Nat) : ofSites k [] = .empty := by
  unfold ofSites
  rw [List.drop_nil]
  rfl

theorem Context.ofSites_append (k : Nat) (sites : List StmtId) (site : StmtId) :
    (ofSites k sites).append (.callSite site) k = ofSites k (sites ++ [site]) := by
  rw [ofSites_eq, ofSites_eq, append_suffix _ _ (Nat.le_succ k), List.map_append]
  cases k with
  | zero => rw [suffix_zero]; rfl
  | succ k => exact (suffix_concat _ _ _).symm

theorem Derives.callee_context {w : World} {k : Nat} {e : Link} (hd : Derives w (.callSite k) (.calls e)) :
    e.callee.context = e.caller.context.append (.callSite e.site.stmt) k := by
  cases hd.cases with
  | staticCall => rfl
  | instanceCall => rfl

structure Outcome.CallStrings (k : Nat) (r : Outcome) : Prop where
  /-- The context at the end of a path is made of the last calls of the path. -/
  contexts : ∀ es m, r.calls.Route es m → ∃ sites method,
    es.map (fun e => (r.entities.site? e.site).map CSCallSite.site) = sites.map some ∧
    r.entities.frameOf? m = some ⟨.ofSites k sites, method⟩
  reachable : ∀ m ∈ r.calls.reachable.toList, ∃ es, r.calls.Route es m
  objects : ∀ i x, r.entities.obj? i = some x → r.entities.context? x.heap = some .empty

theorem CallGraph.Rooted.route {σ μ : Type} [DecidableEq σ] [Hashable σ] [DecidableEq μ] [Hashable μ]
    {g : CallGraph σ μ} {entry m : μ} (h : g.Rooted entry) (hm : m ∈ g.reachable.toList) :
    ∃ es, g.Route es m := by
  induction h.path m hm with
  | refl => exact ⟨[], .entry (by simp [h.entries])⟩
  | tail hpath hlink ih =>
    obtain ⟨e, he, rfl, rfl⟩ := hlink
    obtain ⟨es, hes⟩ := ih (h.caller e he)
    exact ⟨es ++ [e], .call hes he⟩

theorem State.Final.callStrings {t : Task} {s : State} {k : Nat} (h : s.Final t) (ht : t.Valid)
    (he : s.Entered t) (hsel : t.selector = .callSite k) (name : String) :
    (Outcome.ofState name s).CallStrings k := by
  obtain ⟨entry, hentry, hroot⟩ := h.rooted ht he
  rw [hsel] at hentry
  constructor
  case contexts =>
    intro es m hroute
    induction hroute with
    | entry hm =>
      have hm : _ ∈ s.calls.entries.toList := hm
      rw [hroot.entries] at hm
      cases List.mem_singleton.mp hm
      refine ⟨[], t.world.entry, rfl, ?_⟩
      rw [Context.ofSites_nil]
      exact hentry
    | @call es e _ he ih =>
      obtain ⟨sites, method, hsites, hcaller⟩ := ih
      obtain ⟨x, hx, hd⟩ := h.invariant.justified.calls e he
      obtain ⟨_, hcaller', hsite, hcallee⟩ := Entities.linkOf?_eq_some.mp hx
      have hframe : x.caller = ⟨.ofSites k sites, method⟩ := Option.some.inj (hcaller'.symm.trans hcaller)
      unfold Task.Derives at hd
      rw [hsel] at hd
      have hcontext := hd.callee_context
      rw [hframe, Context.ofSites_append] at hcontext
      refine ⟨sites ++ [x.site.stmt], x.callee.method, ?_, ?_⟩
      · rw [List.map_append, List.map_append, hsites]
        exact congrArg _ (congrArg (fun site => [site]) (Entities.stmt_of_siteOf? hsite))
      · rw [← hcontext]
        exact hcallee
  case reachable => exact fun m hm => hroot.route hm
  case objects =>
    intro i x hx
    obtain ⟨c, hc, p, hd⟩ := h.invariant.justified.entities.objs x (Table.mem_toList.mpr ⟨_, hx⟩)
    have hempty : c = .empty := by
      refine hd.heap_context (Q := fun c => c = .empty) fun c m obj => ?_
      rw [hsel]
      rfl
    rw [hempty] at hc
    exact hc

/-- **Call strings.** With call sites as contexts, after a successful run on a valid program: the context
at the end of any path of calls is made of the last `k` calls of the path, all that is reachable is at the end
of a path, and objects are not told apart by contexts. -/
theorem contexts_are_callStrings {p : Program} {heap : Heap} {w : World} {c : Config} {k limit : Nat}
    {r : Outcome} (hw : World.withHeap p heap = .ok w) (hr : analyzeWith w c (.callSite k) limit = .ok r) :
    r.CallStrings k := by
  obtain ⟨t, s, ht, hs, hr⟩ := analyzeWith_ok hr
  have hvalid := Task.valid_of_new ht (World.valid_of_withHeap hw)
  have hentered := (Task.evolves_of_solve hvalid hs).entered (State.entered_initial t c.order)
  have hstrings := (Task.final_of_solve hvalid hs).callStrings hvalid hentered (Task.new_eq ht).2.1
    (Selector.callSite k).name
  obtain rfl | rfl := hr
  · exact hstrings
  · exact { hstrings with }

/-- The boxes. -/
theorem contexts_are_callStrings_sample : ∃ r, analyzeAt Sample.world .standard ⟨.callSite, 1⟩ = .ok r ∧
    r.CallStrings 1 := by
  obtain ⟨r, hr⟩ := Sample.exists_outcome .standard ⟨.callSite, 1⟩
  exact ⟨r, hr, contexts_are_callStrings Sample.world_eq hr⟩

end PointsTo
