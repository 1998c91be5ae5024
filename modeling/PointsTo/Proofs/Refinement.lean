import PointsTo.Proofs.Projection
import PointsTo.Proofs.Transport

/-!
# Contexts only refine

A selector is coarser than another if some change of contexts takes every choice
of the finer one to the choice of the coarser one. Forgetting all contexts leads
from any selector to the insensitive one. Keeping one element less leads from
depth `k + 1` to depth `k`, and putting classes in the place of objects leads
from object contexts to type contexts.
-/

namespace PointsTo

/-! ## Truncated contexts -/

namespace Context
variable (c : Context) (e : Element)

theorem suffix_zero : c.suffix 0 = empty := by
  unfold suffix length empty
  simp

theorem empty_suffix (n : Nat) : empty.suffix n = empty := by
  unfold suffix empty
  simp

theorem suffix_suffix {m n : Nat} (h : n ≤ m) : (c.suffix m).suffix n = c.suffix n := by
  unfold suffix length
  simp only [List.drop_drop, List.length_drop, mk.injEq]
  congr 1
  omega

/-- The last element stays. -/
theorem suffix_concat (l : List Element) (n : Nat) :
    suffix ⟨l ++ [e]⟩ (n + 1) = ⟨(suffix ⟨l⟩ n).elems ++ [e]⟩ := by
  unfold suffix length
  simp only [List.length_append, List.length_singleton, mk.injEq]
  rw [Nat.add_sub_add_right, List.drop_append_of_le_length (Nat.sub_le _ _)]

theorem suffix_append (k : Nat) : (c.append e (k + 1)).suffix k = c.append e k := by
  cases k with
  | zero => exact suffix_zero _
  | succ k =>
    show suffix ⟨(c.suffix (k + 1)).elems ++ [e]⟩ (k + 1) = ⟨(c.suffix k).elems ++ [e]⟩
    rw [suffix_concat, ← c.suffix_suffix (Nat.le_succ k)]

/-- Of a context that gets a new element, the elements that are about to go do not matter. -/
theorem append_suffix {k n : Nat} (h : k ≤ n + 1) : (c.suffix n).append e k = c.append e k := by
  cases k with
  | zero => rfl
  | succ k =>
    show (⟨((c.suffix n).suffix k).elems ++ [e]⟩ : Context) = ⟨(c.suffix k).elems ++ [e]⟩
    rw [suffix_suffix c (Nat.le_of_succ_le_succ h)]

/-- With a new element, a context can be cut before or after. -/
theorem suffix_append_eq {k n : Nat} (h : k ≤ n + 1) :
    (c.append e (k + 1)).suffix k = (c.suffix n).append e k := by
  rw [suffix_append, c.append_suffix e h]

def map (f : Element → Element) : Context := ⟨c.elems.map f⟩

variable (f : Element → Element)

theorem map_suffix (n : Nat) : (c.suffix n).map f = (c.map f).suffix n := by
  unfold suffix map length
  simp only [List.map_drop, List.length_map]

theorem map_append (k : Nat) : (c.append e k).map f = (c.map f).append (f e) k := by
  cases k with
  | zero => rfl
  | succ k =>
    show (⟨((c.suffix k).elems ++ [e]).map f⟩ : Context) = ⟨((c.map f).suffix k).elems ++ [f e]⟩
    rw [← map_suffix, List.map_append]
    rfl

end Context

/-! ## Coarser selectors -/

namespace Transport.Carries
variable {w : World} {sel sel' : Selector}

theorem fault {b : Transport} (h : b.Carries w w sel sel') {e : Error} (hf : Fault w (Derives w sel) e) :
    Fault w (Derives w sel') e := by
  cases hf with
  | noObject hr hs ho => exact .noObject (h.derives hr) hs ho
  | lostObject hr hs ho hb => exact .lostObject (h.derives hr) hs ho hb
  | staticTarget d hm hthis hx => exact .staticTarget (h.dispatches (d.mono fun _ => h.derives)) hm hthis hx
  | arity he hj hn hx => exact .arity (h.derives he) ⟨hj.stmt, hj.callee⟩ hn hx

/-- If objects keep their numbers, the finer selector is the more precise one. -/
theorem refines {frame heap : Context → Context} (h : Carries ⟨frame, heap, id⟩ w w sel sel') {r r' : Outcome}
    (hr : r.Projects w sel) (hr' : r'.Projects w sel') : r.Refines r' := by
  constructor
  case pointsTo =>
    intro v o ho
    obtain ⟨c, k, hd⟩ := (hr.pointsTo v o).mp ho
    exact (hr'.pointsTo v o).mpr ⟨_, _, h.derives hd⟩
  case calls =>
    constructor
    case reachable =>
      intro m hm
      obtain ⟨c, hd⟩ := (hr.reachable m).mp hm
      exact (hr'.reachable m).mpr ⟨_, h.derives hd⟩
    case edges =>
      intro x hx
      obtain ⟨e, hd, rfl⟩ := (hr.edges x).mp hx
      exact (hr'.edges _).mpr ⟨_, h.derives hd, rfl⟩

end Transport.Carries

def Transport.forget : Transport := ⟨fun _ => .empty, fun _ => .empty, id⟩

def Transport.truncate (k : Nat) : Transport := ⟨(·.suffix k), (·.suffix (k - 1)), id⟩

def Element.container (heap : Heap) : Element → Element
  | .object o => (heap.obj? o).elim (.object o) fun obj => .type obj.container
  | e => e

def Transport.containers (heap : Heap) : Transport :=
  ⟨(·.map (.container heap)), (·.map (.container heap)), id⟩

section
variable (w : World)

theorem carries_insensitive (sel : Selector) : Transport.forget.Carries w w sel .insensitive :=
  ⟨.refl w, rfl, fun _ _ _ => rfl, fun _ _ _ _ _ _ _ => rfl, fun _ _ _ => rfl⟩

theorem carries_zero (kind : SelectorKind) :
    Transport.forget.Carries w w (.ofSensitivity .insensitive) (.ofSensitivity ⟨kind, 0⟩) := by
  cases kind <;> exact ⟨.refl w, rfl, fun _ _ _ => rfl, fun _ _ _ _ _ _ _ => rfl, fun _ _ _ => rfl⟩

theorem carries_succ (kind : SelectorKind) (k : Nat) : (Transport.truncate k).Carries w w
    (.ofSensitivity ⟨kind, k + 1⟩) (.ofSensitivity ⟨kind, k⟩) := by
  have hstatic : ∀ (c : Context) e, (c.append e (k + 1)).suffix k = (c.suffix k).append e k :=
    fun c e => c.suffix_append_eq e (by omega)
  have hobject : ∀ (c : Context) e, (c.append e (k + 1)).suffix k = (c.suffix (k - 1)).append e k :=
    fun c e => c.suffix_append_eq e (by omega)
  have hentry := Context.empty_suffix k
  have hheap := Context.empty_suffix (k - 1)
  have hw := World.Embeds.refl w
  cases kind with
  | insensitive =>
    exact ⟨hw, hentry, fun _ _ _ => hentry, fun _ _ _ _ _ _ _ => hentry, fun _ _ _ => hheap⟩
  | callSite =>
    exact ⟨hw, hentry, fun c _ _ => hstatic c _, fun c _ _ _ _ _ _ => hstatic c _, fun _ _ _ => hheap⟩
  | object =>
    exact ⟨hw, hentry, fun _ _ _ => rfl, fun _ _ heap _ _ _ _ => hobject heap _, fun _ _ _ => rfl⟩
  | type =>
    exact ⟨hw, hentry, fun _ _ _ => rfl, fun _ _ heap _ _ _ _ => hobject heap _, fun _ _ _ => rfl⟩
  | hybrid =>
    exact ⟨hw, hentry, fun c _ _ => hstatic c _, fun _ _ heap _ _ _ _ => hobject heap _, fun _ _ _ => rfl⟩

theorem carries_type (k : Nat) : (Transport.containers w.heap).Carries w w
    (.ofSensitivity ⟨.object, k⟩) (.ofSensitivity ⟨.type, k⟩) := by
  refine ⟨.refl w, rfl, fun _ _ _ => rfl, ?_, fun c _ _ => c.map_suffix _ _⟩
  intro _ _ heap o obj _ ho
  have hclass : Element.container w.heap (.object o) = .type obj.container := by
    simp [Element.container, ho]
  show (heap.append (.object o) k).map _ = (heap.map _).append (.type obj.container) k
  rw [heap.map_append, hclass]

end

/-! ## All contexts forgotten -/

section
variable {t : Task} (ht : t.Valid) (hno : ∀ e, ¬ Fault t.world t.Derives e)
include ht hno

theorem Reached.unfinished_of_error {order : Order} {s : State} (hs : Reached t order s) {e : Error}
    (he : (t.launch.apply s).1 = .error e ∨ (t.step.apply s).1 = .error e) :
    e = .unfinished ∧ Overruns t :=
  (hs.fault_of_error ht he).resolve_left (hno e)

theorem Task.unfinished_of_solve_error {order : Order} {e : Error} (he : t.solve order = .error e) :
    e = .unfinished := by
  have hend := ends_run ht (State.invariant_initial t order)
  unfold Task.solve at he
  rcases hr : t.run.apply (.initial order) with ⟨e' | _, s⟩
  · rw [hr] at he
    cases Except.error.inj he
    obtain hfails | hlimit := hend.of_error hr
    · exact (hfails.2.resolve_left (hno e)).1
    · exact hlimit.1
  · rw [hr] at he; cases he

end

theorem solve_error_of_analyzeWith {w : World} {c : Config} {sel : Selector} {limit : Nat} {t : Task}
    {e : Error} (ht : Task.new w sel limit = .ok t) (h : analyzeWith w c sel limit = .error e) :
    t.solve c.order = .error e := by
  cases hs : t.solve c.order with
  | ok s =>
    obtain ⟨r, hr⟩ := analyzeWith_of_solve ht hs
    rw [hr] at h; cases h
  | error e' =>
    have hr : analyzeWith w c sel limit = .error e' := by
      unfold analyzeWith
      rw [ht]
      show (t.solve c.order >>= fun _ => _) = _
      rw [hs]
      rfl
    rw [hr] at h
    rw [Except.error.inj h]

/-- **Contexts only refine.** If the analysis without contexts succeeds, then an analysis with any
selector fails nowhere, except that it may not come to its end, and what it finds at its end is found
without contexts. With bounded contexts it does come to its end. -/
theorem contexts_only_refine {p : Program} {heap : Heap} {w : World} {c₀ : Config} {limit₀ : Nat}
    {r₀ : Outcome} (hw : World.withHeap p heap = .ok w)
    (h₀ : analyzeWith w c₀ .insensitive limit₀ = .ok r₀) (sel : Selector) (limit : Nat) :
    (∃ t, Task.new w sel limit = .ok t ∧ ∀ order s e, Reached t order s →
      (t.launch.apply s).1 = .error e ∨ (t.step.apply s).1 = .error e → e = .unfinished ∧ Overruns t) ∧
    (∀ c e, analyzeWith w c sel limit = .error e → e = .unfinished) ∧
    (∀ c r, analyzeWith w c sel limit = .ok r → r.Refines r₀) ∧
    (∀ k, sel.Bounded w k → Task.limitFor w k ≤ limit → ∀ c, ∃ r, analyzeWith w c sel limit = .ok r) := by
  have hvalid := World.valid_of_withHeap hw
  have hcoarser := carries_insensitive w sel
  have hno : ∀ e, ¬ Fault w (Derives w sel) e := fun e hf =>
    no_fault_of_analyzeWith hvalid h₀ e (hcoarser.fault hf)
  obtain ⟨t₀, _, ht₀, _⟩ := analyzeWith_ok h₀
  obtain ⟨t, ht⟩ := Task.exists_new ht₀ sel limit
  have htvalid := Task.valid_of_new ht hvalid
  have htno : ∀ e, ¬ Fault t.world t.Derives e := by
    unfold Task.Derives
    rw [(Task.new_eq ht).1, (Task.new_eq ht).2.1]
    exact hno
  refine ⟨⟨t, ht, ?_⟩, ?_, ?_, ?_⟩
  · exact fun order s e hs he => hs.unfinished_of_error htvalid htno he
  · exact fun c e he => Task.unfinished_of_solve_error htvalid htno (solve_error_of_analyzeWith ht he)
  · intro c r hr
    exact hcoarser.refines (projects_of_analyzeWith hvalid hr) (projects_of_analyzeWith hvalid h₀)
  · intro k hb hlimit c
    obtain ⟨s, hs⟩ := ((Task.ample_of_bounded hvalid hb hlimit ht).solve_ok_iff c.order).mpr htno
    exact analyzeWith_of_solve ht hs

/-- The boxes, with and without contexts. -/
theorem contexts_only_refine_sample : ∃ r₀ r, analyzeAt Sample.world .standard .insensitive = .ok r₀ ∧
    analyzeWith Sample.world .standard (.hybrid 2) (Task.limitFor Sample.world 2) = .ok r ∧
    r.Refines r₀ := by
  obtain ⟨r₀, h₀⟩ := Sample.exists_outcome .standard .insensitive
  obtain ⟨_, _, hrefines, hends⟩ :=
    contexts_only_refine Sample.world_eq h₀ (.hybrid 2) (Task.limitFor Sample.world 2)
  have hbounded := Selector.bounded_ofSensitivity Sample.world ⟨.hybrid, 2⟩
  obtain ⟨r, hr⟩ := hends 2 hbounded (Nat.le_refl _) .standard
  exact ⟨r₀, r, h₀, hr, hrefines .standard r hr⟩

/-! ## Shorter contexts, and classes for objects -/

theorem Transport.Carries.exists_refinement {w : World} (hw : w.Valid) {sens sens' : Sensitivity}
    {frame heap : Context → Context}
    (h : Carries ⟨frame, heap, id⟩ w w (.ofSensitivity sens) (.ofSensitivity sens')) {c' : Config}
    {r' : Outcome} (hr' : analyzeAt w c' sens' = .ok r') (c : Config) :
    ∃ r, analyzeAt w c sens = .ok r ∧ r.Refines r' := by
  obtain ⟨t, _, ht, _⟩ := analyzeWith_ok hr'
  have hno : ∀ e, ¬ Fault w (Derives w (.ofSensitivity sens)) e := fun e hf =>
    no_fault_of_analyzeWith hw hr' e (h.fault hf)
  obtain ⟨r, hr⟩ := analyzeAt_of_no_fault ht hw c hno
  exact ⟨r, hr, h.refines (projects_of_analyzeWith hw hr) (projects_of_analyzeWith hw hr')⟩

/-- **Precision grows with the depth, and from types to objects.** Contexts of depth zero are as good
as none. If the analysis succeeds with some depth, then it does with the next one and finds no more,
and if it succeeds with type contexts, then it does with object contexts and finds no more. -/
theorem depth_only_refines {p : Program} {heap : Heap} {w : World} (hw : World.withHeap p heap = .ok w) :
    (∀ kind c c₀, (∀ r₀, analyzeAt w c₀ .insensitive = .ok r₀ →
        ∃ r, analyzeAt w c ⟨kind, 0⟩ = .ok r ∧ r.Refines r₀ ∧ r₀.Refines r) ∧
      ∀ r, analyzeAt w c ⟨kind, 0⟩ = .ok r → ∃ r₀, analyzeAt w c₀ .insensitive = .ok r₀) ∧
    (∀ kind k c c' r, analyzeAt w c ⟨kind, k⟩ = .ok r →
      ∃ r', analyzeAt w c' ⟨kind, k + 1⟩ = .ok r' ∧ r'.Refines r) ∧
    (∀ k c c' r, analyzeAt w c ⟨.type, k⟩ = .ok r →
      ∃ r', analyzeAt w c' ⟨.object, k⟩ = .ok r' ∧ r'.Refines r) := by
  have hvalid := World.valid_of_withHeap hw
  refine ⟨fun kind c c₀ => ⟨fun r₀ h₀ => ?_, fun r hr => ?_⟩, fun kind k c c' r hr => ?_,
    fun k c c' r hr => ?_⟩
  · obtain ⟨r, hr, hle⟩ := (carries_insensitive w _).exists_refinement hvalid h₀ c
    refine ⟨r, hr, hle, ?_⟩
    have hproj₀ := projects_of_analyzeWith hvalid h₀
    exact (carries_zero w kind).refines hproj₀ (projects_of_analyzeWith hvalid hr)
  · obtain ⟨r₀, h₀, _⟩ := (carries_zero w kind).exists_refinement hvalid hr c₀
    exact ⟨r₀, h₀⟩
  · exact (carries_succ w kind k).exists_refinement hvalid hr c'
  · exact (carries_type w k).exists_refinement hvalid hr c'

/-- The boxes, told apart by the classes and by the objects that made them. -/
theorem depth_only_refines_sample : ∃ r r' r'', analyzeAt Sample.world .standard ⟨.type, 1⟩ = .ok r ∧
    analyzeAt Sample.world .standard ⟨.object, 1⟩ = .ok r' ∧ r'.Refines r ∧
    analyzeAt Sample.world .standard ⟨.object, 2⟩ = .ok r'' ∧ r''.Refines r' := by
  obtain ⟨_, hdepth, htype⟩ := depth_only_refines Sample.world_eq
  obtain ⟨r, hr⟩ := Sample.exists_outcome .standard ⟨.type, 1⟩
  obtain ⟨r', hr', hle⟩ := htype 1 .standard .standard r hr
  obtain ⟨r'', hr'', hle'⟩ := hdepth .object 1 .standard .standard r' hr'
  exact ⟨r, r', r'', hr, hr', hle, hr'', hle'⟩

end PointsTo
