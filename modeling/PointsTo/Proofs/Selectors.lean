import Mathlib.Data.List.Perm.Subperm
import Mathlib.Data.List.ProdSigma
import Mathlib.Tactic.Ring
import PointsTo.Proofs.Facts

/-!
# There are finitely many contexts

The contexts of a selector of depth `k` have `k` elements at most, and each
element is a statement, an object or a class of the world. So there is a list
of all the contexts that an analysis may come to, however long it runs.
-/

namespace PointsTo

def World.elements (w : World) : List Element :=
  w.program.stmts.map (fun x => .callSite x.1) ++ w.heap.objects.toList.map (fun o => .type o.container) ++
    w.heap.objIds.map .object

namespace Context

structure Within (w : World) (k : Nat) (c : Context) : Prop where
  length : c.length ≤ k
  elements : ∀ e ∈ c.elems, e ∈ w.elements

variable {w : World} {k n : Nat} {c : Context}

theorem within_empty (w : World) (k : Nat) : empty.Within w k :=
  ⟨Nat.zero_le k, fun _ he => (by cases he)⟩

theorem length_suffix_le (c : Context) (n : Nat) : (c.suffix n).length ≤ n := by
  show (c.elems.drop (c.elems.length - n)).length ≤ n
  rw [List.length_drop]; omega

theorem mem_of_mem_suffix {e : Element} (he : e ∈ (c.suffix n).elems) : e ∈ c.elems := List.mem_of_mem_drop he

theorem length_append_le (c : Context) (e : Element) (k : Nat) : (c.append e k).length ≤ k := by
  cases k with
  | zero => exact Nat.le_refl 0
  | succ k =>
    show ((c.suffix k).elems ++ [e]).length ≤ k + 1
    rw [List.length_append]
    exact Nat.succ_le_succ (c.length_suffix_le k)

theorem mem_of_mem_append {e x : Element} (hx : x ∈ (c.append e k).elems) : x ∈ c.elems ∨ x = e := by
  cases k with
  | zero => cases hx
  | succ k =>
    rcases List.mem_append.mp hx with hx | hx
    · exact Or.inl (mem_of_mem_suffix hx)
    · exact Or.inr (List.mem_singleton.mp hx)

theorem Within.suffix (h : c.Within w k) (n : Nat) : (c.suffix n).Within w k where
  length := by
    have := h.length
    show (c.elems.drop (c.elems.length - n)).length ≤ k
    rw [List.length_drop]
    exact Nat.le_trans (Nat.sub_le _ _) this
  elements e he := h.elements e (mem_of_mem_suffix he)

theorem Within.append (h : c.Within w k) {e : Element} (he : e ∈ w.elements) :
    (c.append e k).Within w k where
  length := c.length_append_le e k
  elements x hx := by
    rcases mem_of_mem_append hx with hx | rfl
    · exact h.elements x hx
    · exact he

/-! ## The list of all contexts -/

def listsUpTo (l : List Element) : Nat → List (List Element)
  | 0 => [[]]
  | n + 1 => [] :: (l ×ˢ listsUpTo l n).map fun x => x.1 :: x.2

theorem mem_listsUpTo {l : List Element} : ∀ {n : Nat} {xs : List Element}, xs.length ≤ n →
    (∀ x ∈ xs, x ∈ l) → xs ∈ listsUpTo l n
  | 0, [], _, _ => List.mem_singleton.mpr rfl
  | n + 1, [], _, _ => List.mem_cons_self
  | n + 1, x :: xs, hn, hx => by
    refine List.mem_cons_of_mem _ (List.mem_map.mpr ⟨(x, xs), List.mem_product.mpr ⟨?_, ?_⟩, rfl⟩)
    · exact hx x List.mem_cons_self
    · exact mem_listsUpTo (Nat.le_of_succ_le_succ hn) fun y hy => hx y (List.mem_cons_of_mem _ hy)

theorem length_listsUpTo_le (l : List Element) : ∀ n, (listsUpTo l n).length ≤ (l.length + 1) ^ n
  | 0 => Nat.le_refl 1
  | n + 1 => by
    have ih := length_listsUpTo_le l n
    have hpos : 1 ≤ (l.length + 1) ^ n := Nat.one_le_pow _ _ (Nat.succ_pos _)
    unfold listsUpTo
    rw [List.length_cons, List.length_map, List.length_product]
    calc l.length * (listsUpTo l n).length + 1
        ≤ l.length * (l.length + 1) ^ n + (l.length + 1) ^ n :=
          Nat.add_le_add (Nat.mul_le_mul_left _ ih) hpos
      _ = (l.length + 1) ^ (n + 1) := by ring

/-- There are not many different contexts. -/
theorem length_le_of_within {l : List Context} (hl : l.Nodup) (h : ∀ c ∈ l, c.Within w k) :
    l.length ≤ (w.elements.length + 1) ^ k := by
  have hn : (l.map Context.elems).Nodup :=
    hl.map_on fun a _ b _ he => by cases a; cases b; exact congrArg _ he
  have hs : l.map Context.elems ⊆ listsUpTo w.elements k := by
    intro xs hxs
    obtain ⟨c, hc, rfl⟩ := List.mem_map.mp hxs
    exact mem_listsUpTo (h c hc).length (h c hc).elements
  have hle := (List.subperm_of_subset hn hs).length_le
  rw [List.length_map] at hle
  exact Nat.le_trans hle (length_listsUpTo_le _ k)

end Context

/-! ## Selectors -/

structure Selector.Bounded (w : World) (k : Nat) (sel : Selector) : Prop where
  entry : sel.entry.Within w k
  static : ∀ c site st m, c.Within w k → w.program.stmt? site = some st →
    (sel.static c site m).Within w k
  onObject : ∀ c site st heap o obj m, c.Within w k → heap.Within w k →
    w.program.stmt? site = some st → w.heap.obj? o = some obj →
    (sel.onObject c site heap o obj m).Within w k
  heap : ∀ c m obj, c.Within w k → (sel.heap c m obj).Within w k

section
variable {w : World}

theorem World.callSite_mem {site : StmtId} {st : Stmt} (h : w.program.stmt? site = some st) :
    .callSite site ∈ w.elements := by
  refine List.mem_append_left _ (List.mem_append_left _ ?_)
  exact List.mem_map.mpr ⟨(site, st), Program.mem_stmts.mpr h, rfl⟩

theorem World.type_mem {o : ObjId} {obj : Obj} (h : w.heap.obj? o = some obj) :
    .type obj.container ∈ w.elements := by
  refine List.mem_append_left _ (List.mem_append_right _ ?_)
  exact List.mem_map.mpr ⟨obj, Array.mem_toList_iff.mpr (Array.mem_of_getElem? h), rfl⟩

theorem World.object_mem {o : ObjId} {obj : Obj} (h : w.heap.obj? o = some obj) :
    .object o ∈ w.elements := by
  refine List.mem_append_right _ (List.mem_map.mpr ⟨o, ?_, rfl⟩)
  exact List.mem_map.mpr ⟨o.idx, List.mem_range.mpr (Array.getElem?_eq_some_iff.mp h).1, rfl⟩

theorem Selector.entry_ofSensitivity (sens : Sensitivity) : (ofSensitivity sens).entry = .empty := by
  unfold ofSensitivity
  cases sens.kind <;> rfl

theorem Selector.bounded_ofSensitivity (w : World) (s : Sensitivity) :
    (ofSensitivity s).Bounded w s.depth := by
  have hempty := Context.within_empty w s.depth
  unfold ofSensitivity
  cases s.kind with
  | insensitive =>
    exact ⟨hempty, fun _ _ _ _ _ _ => hempty, fun _ _ _ _ _ _ _ _ _ _ _ => hempty, fun _ _ _ _ => hempty⟩
  | callSite =>
    exact ⟨hempty, fun _ _ _ _ hc hs => hc.append (w.callSite_mem hs),
      fun _ _ _ _ _ _ _ hc _ hs _ => hc.append (w.callSite_mem hs), fun _ _ _ _ => hempty⟩
  | object =>
    exact ⟨hempty, fun _ _ _ _ hc _ => hc,
      fun _ _ _ _ _ _ _ _ hh _ ho => hh.append (w.object_mem ho), fun _ _ _ hc => hc.suffix _⟩
  | type =>
    exact ⟨hempty, fun _ _ _ _ hc _ => hc,
      fun _ _ _ _ _ _ _ _ hh _ ho => hh.append (w.type_mem ho), fun _ _ _ hc => hc.suffix _⟩
  | hybrid =>
    exact ⟨hempty, fun _ _ _ _ hc hs => hc.append (w.callSite_mem hs),
      fun _ _ _ _ _ _ _ _ hh _ ho => hh.append (w.object_mem ho), fun _ _ _ hc => hc.suffix _⟩

end

/-! ## Derivable contexts -/

/-- With `sel`, methods have contexts for which `F` holds and objects such for which `H` holds. -/
structure Selector.Confines (w : World) (F H : Context → Prop) (sel : Selector) : Prop where
  entry : F sel.entry
  static : ∀ c site call m, F c → w.program.stmt? site = some (.invoke call) → call.isStatic = true →
    F (sel.static c site m)
  onObject : ∀ c site call heap o obj m, F c → H heap → w.program.stmt? site = some (.invoke call) →
    w.heap.obj? o = some obj → F (sel.onObject c site heap o obj m)
  heap : ∀ c m o obj, F c → w.heap.obj? o = some obj → H (sel.heap c m obj)

section
variable {w : World} {sel : Selector} {F H : Context → Prop} (hsel : sel.Confines w F H)
include hsel

def Fact.Confined (F H : Context → Prop) : Fact → Prop
  | .reaches m => F m.context
  | .points _ o => H o.heap
  | .flows _ _ => True
  | .calls e => F e.callee.context

theorem Dispatches.confined {X : Fact → Prop} (hX : ∀ f, X f → f.Confined F H) {c : Context} {site : StmtId}
    {call : Call} {o : Instance} {obj : Obj} {m : MethodId} (d : Dispatches w X c site call o obj m) :
    F (sel.onObject c site o.heap o.obj obj m) := by
  obtain ⟨r, _, hp⟩ := d.receiver
  exact hsel.onObject _ _ _ _ _ _ _ (hX _ d.reached) (hX _ hp) d.stmt d.object

theorem Derives.confined {f : Fact} (d : Derives w sel f) : f.Confined F H := by
  refine Derives.induct (P := Fact.Confined F H) (fun f r => ?_) d
  cases r with
  | entry => exact hsel.entry
  | alloc hr _ _ ho => exact hsel.heap _ _ _ _ hr.2 ho
  | staticCall hr hs hk _ => exact hsel.static _ _ _ _ hr.2 hs hk
  | instanceCall d _ _ => exact d.confined hsel fun _ hg => hg.2
  | this d _ _ =>
    obtain ⟨r, _, hp⟩ := d.receiver
    exact hp.2
  | callee he => exact he.2
  | flow _ ho => exact ho.2
  | _ => trivial

end

theorem FrameOccurs.confined {t : Task} {F H : Context → Prop} (hsel : t.selector.Confines t.world F H)
    {m : Frame} (h : FrameOccurs t m) : F m.context := by
  cases h with
  | reached hd => exact hd.confined hsel
  | target d => exact d.confined hsel fun _ hd => hd.confined hsel

theorem Selector.Bounded.confines {w : World} {sel : Selector} {k : Nat} (hb : sel.Bounded w k) :
    sel.Confines w (Context.Within w k) (Context.Within w k) where
  entry := hb.entry
  static c site _ m hc hs _ := hb.static c site _ m hc hs
  onObject c site _ heap o obj m hc hh hs := hb.onObject c site _ heap o obj m hc hh hs
  heap c m _ obj hc _ := hb.heap c m obj hc

theorem ContextOccurs.within {t : Task} {k : Nat} (hb : t.selector.Bounded t.world k) {c : Context}
    (h : ContextOccurs t c) : c.Within t.world k := by
  cases h with
  | empty => exact Context.within_empty _ k
  | frame hf => exact hf.confined hb.confines
  | heap hd => exact hd.confined hb.confines

end PointsTo
