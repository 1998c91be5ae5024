import PointsTo.Proofs.Derivation

/-!
# Derivations in another world

What can be derived in one world can be derived in another one that has all of
the first, with contexts and the numbers of objects changed as the selectors
change them.
-/

namespace PointsTo

structure Transport where
  frame : Context → Context
  heap : Context → Context
  obj : ObjId → ObjId

namespace Transport
variable (b : Transport)

def onFrame (m : Frame) : Frame := ⟨b.frame m.context, m.method⟩

def onInstance (o : Instance) : Instance := ⟨b.heap o.heap, b.obj o.obj⟩

def onCell : Cell → Cell
  | .var c v => .var (b.frame c) v
  | .staticField f => .staticField f
  | .instanceField o f => .instanceField (b.onInstance o) f
  | .arrayIndex o => .arrayIndex (b.onInstance o)

def onLink (e : Link) : Link :=
  ⟨e.kind, b.onFrame e.caller, ⟨b.frame e.site.context, e.site.stmt⟩, b.onFrame e.callee⟩

def onFact : Fact → Fact
  | .reaches m => .reaches (b.onFrame m)
  | .points p o => .points (b.onCell p) (b.onInstance o)
  | .flows p q => .flows (b.onCell p) (b.onCell q)
  | .calls e => .calls (b.onLink e)

end Transport

/-- `method'` is called as `method` is, and gives back at least the same. -/
structure Method.Covers (method method' : Method) : Prop where
  thisVar : method'.thisVar = method.thisVar
  params : method'.params = method.params
  returnVars : method.returnVars ⊆ method'.returnVars

/-- All that a derivation may use of `w` is in `w'`, where `o` has the number `ρ o`. -/
structure World.Embeds (ρ : ObjId → ObjId) (w w' : World) : Prop where
  entry : w'.entry = w.entry
  stmt : ∀ {site st}, w.program.stmt? site = some st → w'.program.stmt? site = some st
  method : ∀ {m method}, w.program.method? m = some method →
    ∃ method', w'.program.method? m = some method' ∧ method.Covers method'
  callee : ∀ type call, w'.hierarchy.callee? type call = w.hierarchy.callee? type call
  resolveField : ∀ ref, w'.hierarchy.resolveField ref = w.hierarchy.resolveField ref
  objAt : ∀ {site o}, w.heap.objAt? site = some o → w'.heap.objAt? site = some (ρ o)
  obj : ∀ {o obj}, w.heap.obj? o = some obj → w'.heap.obj? (ρ o) = some obj

theorem World.Embeds.refl (w : World) : w.Embeds id w where
  entry := rfl
  stmt hs := hs
  method hm := ⟨_, hm, rfl, rfl, fun _ hv => hv⟩
  callee _ _ := rfl
  resolveField _ := rfl
  objAt ho := ho
  obj ho := ho

structure Transport.Carries (b : Transport) (w w' : World) (sel sel' : Selector) : Prop where
  embeds : w.Embeds b.obj w'
  entry : b.frame sel.entry = sel'.entry
  static : ∀ c site m, b.frame (sel.static c site m) = sel'.static (b.frame c) site m
  onObject : ∀ c site heap o obj m, w.heap.obj? o = some obj →
    b.frame (sel.onObject c site heap o obj m) = sel'.onObject (b.frame c) site (b.heap heap) (b.obj o) obj m
  heap : ∀ c m obj, b.heap (sel.heap c m obj) = sel'.heap (b.frame c) m obj

namespace Transport.Carries
variable {b : Transport} {w w' : World} {sel sel' : Selector} (h : b.Carries w w' sel sel')
include h

theorem dispatches {X : Fact → Prop} {c : Context} {site : StmtId} {call : Call} {o : Instance} {obj : Obj}
    {m : MethodId} (d : Dispatches w (fun f => X (b.onFact f)) c site call o obj m) :
    Dispatches w' X (b.frame c) site call (b.onInstance o) obj m :=
  ⟨d.reached, h.embeds.stmt d.stmt, d.receiver, h.embeds.obj d.object, (h.embeds.callee _ _).trans d.callee⟩

theorem closed : Closed w sel fun f => Derives w' sel' (b.onFact f) := by
  have hstmt := @h.embeds.stmt
  have hfield : ∀ {ref f}, w.hierarchy.resolveField ref = .ok f → w'.hierarchy.resolveField ref = .ok f :=
    fun hf => (h.embeds.resolveField _).trans hf
  intro f r
  cases r with
  | entry =>
    show Derives w' sel' (.reaches ⟨b.frame sel.entry, w.entry⟩)
    rw [h.entry, ← h.embeds.entry]
    exact .rule .entry
  | alloc hr hs ho hobj =>
    show Derives w' sel' (.points _ ⟨b.heap _, _⟩)
    rw [h.heap]
    exact .rule (.alloc hr (hstmt hs) (h.embeds.objAt ho) (h.embeds.obj hobj))
  | copy hr hs => exact .rule (.copy hr (hstmt hs))
  | loadStatic hr hs hf => exact .rule (.loadStatic hr (hstmt hs) (hfield hf))
  | storeStatic hr hs hf => exact .rule (.storeStatic hr (hstmt hs) (hfield hf))
  | loadField hr hs hf ho => exact .rule (.loadField hr (hstmt hs) (hfield hf) ho)
  | storeField hr hs hf ho => exact .rule (.storeField hr (hstmt hs) (hfield hf) ho)
  | loadArray hr hs ho => exact .rule (.loadArray hr (hstmt hs) ho)
  | storeArray hr hs ho => exact .rule (.storeArray hr (hstmt hs) ho)
  | staticCall hr hs hk hc =>
    show Derives w' sel' (.calls ⟨_, _, _, ⟨b.frame _, _⟩⟩)
    rw [h.static]
    exact .rule (.staticCall hr (hstmt hs) hk ((h.embeds.callee _ _).trans hc))
  | instanceCall d hm hthis =>
    obtain ⟨method', hm', hcovers⟩ := h.embeds.method hm
    show Derives w' sel' (.calls ⟨_, _, _, ⟨b.frame _, _⟩⟩)
    rw [h.onObject _ _ _ _ _ _ d.object]
    exact .rule (.instanceCall (h.dispatches d) hm' (hcovers.thisVar.trans hthis))
  | this d hm hthis =>
    obtain ⟨method', hm', hcovers⟩ := h.embeds.method hm
    show Derives w' sel' (.points (.var (b.frame _) _) _)
    rw [h.onObject _ _ _ _ _ _ d.object]
    exact .rule (.this (h.dispatches d) hm' (hcovers.thisVar.trans hthis))
  | callee he => exact he.callee
  | arg he hj hn ha =>
    obtain ⟨method', hm', hcovers⟩ := h.embeds.method hj.callee
    rw [← hcovers.params] at hn ha
    exact .rule (.arg he ⟨hstmt hj.stmt, hm'⟩ hn ha)
  | result he hj hn hr hv =>
    obtain ⟨method', hm', hcovers⟩ := h.embeds.method hj.callee
    rw [← hcovers.params] at hn
    exact .rule (.result he ⟨hstmt hj.stmt, hm'⟩ hn hr (hcovers.returnVars hv))
  | flow hf ho => exact hf.flow ho

theorem derives {f : Fact} (d : Derives w sel f) : Derives w' sel' (b.onFact f) := d _ h.closed

end Transport.Carries

end PointsTo
