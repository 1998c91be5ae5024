import PointsTo.Proofs.Contents
import PointsTo.Selector
import PointsTo.World

/-!
# The analysis as a set of rules

What an analysis is to find out, said without handles, queues or an order of
work: the least set of facts that is closed under the rules. `Fault` says which
facts make an analysis impossible.
-/

namespace PointsTo

inductive Fact
  | reaches (m : Frame)
  | points (p : Cell) (o : Instance)
  | flows (p q : Cell)
  | calls (e : Link)
  deriving DecidableEq

/-- The call at `site` under the context `c`, made on the object `o`, goes to the method `m`. -/
structure Dispatches (w : World) (X : Fact → Prop) (c : Context) (site : StmtId) (call : Call)
    (o : Instance) (obj : Obj) (m : MethodId) : Prop where
  reached : X (.reaches ⟨c, site.method⟩)
  stmt : w.program.stmt? site = some (.invoke call)
  receiver : ∃ r, call.receiver = some r ∧ X (.points (.var c r) o)
  object : w.heap.obj? o.obj = some obj
  callee : w.hierarchy.callee? (some obj.cls) call = .ok (some m)

structure Joins (w : World) (e : Link) (call : Call) (method : Method) : Prop where
  stmt : w.program.stmt? e.site.stmt = some (.invoke call)
  callee : w.program.method? e.callee.method = some method

/-- What follows from the facts `X` by one rule. -/
inductive Rule (w : World) (sel : Selector) (X : Fact → Prop) : Fact → Prop
  | entry : Rule w sel X (.reaches ⟨sel.entry, w.entry⟩)
  | alloc {c : Context} {site : StmtId} {lhs : VarId} {cls : ClassId} {o : ObjId} {obj : Obj} :
      X (.reaches ⟨c, site.method⟩) → w.program.stmt? site = some (.alloc lhs cls) →
      w.heap.objAt? site = some o → w.heap.obj? o = some obj →
      Rule w sel X (.points (.var c lhs) ⟨sel.heap c site.method obj, o⟩)
  | copy {c : Context} {site : StmtId} {lhs rhs : VarId} :
      X (.reaches ⟨c, site.method⟩) → w.program.stmt? site = some (.copy lhs rhs) →
      Rule w sel X (.flows (.var c rhs) (.var c lhs))
  | loadStatic {c : Context} {site : StmtId} {lhs : VarId} {ref : FieldRef} {f : FieldId} :
      X (.reaches ⟨c, site.method⟩) → w.program.stmt? site = some (.loadField lhs none ref) →
      w.hierarchy.resolveField ref = .ok f →
      Rule w sel X (.flows (.staticField f) (.var c lhs))
  | storeStatic {c : Context} {site : StmtId} {rhs : VarId} {ref : FieldRef} {f : FieldId} :
      X (.reaches ⟨c, site.method⟩) → w.program.stmt? site = some (.storeField none ref rhs) →
      w.hierarchy.resolveField ref = .ok f →
      Rule w sel X (.flows (.var c rhs) (.staticField f))
  | loadField {c : Context} {site : StmtId} {lhs base : VarId} {ref : FieldRef} {f : FieldId}
      {o : Instance} :
      X (.reaches ⟨c, site.method⟩) → w.program.stmt? site = some (.loadField lhs (some base) ref) →
      w.hierarchy.resolveField ref = .ok f → X (.points (.var c base) o) →
      Rule w sel X (.flows (.instanceField o f) (.var c lhs))
  | storeField {c : Context} {site : StmtId} {base rhs : VarId} {ref : FieldRef} {f : FieldId}
      {o : Instance} :
      X (.reaches ⟨c, site.method⟩) → w.program.stmt? site = some (.storeField (some base) ref rhs) →
      w.hierarchy.resolveField ref = .ok f → X (.points (.var c base) o) →
      Rule w sel X (.flows (.var c rhs) (.instanceField o f))
  | loadArray {c : Context} {site : StmtId} {lhs base : VarId} {o : Instance} :
      X (.reaches ⟨c, site.method⟩) → w.program.stmt? site = some (.loadArray lhs base) →
      X (.points (.var c base) o) → Rule w sel X (.flows (.arrayIndex o) (.var c lhs))
  | storeArray {c : Context} {site : StmtId} {base rhs : VarId} {o : Instance} :
      X (.reaches ⟨c, site.method⟩) → w.program.stmt? site = some (.storeArray base rhs) →
      X (.points (.var c base) o) → Rule w sel X (.flows (.var c rhs) (.arrayIndex o))
  | staticCall {c : Context} {site : StmtId} {call : Call} {m : MethodId} :
      X (.reaches ⟨c, site.method⟩) → w.program.stmt? site = some (.invoke call) →
      call.isStatic = true → w.hierarchy.callee? none call = .ok (some m) →
      Rule w sel X (.calls ⟨.static, ⟨c, site.method⟩, ⟨c, site⟩, ⟨sel.static c site m, m⟩⟩)
  | instanceCall {c : Context} {site : StmtId} {call : Call} {o : Instance} {obj : Obj}
      {m : MethodId} {method : Method} {this : VarId} :
      Dispatches w X c site call o obj m → w.program.method? m = some method →
      method.thisVar = some this →
      Rule w sel X (.calls ⟨.ofCall call.kind, ⟨c, site.method⟩, ⟨c, site⟩,
        ⟨sel.onObject c site o.heap o.obj obj m, m⟩⟩)
  /-- The receiver is what the callee sees as `this`. -/
  | this {c : Context} {site : StmtId} {call : Call} {o : Instance} {obj : Obj}
      {m : MethodId} {method : Method} {this : VarId} :
      Dispatches w X c site call o obj m → w.program.method? m = some method →
      method.thisVar = some this →
      Rule w sel X (.points (.var (sel.onObject c site o.heap o.obj obj m) this) o)
  | callee {e : Link} : X (.calls e) → Rule w sel X (.reaches e.callee)
  | arg {e : Link} {call : Call} {method : Method} {a p : VarId} :
      X (.calls e) → Joins w e call method → call.args.length = method.params.length →
      (a, p) ∈ call.args.zip method.params →
      Rule w sel X (.flows (.var e.caller.context a) (.var e.callee.context p))
  | result {e : Link} {call : Call} {method : Method} {r v : VarId} :
      X (.calls e) → Joins w e call method → call.args.length = method.params.length →
      call.result = some r → v ∈ method.returnVars →
      Rule w sel X (.flows (.var e.callee.context v) (.var e.caller.context r))
  | flow {p q : Cell} {o : Instance} :
      X (.flows p q) → X (.points p o) → Rule w sel X (.points q o)

/-- What among the facts `X` an analysis stops at. -/
inductive Fault (w : World) (X : Fact → Prop) : Error → Prop
  | noObject {c : Context} {site : StmtId} {lhs : VarId} {cls : ClassId} :
      X (.reaches ⟨c, site.method⟩) → w.program.stmt? site = some (.alloc lhs cls) →
      w.heap.objAt? site = none → Fault w X (.broken (.noObject site))
  | lostObject {c : Context} {site : StmtId} {lhs : VarId} {cls : ClassId} {o : ObjId} :
      X (.reaches ⟨c, site.method⟩) → w.program.stmt? site = some (.alloc lhs cls) →
      w.heap.objAt? site = some o → w.heap.obj? o = none → Fault w X .unknownId
  | staticTarget {c : Context} {site : StmtId} {call : Call} {o : Instance} {obj : Obj}
      {m : MethodId} {method : Method} {text : String} :
      Dispatches w X c site call o obj m → w.program.method? m = some method →
      method.thisVar = none → w.program.signature? m = some text →
      Fault w X (.malformed (.staticTarget call.kind site text))
  | arity {e : Link} {call : Call} {method : Method} {text : String} :
      X (.calls e) → Joins w e call method → call.args.length ≠ method.params.length →
      w.program.signature? e.callee.method = some text →
      Fault w X (.malformed (.arity call.args.length text method.params.length))

def Closed (w : World) (sel : Selector) (X : Fact → Prop) : Prop := ∀ f, Rule w sel X f → X f

/-- The least closed set. -/
def Derives (w : World) (sel : Selector) (f : Fact) : Prop := ∀ X, Closed w sel X → X f

section
variable {w : World} {sel : Selector} {X Y : Fact → Prop} {f : Fact}

theorem Dispatches.mono (h : ∀ f, X f → Y f) {c : Context} {site : StmtId} {call : Call}
    {o : Instance} {obj : Obj} {m : MethodId} (d : Dispatches w X c site call o obj m) :
    Dispatches w Y c site call o obj m :=
  ⟨h _ d.reached, d.stmt, d.receiver.imp fun _ hr => ⟨hr.1, h _ hr.2⟩, d.object, d.callee⟩

theorem Rule.mono (h : ∀ f, X f → Y f) (r : Rule w sel X f) : Rule w sel Y f := by
  cases r with
  | entry => exact .entry
  | alloc hr hs ho hb => exact .alloc (h _ hr) hs ho hb
  | copy hr hs => exact .copy (h _ hr) hs
  | loadStatic hr hs hf => exact .loadStatic (h _ hr) hs hf
  | storeStatic hr hs hf => exact .storeStatic (h _ hr) hs hf
  | loadField hr hs hf ho => exact .loadField (h _ hr) hs hf (h _ ho)
  | storeField hr hs hf ho => exact .storeField (h _ hr) hs hf (h _ ho)
  | loadArray hr hs ho => exact .loadArray (h _ hr) hs (h _ ho)
  | storeArray hr hs ho => exact .storeArray (h _ hr) hs (h _ ho)
  | staticCall hr hs hk hc => exact .staticCall (h _ hr) hs hk hc
  | instanceCall d hm ht => exact .instanceCall (d.mono h) hm ht
  | this d hm ht => exact .this (d.mono h) hm ht
  | callee he => exact .callee (h _ he)
  | arg he hj hn ha => exact .arg (h _ he) hj hn ha
  | result he hj hn hr hv => exact .result (h _ he) hj hn hr hv
  | flow hf ho => exact .flow (h _ hf) (h _ ho)

theorem Fault.mono (h : ∀ f, X f → Y f) {e : Error} (d : Fault w X e) : Fault w Y e := by
  cases d with
  | noObject hr hs ho => exact .noObject (h _ hr) hs ho
  | lostObject hr hs ho hb => exact .lostObject (h _ hr) hs ho hb
  | staticTarget d hm ht hx => exact .staticTarget (d.mono h) hm ht hx
  | arity he hj hn hx => exact .arity (h _ he) hj hn hx

theorem Derives.rule (r : Rule w sel (Derives w sel) f) : Derives w sel f :=
  fun X hX => hX f (r.mono fun _ hg => hg X hX)

theorem Derives.callee {e : Link} (d : Derives w sel (.calls e)) : Derives w sel (.reaches e.callee) :=
  .rule (.callee d)

theorem Derives.flow {p q : Cell} {o : Instance} (d : Derives w sel (.flows p q))
    (d' : Derives w sel (.points p o)) : Derives w sel (.points q o) := .rule (.flow d d')

/-- Rule induction: the premises of each rule are derivable and have the property. -/
theorem Derives.induct {P : Fact → Prop}
    (h : ∀ f, Rule w sel (fun g => Derives w sel g ∧ P g) f → P f) (d : Derives w sel f) : P f := by
  have hc : Closed w sel fun g => Derives w sel g ∧ P g :=
    fun g r => ⟨.rule (r.mono fun _ hg => hg.1), h g r⟩
  exact (d _ hc).2

/-- A derivable fact follows from derivable ones by some rule. -/
theorem Derives.cases (d : Derives w sel f) : Rule w sel (Derives w sel) f :=
  Derives.induct (P := Rule w sel (Derives w sel)) (fun _ r => r.mono fun _ hg => hg.1) d

end

structure Allocates (w : World) (sel : Selector) (c : Context) (site : StmtId) (o : Instance) (obj : Obj) :
    Prop where
  reached : Derives w sel (.reaches ⟨c, site.method⟩)
  stmt : ∃ lhs cls, w.program.stmt? site = some (.alloc lhs cls)
  place : w.heap.objAt? site = some o.obj
  object : w.heap.obj? o.obj = some obj
  heap : o.heap = sel.heap c site.method obj

/-- What is pointed to was allocated by a reached method. -/
theorem Derives.allocated {w : World} {sel : Selector} {p : Cell} {o : Instance}
    (d : Derives w sel (.points p o)) : ∃ c site obj, Allocates w sel c site o obj := by
  have hall : ∀ f, Derives w sel f → ∀ p o, f = .points p o → ∃ c site obj, Allocates w sel c site o obj := by
    intro f hd
    refine Derives.induct
      (P := fun f => ∀ p o, f = .points p o → ∃ c site obj, Allocates w sel c site o obj) (fun f r => ?_) hd
    intro p o hf
    cases r with
    | alloc hr hs ho hb =>
      cases hf
      exact ⟨_, _, _, hr.1, ⟨_, _, hs⟩, ho, hb, rfl⟩
    | this d =>
      cases hf
      obtain ⟨_, _, hp⟩ := d.receiver
      exact hp.2 _ _ rfl
    | flow _ ho =>
      cases hf
      exact ho.2 _ _ rfl
    | _ => cases hf
  exact hall _ d p o rfl

end PointsTo
