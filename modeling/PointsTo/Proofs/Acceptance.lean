import PointsTo.Proofs.Cycles

/-!
# What validity accepts

A program is accepted exactly if it is well formed: what it refers to is there,
methods keep to their own variables, and so on. Nothing is asked of the owner of
a variable that no method mentions, so such an owner may be missing.

While a program is checked, nothing is looked up that is not there: the same
checks with lookups that must succeed come to the same answer.
-/

namespace PointsTo

/-! ## What a program refers to -/

inductive Stmt.Mentions : Stmt → VarId → Prop
  | allocated {lhs : VarId} {cls : ClassId} : Mentions (.alloc lhs cls) lhs
  | copied {lhs rhs : VarId} : Mentions (.copy lhs rhs) rhs
  | copy {lhs rhs : VarId} : Mentions (.copy lhs rhs) lhs
  | loaded {lhs : VarId} {base : Option VarId} {field : FieldRef} : Mentions (.loadField lhs base field) lhs
  | loadBase {lhs base : VarId} {field : FieldRef} : Mentions (.loadField lhs (some base) field) base
  | stored {base : Option VarId} {field : FieldRef} {rhs : VarId} : Mentions (.storeField base field rhs) rhs
  | storeBase {base : VarId} {field : FieldRef} {rhs : VarId} :
      Mentions (.storeField (some base) field rhs) base
  | item {lhs base : VarId} : Mentions (.loadArray lhs base) lhs
  | itemBase {lhs base : VarId} : Mentions (.loadArray lhs base) base
  | storedItem {base rhs : VarId} : Mentions (.storeArray base rhs) rhs
  | storedItemBase {base rhs : VarId} : Mentions (.storeArray base rhs) base
  | receiver {call : Call} {v : VarId} : call.receiver = some v → Mentions (.invoke call) v
  | arg {call : Call} {v : VarId} : v ∈ call.args → Mentions (.invoke call) v
  | result {call : Call} {v : VarId} : call.result = some v → Mentions (.invoke call) v
  | returned {v : VarId} : Mentions (.ret (some v)) v

inductive Stmt.Names : Stmt → ClassId → Prop
  | allocated {lhs : VarId} {cls : ClassId} : Names (.alloc lhs cls) cls
  | load {lhs : VarId} {base : Option VarId} {field : FieldRef} : Names (.loadField lhs base field) field.cls
  | store {base : Option VarId} {field : FieldRef} {rhs : VarId} : Names (.storeField base field rhs) field.cls
  | call {call : Call} : Names (.invoke call) call.target.cls

inductive Method.Mentions (method : Method) : VarId → Prop
  | this {v : VarId} : method.thisVar = some v → Mentions method v
  | param {v : VarId} : v ∈ method.params → Mentions method v
  | stmt {s : Stmt} {v : VarId} : s ∈ method.body → s.Mentions v → Mentions method v

inductive Ref
  | cls (c : ClassId)
  | method (m : MethodId)
  | field (f : FieldId)
  | var (v : VarId)

namespace Program

/-- The places where a program refers to its parts, but for the owners of variables. -/
inductive Refers (p : Program) : Ref → Prop
  | superclass {c s : ClassId} {cls : Class} :
      p.class? c = some cls → cls.superclass = some s → Refers p (.cls s)
  | interface {c s : ClassId} {cls : Class} : p.class? c = some cls → s ∈ cls.interfaces → Refers p (.cls s)
  | method {c : ClassId} {cls : Class} {m : MethodId} :
      p.class? c = some cls → m ∈ cls.methods → Refers p (.method m)
  | field {c : ClassId} {cls : Class} {f : FieldId} :
      p.class? c = some cls → f ∈ cls.fields → Refers p (.field f)
  | methodClass {m : MethodId} {method : Method} : p.method? m = some method → Refers p (.cls method.cls)
  | fieldClass {f : FieldId} {field : Field} : p.field? f = some field → Refers p (.cls field.cls)
  | var {m : MethodId} {method : Method} {v : VarId} :
      p.method? m = some method → method.Mentions v → Refers p (.var v)
  | stmtClass {m : MethodId} {method : Method} {s : Stmt} {c : ClassId} :
      p.method? m = some method → s ∈ method.body → s.Names c → Refers p (.cls c)
  | entry {m : MethodId} : p.entry = some m → Refers p (.method m)

def Knows (p : Program) : Ref → Prop
  | .cls c => c.idx < p.classes.size
  | .method m => m.idx < p.methods.size
  | .field f => f.idx < p.fields.size
  | .var v => v.idx < p.vars.size

structure WellFormed (p : Program) (entry : MethodId) : Prop where
  known : ∀ r, p.Refers r → p.Knows r
  /-- A method mentions its own variables only. -/
  owned : ∀ m method v, p.method? m = some method → method.Mentions v → p.owner? v = some m
  /-- A class lists its own methods only. -/
  declared : ∀ c cls m method, p.class? c = some cls → m ∈ cls.methods → p.method? m = some method →
    method.cls = c
  acyclic : p.Acyclic
  /-- Static methods, and only these, have no `this`. -/
  this : ∀ m method, p.method? m = some method → (method.isStatic = true ↔ method.thisVar = none)
  /-- Static calls have no receiver, dynamic ones may have one, all others need one. -/
  receivers : ∀ m method call, p.method? m = some method → .invoke call ∈ method.body →
    (call.kind = .static → call.receiver = none) ∧
    (call.kind ≠ .static → call.kind ≠ .dynamic → call.receiver ≠ none)
  starts : p.entry = some entry
  runnable : ∃ main, p.method? entry = some main ∧ main.isStatic = true ∧ main.isAbstract = false

end Program

/-! ## Each check -/

theorem Stmt.mentions_iff {s : Stmt} {v : VarId} : s.Mentions v ↔ s.defined = some v ∨ v ∈ s.used := by
  constructor
  · intro h
    cases h <;> simp_all [defined, used]
  · intro h
    cases s with
    | alloc lhs cls =>
      obtain rfl : lhs = v := by simpa [defined, used] using h
      exact .allocated
    | copy lhs rhs =>
      obtain rfl | rfl : lhs = v ∨ v = rhs := by simpa [defined, used] using h
      · exact .copy
      · exact .copied
    | loadField lhs base field =>
      obtain rfl | rfl : lhs = v ∨ base = some v := by simpa [defined, used] using h
      · exact .loaded
      · exact .loadBase
    | storeField base field rhs =>
      obtain rfl | rfl : base = some v ∨ v = rhs := by simpa [defined, used] using h
      · exact .storeBase
      · exact .stored
    | loadArray lhs base =>
      obtain rfl | rfl : lhs = v ∨ v = base := by simpa [defined, used] using h
      · exact .item
      · exact .itemBase
    | storeArray base rhs =>
      obtain rfl | rfl : v = base ∨ v = rhs := by simpa [defined, used] using h
      · exact .storedItemBase
      · exact .storedItem
    | invoke call =>
      obtain hv | hv | hv : call.result = some v ∨ call.receiver = some v ∨ v ∈ call.args := by
        simpa [defined, used] using h
      · exact .result hv
      · exact .receiver hv
      · exact .arg hv
    | ret value =>
      obtain rfl : value = some v := by simpa [defined, used] using h
      exact .returned
    | nop => simp [defined, used] at h

theorem except_seq_ok {ε β : Type} {x : Except ε Unit} {y : Except ε β} {r : β} :
    (x >>= fun _ => y) = .ok r ↔ x = .ok () ∧ y = .ok r := by
  rw [except_bind_ok]
  exact ⟨fun ⟨_, hx, hy⟩ => ⟨hx, hy⟩, fun ⟨hx, hy⟩ => ⟨(), hx, hy⟩⟩

namespace Program
variable {p : Program}

theorem checkListedMethod_ok {c : ClassId} {cls : Class} {m : MethodId} :
    p.checkListedMethod c cls m = .ok () ↔ ∃ method, p.method? m = some method ∧ method.cls = c := by
  unfold checkListedMethod
  cases p.method? m with
  | none => simp
  | some method => by_cases h : method.cls = c <;> simp [h]

theorem checkListedField_ok {cls : Class} {f : FieldId} :
    p.checkListedField cls f = .ok () ↔ f.idx < p.fields.size := by
  unfold checkListedField
  by_cases h : f.idx < p.fields.size <;> simp [h]

theorem checkClass_ok {c : ClassId} {cls : Class} : p.checkClass c cls = .ok () ↔
    (∀ s ∈ cls.supertypes, s.idx < p.classes.size) ∧
    (∀ m ∈ cls.methods, ∃ method, p.method? m = some method ∧ method.cls = c) ∧
    ∀ f ∈ cls.fields, f.idx < p.fields.size := by
  unfold checkClass
  simp only [except_seq_ok, forM_ok, checkClassRef_ok, checkListedMethod_ok, checkListedField_ok]

theorem receiverFits_iff {call : Call} : receiverFits call = true ↔
    (call.kind = .static → call.receiver = none) ∧
    (call.kind ≠ .static → call.kind ≠ .dynamic → call.receiver ≠ none) := by
  unfold receiverFits
  cases call.kind <;> cases call.receiver <;> simp

theorem checkTarget_ok {method : Method} {s : Stmt} : p.checkTarget method s = .ok () ↔
    (∀ c, s.Names c → c.idx < p.classes.size) ∧ ∀ call, s = .invoke call → receiverFits call = true := by
  cases s with
  | alloc lhs cls =>
    refine checkClassRef_ok.trans ⟨fun h => ⟨fun c hc => ?_, nofun⟩, fun h => h.1 _ .allocated⟩
    cases hc; exact h
  | loadField lhs base field =>
    refine checkClassRef_ok.trans ⟨fun h => ⟨fun c hc => ?_, nofun⟩, fun h => h.1 _ .load⟩
    cases hc; exact h
  | storeField base field rhs =>
    refine checkClassRef_ok.trans ⟨fun h => ⟨fun c hc => ?_, nofun⟩, fun h => h.1 _ .store⟩
    cases hc; exact h
  | invoke call =>
    have hfits : (if receiverFits call then Except.ok () else
        .error (Malformed.wrongReceiver method.name call.kind call.receiver.isSome)) = .ok () ↔
        receiverFits call = true := by
      by_cases h : receiverFits call = true <;> simp [h]
    refine except_seq_ok.trans ((and_congr checkClassRef_ok hfits).trans ?_)
    refine ⟨fun h => ⟨fun c hc => ?_, fun call' hcall => ?_⟩, fun h => ⟨h.1 _ .call, h.2 call rfl⟩⟩
    · cases hc; exact h.1
    · cases hcall; exact h.2
  | copy lhs rhs => exact ⟨fun _ => ⟨nofun, nofun⟩, fun _ => rfl⟩
  | loadArray lhs base => exact ⟨fun _ => ⟨nofun, nofun⟩, fun _ => rfl⟩
  | storeArray base rhs => exact ⟨fun _ => ⟨nofun, nofun⟩, fun _ => rfl⟩
  | ret value => exact ⟨fun _ => ⟨nofun, nofun⟩, fun _ => rfl⟩
  | nop => exact ⟨fun _ => ⟨nofun, nofun⟩, fun _ => rfl⟩

theorem checkStmt_ok {m : MethodId} {method : Method} {s : Stmt} : p.checkStmt m method s = .ok () ↔
    (∀ v, s.Mentions v → p.owner? v = some m) ∧ (∀ c, s.Names c → c.idx < p.classes.size) ∧
    ∀ call, s = .invoke call → receiverFits call = true := by
  unfold checkStmt
  simp only [except_seq_ok, forM_ok, checkVar_ok, checkTarget_ok, Option.mem_toList, Stmt.mentions_iff,
    or_imp, forall_and, and_assoc]

theorem checkThis_ok {method : Method} :
    checkThis method = .ok () ↔ (method.isStatic = true ↔ method.thisVar = none) := by
  unfold checkThis
  cases method.isStatic <;> cases method.thisVar <;> simp

theorem checkMethod_ok {m : MethodId} {method : Method} : p.checkMethod m method = .ok () ↔
    method.cls.idx < p.classes.size ∧ (method.isStatic = true ↔ method.thisVar = none) ∧
    (∀ v, method.Mentions v → p.owner? v = some m) ∧
    (∀ s ∈ method.body, ∀ c, s.Names c → c.idx < p.classes.size) ∧
    ∀ call, .invoke call ∈ method.body → receiverFits call = true := by
  unfold checkMethod
  simp only [except_seq_ok, forM_ok, checkClassRef_ok, checkThis_ok, checkVar_ok, checkStmt_ok,
    Option.mem_toList, Array.mem_toList_iff]
  constructor
  · intro ⟨hcls, hthis, hown, hparams, hbody⟩
    refine ⟨hcls, hthis, fun v hv => ?_, fun s hs => (hbody s hs).2.1, fun call hcall => ?_⟩
    · cases hv with
      | this hv => exact hown v hv
      | param hv => exact hparams v hv
      | stmt hs hv => exact (hbody _ hs).1 v hv
    · exact (hbody _ hcall).2.2 call rfl
  · intro ⟨hcls, hthis, hown, hnames, hcalls⟩
    refine ⟨hcls, hthis, fun v hv => hown v (.this hv), fun v hv => hown v (.param hv), fun s hs => ?_⟩
    exact ⟨fun v hv => hown v (.stmt hs hv), hnames s hs, fun call hcall => hcalls call (hcall ▸ hs)⟩

theorem checkEntry_ok {entry : MethodId} : p.checkEntry = .ok entry ↔ p.entry = some entry ∧
    ∃ main, p.method? entry = some main ∧ main.isStatic = true ∧ main.isAbstract = false := by
  unfold checkEntry
  cases he : p.entry with
  | none => simp
  | some m =>
    by_cases hme : m = entry
    · subst hme
      cases hm : p.method? m with
      | none => simp [hm]
      | some main => cases hs : main.isStatic <;> cases ha : main.isAbstract <;> simp [hm, hs, ha]
    · cases hm : p.method? m with
      | none => simp [hm, hme]
      | some main => cases hs : main.isStatic <;> cases ha : main.isAbstract <;> simp [hm, hs, ha, hme]

theorem forall_zipIdx {α : Type} {e : Entity} {a : Array α} {P : Id e → α → Prop} :
    (∀ x ∈ a.toList.zipIdx, P ⟨x.2⟩ x.1) ↔ ∀ (i : Id e) (x : α), a[i.idx]? = some x → P i x := by
  constructor
  · intro h i x hx
    exact h (x, i.idx) (by simpa [List.mem_zipIdx_iff_getElem?] using hx)
  · intro h x hx
    exact h ⟨x.2⟩ x.1 (by simpa [List.mem_zipIdx_iff_getElem?] using hx)

theorem check_ok {entry : MethodId} : p.check = .ok entry ↔
    (∀ c cls, p.class? c = some cls → p.checkClass c cls = .ok ()) ∧ p.checkAcyclic = .ok () ∧
    (∀ field ∈ p.fields, p.checkField field = .ok ()) ∧
    (∀ m method, p.method? m = some method → p.checkMethod m method = .ok ()) ∧
    p.checkEntry = .ok entry := by
  unfold check
  simp only [except_seq_ok, forM_ok, Array.mem_toList_iff]
  exact and_congr (forall_zipIdx (P := fun c cls => p.checkClass c cls = .ok ()))
    (and_congr Iff.rfl (and_congr Iff.rfl
      (and_congr (forall_zipIdx (P := fun m method => p.checkMethod m method = .ok ())) Iff.rfl)))

/-- What the checks of classes, fields and methods say together about the references of a program. -/
theorem knows_of_checks (hclasses : ∀ c cls, p.class? c = some cls → p.checkClass c cls = .ok ())
    (hfields : ∀ field ∈ p.fields, p.checkField field = .ok ())
    (hmethods : ∀ m method, p.method? m = some method → p.checkMethod m method = .ok ())
    {entry : MethodId} (hentry : p.checkEntry = .ok entry) {r : Ref} (hr : p.Refers r) : p.Knows r := by
  cases hr with
  | superclass hc hs => exact (checkClass_ok.mp (hclasses _ _ hc)).1 _ (by simp [Class.supertypes, hs])
  | interface hc hs => exact (checkClass_ok.mp (hclasses _ _ hc)).1 _ (by simp [Class.supertypes, hs])
  | method hc hm =>
    obtain ⟨method, hmethod, _⟩ := (checkClass_ok.mp (hclasses _ _ hc)).2.1 _ hm
    exact (Array.getElem?_eq_some_iff.mp hmethod).1
  | field hc hf => exact (checkClass_ok.mp (hclasses _ _ hc)).2.2 _ hf
  | methodClass hm => exact (checkMethod_ok.mp (hmethods _ _ hm)).1
  | fieldClass hf => exact checkClassRef_ok.mp (hfields _ (Array.mem_of_getElem? hf))
  | var hm hv =>
    obtain ⟨var, hvar, _⟩ := Option.map_eq_some_iff.mp ((checkMethod_ok.mp (hmethods _ _ hm)).2.2.1 _ hv)
    exact (Array.getElem?_eq_some_iff.mp hvar).1
  | stmtClass hm hs hc => exact (checkMethod_ok.mp (hmethods _ _ hm)).2.2.2.1 _ hs _ hc
  | entry he =>
    obtain ⟨he', main, hmain, _⟩ := checkEntry_ok.mp hentry
    cases Option.some.inj (he.symm.trans he')
    exact (Array.getElem?_eq_some_iff.mp hmain).1

/-- A program is accepted exactly if it is well formed. -/
theorem check_iff_wellFormed {entry : MethodId} : p.check = .ok entry ↔ p.WellFormed entry := by
  rw [check_ok]
  constructor
  · intro ⟨hclasses, hacyclic, hfields, hmethods, hentry⟩
    constructor
    case known => exact fun r => knows_of_checks hclasses hfields hmethods hentry
    case owned => exact fun m method v hm => (checkMethod_ok.mp (hmethods m method hm)).2.2.1 v
    case declared =>
      intro c cls m method hc hm hmethod
      obtain ⟨method', hmethod', hcls⟩ := (checkClass_ok.mp (hclasses c cls hc)).2.1 m hm
      cases Option.some.inj (hmethod.symm.trans hmethod')
      exact hcls
    case acyclic => exact checkAcyclic_ok.mp hacyclic
    case this => exact fun m method hm => (checkMethod_ok.mp (hmethods m method hm)).2.1
    case receivers =>
      intro m method call hm hcall
      exact receiverFits_iff.mp ((checkMethod_ok.mp (hmethods m method hm)).2.2.2.2 call hcall)
    case starts => exact (checkEntry_ok.mp hentry).1
    case runnable => exact (checkEntry_ok.mp hentry).2
  · intro h
    refine ⟨fun c cls hc => checkClass_ok.mpr ⟨fun s hs => ?_, fun m hm => ?_, fun f hf => ?_⟩,
      checkAcyclic_ok.mpr h.acyclic, fun field hf => ?_, fun m method hm => ?_,
      checkEntry_ok.mpr ⟨h.starts, h.runnable⟩⟩
    · rcases List.mem_append.mp hs with hs | hs
      · exact h.known _ (.superclass hc (Option.mem_toList.mp hs))
      · exact h.known _ (.interface hc hs)
    · have hlt : m.idx < p.methods.size := h.known _ (.method hc hm)
      have hmethod : p.method? m = some p.methods[m.idx] := Array.getElem?_eq_getElem hlt
      exact ⟨_, hmethod, h.declared c cls m _ hc hm hmethod⟩
    · exact h.known _ (.field hc hf)
    · obtain ⟨i, hi⟩ := Array.mem_iff_getElem?.mp hf
      exact checkClassRef_ok.mpr (h.known _ (.fieldClass (f := ⟨i⟩) hi))
    · refine checkMethod_ok.mpr ⟨h.known _ (.methodClass hm), h.this m method hm,
        fun v => h.owned m method v hm, fun s hs c hc => h.known _ (.stmtClass hm hs hc), fun call hcall => ?_⟩
      exact receiverFits_iff.mpr (h.receivers m method call hm hcall)

end Program

/-! ## Lookups that must succeed -/

/-- Something that must be there: a failure without a cause says that it is not. -/
def demand {ε α : Type} : Option α → Except (Option ε) α
  | some a => .ok a
  | none => .error none

namespace Program
variable (p : Program)

def Marks.put? (marks : Marks) (c : ClassId) (m : Mark) : Option Marks :=
  if c.idx < marks.size then some (marks.setIfInBounds c.idx m) else none

def enterStrictly (visit : ClassId → Marks → Except (Option Halt) Marks) (c : ClassId)
    (marks : Marks) (s : ClassId) : Except (Option Halt) Marks := do
  match ← demand marks[s.idx]? with
  | .onPath => .error (some (.cycle c s))
  | .unvisited => visit s marks
  | .done => .ok marks

def visitStrictly : (depth : Nat) → ClassId → Marks → Except (Option Halt) Marks
  | 0, _, _ => .error (some .tooDeep)
  | depth + 1, c, marks => do
    let cls ← demand (p.class? c)
    let marks ← demand (marks.put? c .onPath)
    let marks ← cls.supertypes.foldlM (enterStrictly (visitStrictly depth) c) marks
    demand (marks.put? c .done)

def findCycleStrictly : Except (Option Halt) Marks :=
  p.classIds.foldlM
    (fun marks c => do
      let mark ← demand marks[c.idx]?
      if mark = .unvisited then p.visitStrictly p.classes.size c marks else .ok marks)
    p.noMarks

def checkAcyclicStrictly : Except (Option Malformed) Unit :=
  match p.findCycleStrictly with
  | .ok _ => .ok ()
  | .error none => .error none
  | .error (some .tooDeep) => .error (some .tooDeep)
  | .error (some (.cycle c s)) => do
    let cls ← demand (p.class? c)
    let sup ← demand (p.class? s)
    .error (some (.cycle cls.name sup.name))

def checkListedMethodStrictly (c : ClassId) (cls : Class) (m : MethodId) : Except (Option Malformed) Unit :=
  if m.idx < p.methods.size then do
    let method ← demand (p.method? m)
    if method.cls = c then .ok () else .error (some (.methodElsewhere cls.name m))
  else .error (some (.unknownMethod cls.name m))

def checkClassStrictly (c : ClassId) (cls : Class) : Except (Option Malformed) Unit := do
  (cls.supertypes.forM (p.checkClassRef ("class '" ++ cls.name ++ "'"))).mapError some
  cls.methods.forM (p.checkListedMethodStrictly c cls)
  (cls.fields.forM (p.checkListedField cls)).mapError some

/-- The checks, with lookups that must succeed wherever no check stands before. -/
def checkStrictly : Except (Option Malformed) MethodId := do
  p.classIds.forM fun c => do
    let cls ← demand (p.class? c)
    p.checkClassStrictly c cls
  p.checkAcyclicStrictly
  (p.fields.toList.forM p.checkField).mapError some
  p.methodIds.forM fun m => do
    let method ← demand (p.method? m)
    (p.checkMethod m method).mapError some
  p.checkEntry.mapError some

end Program

section
variable {ε ε' α β : Type} {h : ε → ε'}

theorem demand_bind {o : Option α} {a : α} (ho : o = some a) (f : α → Except (Option ε) β) :
    demand o >>= f = f a := by
  subst ho; rfl

theorem mapError_bind (x : Except ε α) (f : α → Except ε β) :
    (x >>= f).mapError h = x.mapError h >>= fun a => (f a).mapError h := by
  cases x <;> rfl

theorem forM_mapError {f : α → Except ε' Unit} {g : α → Except ε Unit} : ∀ {l : List α},
    (∀ x ∈ l, f x = (g x).mapError h) → l.forM f = (l.forM g).mapError h
  | [], _ => rfl
  | x :: l, hfg => by
    have hl := forM_mapError fun y hy => hfg y (List.mem_cons_of_mem x hy)
    show (f x >>= fun _ => l.forM f) = (g x >>= fun _ => l.forM g).mapError h
    rw [mapError_bind, hfg x List.mem_cons_self, hl]

/-- Looking up the items of a table one after the other. -/
theorem forM_demand {e : Entity} {a : Array α} {f : Id e → α → Except (Option ε) Unit}
    {g : Id e → α → Except ε Unit} (hfg : ∀ i x, f i x = (g i x).mapError some) :
    (((List.range a.size).map Id.mk).forM fun i => demand a[i.idx]? >>= f i) =
      (a.toList.zipIdx.forM fun x => g ⟨x.2⟩ x.1).mapError some := by
  have hids : (List.range a.size).map Id.mk = a.toList.zipIdx.map fun x => (⟨x.2⟩ : Id e) := by
    rw [List.range_eq_range', ← Array.length_toList, ← List.zipIdx_map_snd, List.map_map]
    rfl
  rw [hids]
  refine (List.forM_map ..).trans (forM_mapError fun x hx => ?_)
  have hx : a[x.2]? = some x.1 := by simpa [List.mem_zipIdx_iff_getElem?] using hx
  rw [demand_bind hx]
  exact hfg _ _

end

namespace Program
variable {p : Program}

theorem checkListedMethodStrictly_eq (c : ClassId) (cls : Class) (m : MethodId) :
    p.checkListedMethodStrictly c cls m = (p.checkListedMethod c cls m).mapError some := by
  unfold checkListedMethodStrictly checkListedMethod method?
  by_cases hm : m.idx < p.methods.size
  · rw [if_pos hm, Array.getElem?_eq_getElem hm]
    by_cases hc : p.methods[m.idx].cls = c
    · simp [demand, hc, bind, Except.bind, Except.mapError]
    · simp [demand, hc, bind, Except.bind, Except.mapError]
  · rw [if_neg hm, Array.getElem?_eq_none (Nat.le_of_not_lt hm)]
    rfl

theorem checkClassStrictly_eq (c : ClassId) (cls : Class) :
    p.checkClassStrictly c cls = (p.checkClass c cls).mapError some := by
  unfold checkClassStrictly checkClass
  rw [mapError_bind, mapError_bind, forM_mapError fun m _ => checkListedMethodStrictly_eq c cls m]

theorem visitStrictly_succ (depth : Nat) (c : ClassId) (marks : Marks) :
    p.visitStrictly (depth + 1) c marks = demand (p.class? c) >>= fun cls =>
      demand (marks.put? c .onPath) >>= fun marks =>
        cls.supertypes.foldlM (enterStrictly (p.visitStrictly depth) c) marks >>= fun marks =>
          demand (marks.put? c .done) := rfl

theorem Marks.getElem?_eq_of {marks : Marks} {c : ClassId} (hc : c.idx < marks.size) :
    marks[c.idx]? = some (marks.of c) := by
  simp [of, hc]

theorem Marks.put?_eq {marks : Marks} {c : ClassId} (hc : c.idx < marks.size) (m : Mark) :
    marks.put? c m = some (marks.setIfInBounds c.idx m) := if_pos hc

section
variable (hknown : ∀ c, ∀ s ∈ p.supertypes c, s.idx < p.classes.size)
include hknown

theorem visitStrictly_eq : ∀ (depth : Nat) (c : ClassId) (marks : Marks), p.Enters depth c marks →
    marks.size = p.classes.size → p.visitStrictly depth c marks = (p.visit depth c marks).mapError some
  | 0, _, _, h, _ => (not_enters_zero h).elim
  | depth + 1, c, marks, h, hsize => by
    have hc : c.idx < marks.size := Marks.lt_of_ne_done (by simp [h.fresh])
    have hcls : p.class? c = some (p.classes[c.idx]) := Array.getElem?_eq_getElem (hsize ▸ hc)
    have hsupers : p.classes[c.idx].supertypes = p.supertypes c := by simp [supertypes, hcls]
    have hb : ∀ b, p.Continues (marks.setIfInBounds c.idx .onPath) b → b.size = p.classes.size := by
      intro b hb
      rw [hb.settles.size, Array.size_setIfInBounds, hsize]
    have henter : ∀ s ∈ p.supertypes c, ∀ b, p.Continues (marks.setIfInBounds c.idx .onPath) b →
        enterStrictly (p.visitStrictly depth) c b s = (p.enter depth c b s).mapError some := by
      intro s hs b hcont
      have hlt : s.idx < b.size := (hb b hcont).symm ▸ hknown c s hs
      unfold enterStrictly enter
      rw [demand_bind (Marks.getElem?_eq_of hlt)]
      cases hmark : b.of s with
      | onPath => rfl
      | unvisited => exact visitStrictly_eq depth s b (h.next hcont hs hmark) (hb b hcont)
      | done => rfl
    have hfold := foldlM_mapError h.continues henter h.keeps
    have hvisits := visits_each h.continues fun s hs b => h.visits_enter (visits_visit depth) hs
    rw [visitStrictly_succ, demand_bind hcls, demand_bind (Marks.put?_eq hc _), hsupers, hfold, visit_succ,
      mapError_bind]
    cases hf : (p.supertypes c).foldlM (p.enter depth c) (marks.setIfInBounds c.idx .onPath) with
    | error e => rfl
    | ok b =>
      have hlt : c.idx < b.size := by rw [hb b (hvisits.ok hf).1, ← hsize]; exact hc
      show demand (b.put? c .done) = _
      rw [Marks.put?_eq hlt]
      rfl

theorem findCycleStrictly_eq : p.findCycleStrictly = p.findCycle.mapError some := by
  have hsize : ∀ b, p.Continues p.noMarks b → b.size = p.classes.size := by
    intro b hb
    rw [hb.settles.size]
    exact Array.size_replicate
  refine foldlM_mapError (continues_noMarks p) (fun c hc b hb => ?_) fun c _ b b' hb hok =>
    hb.trans ((visits_root (Nat.le_refl _) hb).ok hok).1
  have hlt : c.idx < b.size := by
    obtain ⟨i, hi, rfl⟩ := List.mem_map.mp hc
    rw [hsize b hb]
    exact List.mem_range.mp hi
  rw [demand_bind (Marks.getElem?_eq_of hlt)]
  by_cases hmark : b.of c = .unvisited
  · rw [if_pos hmark, if_pos hmark]
    exact visitStrictly_eq hknown _ c b (enters_root (Nat.le_refl _) hb hmark) (hsize b hb)
  · rw [if_neg hmark, if_neg hmark]
    rfl

theorem checkAcyclicStrictly_eq : p.checkAcyclicStrictly = p.checkAcyclic.mapError some := by
  unfold checkAcyclicStrictly checkAcyclic
  rw [findCycleStrictly_eq hknown]
  cases hf : p.findCycle with
  | ok marks => rfl
  | error e =>
    obtain ⟨c, s, cls, sup, rfl, hcls, hsup⟩ := ((yields_findCycle p).error hf).known
    show demand (p.class? c) >>= _ = _
    rw [demand_bind hcls, demand_bind hsup]
    simp [Except.mapError, hcls, hsup]

end

/-- Nothing is looked up in vain. -/
theorem checkStrictly_eq (p : Program) : p.checkStrictly = p.check.mapError some := by
  have hclasses := forM_demand (a := p.classes) fun c cls => checkClassStrictly_eq (p := p) c cls
  have hmethods := forM_demand (a := p.methods) (g := p.checkMethod) fun m method => rfl
  have hstrict : p.checkStrictly = (p.classes.toList.zipIdx.forM fun x => p.checkClass ⟨x.2⟩ x.1).mapError some
      >>= fun _ => p.checkAcyclicStrictly >>= fun _ => (p.fields.toList.forM p.checkField).mapError some
      >>= fun _ => (p.methods.toList.zipIdx.forM fun x => p.checkMethod ⟨x.2⟩ x.1).mapError some
      >>= fun _ => p.checkEntry.mapError some := by
    rw [← hclasses, ← hmethods]
    rfl
  have hcheck : p.check = (p.classes.toList.zipIdx.forM fun x => p.checkClass ⟨x.2⟩ x.1)
      >>= fun _ => p.checkAcyclic >>= fun _ => p.fields.toList.forM p.checkField
      >>= fun _ => (p.methods.toList.zipIdx.forM fun x => p.checkMethod ⟨x.2⟩ x.1)
      >>= fun _ => p.checkEntry := rfl
  rw [hstrict, hcheck]
  simp only [mapError_bind]
  cases hok : p.classes.toList.zipIdx.forM fun x => p.checkClass ⟨x.2⟩ x.1 with
  | error e => rfl
  | ok _ =>
    -- The search for cycles comes after the classes, and relies on what was checked there.
    have hall := forall_zipIdx (P := fun c cls => p.checkClass c cls = .ok ()) |>.mp (forM_ok.mp hok)
    have hknown : ∀ c, ∀ s ∈ p.supertypes c, s.idx < p.classes.size := by
      intro c s hs
      obtain ⟨cls, hc⟩ := class_of_supertype hs
      exact (checkClass_ok.mp (hall c cls hc)).1 s (by simpa [supertypes, hc] using hs)
    rw [checkAcyclicStrictly_eq hknown]

/-- A variable whose owner is not there is mentioned nowhere. -/
theorem WellFormed.not_mentions {entry : MethodId} (h : p.WellFormed entry) {v : VarId} {var : Var}
    (hv : p.var? v = some var) (hvar : p.method? var.method = none) {m : MethodId} {method : Method}
    (hm : p.method? m = some method) : ¬ method.Mentions v := by
  intro hmentions
  have howner := h.owned m method v hm hmentions
  rw [owner?, hv, Option.map_some, Option.some.injEq] at howner
  rw [howner, hm] at hvar
  cases hvar

/-- **What validity accepts.** Checking a program looks nothing up that is not there. It accepts
exactly the programs that are well formed; of their variables only those that no method mentions may
belong to a method that is not there. -/
theorem check_exact (p : Program) : p.checkStrictly = p.check.mapError some ∧
    ∀ entry, (p.check = .ok entry ↔ p.WellFormed entry) ∧
      (p.check = .ok entry → ∀ v var, p.var? v = some var → p.method? var.method = none →
        ∀ m method, p.method? m = some method → ¬ method.Mentions v) := by
  refine ⟨checkStrictly_eq p, fun entry => ⟨check_iff_wellFormed, fun h v var hv hvar m method hm => ?_⟩⟩
  exact (check_iff_wellFormed.mp h).not_mentions hv hvar hm

end Program

/-! ## A variable without a method -/

namespace Stray

/-- The second variable says that it belongs to a tenth method. -/
def program : Program where
  classes := #[⟨"Main", none, [], false, false, [⟨0⟩], []⟩]
  methods := #[⟨"main", ⟨0⟩, "main()", true, false, none, [], #[.alloc ⟨0⟩ ⟨0⟩]⟩]
  fields := #[]
  vars := #[⟨"x", ⟨0⟩⟩, ⟨"stray", ⟨9⟩⟩]
  entry := some ⟨0⟩

end Stray

/-- A program is accepted though a variable belongs to no method of it, and has no text. -/
theorem check_misses_owner : Stray.program.check = .ok ⟨0⟩ ∧
    ∃ v var, Stray.program.var? v = some var ∧ Stray.program.method? var.method = none ∧
      Stray.program.varText? v = none :=
  ⟨rfl, ⟨1⟩, ⟨"stray", ⟨9⟩⟩, rfl, rfl, rfl⟩

end PointsTo
