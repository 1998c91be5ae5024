import PointsTo.Program.Builder
import PointsTo.Proofs.Acceptance

/-!
# Programs built step by step

Whoever builds a program and passes on only identifiers that were given out
before meets no failure on the way. The program is then accepted unless it has
no static entry, or a statement has a variable of another method, or its class
hierarchy has a cycle; and a cycle can only come from a class that was made to
implement another after the fact.
-/

namespace PointsTo

/-! ## Operations -/

inductive Form
  | alloc (lhs : VarId) (cls : ClassId)
  | copy (lhs rhs : VarId)
  | loadField (lhs base : VarId) (field : FieldRef)
  | storeField (base : VarId) (field : FieldRef) (rhs : VarId)
  | loadStatic (lhs : VarId) (field : FieldRef)
  | storeStatic (field : FieldRef) (rhs : VarId)
  | loadArray (lhs base : VarId)
  | storeArray (base rhs : VarId)
  | invokeStatic (target : MethodRef) (args : List VarId) (result : Option VarId)
  | invokeVirtual (receiver : VarId) (target : MethodRef) (args : List VarId) (result : Option VarId)
  | invokeInterface (receiver : VarId) (target : MethodRef) (args : List VarId) (result : Option VarId)
  | invokeSpecial (receiver : VarId) (target : MethodRef) (args : List VarId) (result : Option VarId)
  | invokeDynamic (receiver : Option VarId) (target : MethodRef) (args : List VarId) (result : Option VarId)
  | ret (value : Option VarId)
  | nop

def Form.stmt : Form → Stmt
  | .alloc lhs cls => .alloc lhs cls
  | .copy lhs rhs => .copy lhs rhs
  | .loadField lhs base field => .loadField lhs (some base) field
  | .storeField base field rhs => .storeField (some base) field rhs
  | .loadStatic lhs field => .loadField lhs none field
  | .storeStatic field rhs => .storeField none field rhs
  | .loadArray lhs base => .loadArray lhs base
  | .storeArray base rhs => .storeArray base rhs
  | .invokeStatic target args result => .staticCall target args result
  | .invokeVirtual receiver target args result => .instanceCall .virtual receiver target args result
  | .invokeInterface receiver target args result => .instanceCall .interface receiver target args result
  | .invokeSpecial receiver target args result => .instanceCall .special receiver target args result
  | .invokeDynamic receiver target args result => .dynamicCall receiver target args result
  | .ret value => .ret value
  | .nop => .nop

inductive Edit
  | addClass (name : String) (superclass : Option ClassId)
  | addAbstractClass (name : String) (superclass : Option ClassId)
  | addInterface (name : String) (extended : List ClassId)
  | implement (c iface : ClassId)
  | addField (c : ClassId) (name : String) (isStatic : Bool)
  | addMethod (kind : Program.MethodKind) (c : ClassId) (name : String) (subsignature : Subsignature)
      (params : List String)
  | addVar (m : MethodId) (name : String)
  | thisOf (m : MethodId)
  | paramOf (m : MethodId) (i : Nat)
  | setEntry (m : MethodId)
  | addStmt (m : MethodId) (form : Form)

deriving instance DecidableEq for Ref

def Stmt.classes : Stmt → List ClassId
  | .alloc _ cls => [cls]
  | .loadField _ _ field | .storeField _ field _ => [field.cls]
  | .invoke call => [call.target.cls]
  | .copy .. | .loadArray .. | .storeArray .. | .ret _ | .nop => []

def Stmt.refs (s : Stmt) : List Ref := (s.defined.toList ++ s.used).map .var ++ s.classes.map .cls

namespace Edit

def refs : Edit → List Ref
  | .addClass _ superclass | .addAbstractClass _ superclass => superclass.toList.map .cls
  | .addInterface _ extended => extended.map .cls
  | .implement c iface => [.cls c, .cls iface]
  | .addField c _ _ | .addMethod _ c _ _ _ => [.cls c]
  | .addVar m _ | .thisOf m | .paramOf m _ | .setEntry m => [.method m]
  | .addStmt m form => .method m :: form.stmt.refs

def giving {e : Entity} (ref : Id e → Ref) (x : Id e × Program) : List Ref × Program := ([ref x.1], x.2)

def perform (p : Program) : Edit → Option (List Ref × Program)
  | .addClass name superclass => some (giving .cls (p.addClass name superclass))
  | .addAbstractClass name superclass => some (giving .cls (p.addAbstractClass name superclass))
  | .addInterface name extended => some (giving .cls (p.addInterface name extended))
  | .implement c iface => (p.implement c iface).map fun p => ([], p)
  | .addField c name isStatic => (p.addField c name isStatic).map (giving .field)
  | .addMethod kind c name subsignature params =>
    (p.addMethod kind c name subsignature params).map (giving .method)
  | .addVar m name => some (giving .var (p.addVar m name))
  | .thisOf m => (p.thisOf? m).map fun v => (v.toList.map .var, p)
  | .paramOf m i => (p.paramOf? m i).map fun v => (v.toList.map .var, p)
  | .setEntry m => some ([], p.setEntry m)
  | .addStmt m form => (p.addStmt m form.stmt).map fun x => ([], x.2)

def entry? : Edit → Option MethodId
  | .setEntry m => some m
  | _ => none

def stmt? : Edit → Option (MethodId × Stmt)
  | .addStmt m form => some (m, form.stmt)
  | _ => none

end Edit

structure Session where
  program : Program
  given : List Ref

namespace Session

def start : Session := ⟨.empty, []⟩

def perform (s : Session) (e : Edit) : Option Session :=
  (e.perform s.program).map fun x => ⟨x.2, s.given ++ x.1⟩

def run : Session → List Edit → Option Session
  | s, [] => some s
  | s, e :: edits => (s.perform e).bind fun s => s.run edits

/-- Each operation is passed identifiers that earlier ones have given out. -/
def Fair : Session → List Edit → Prop
  | _, [] => True
  | s, e :: edits => (∀ r ∈ e.refs, r ∈ s.given) ∧ ∀ s' ∈ s.perform e, s'.Fair edits

end Session

/-! ## Programs in order -/

namespace Program

def HasStmt (p : Program) (m : MethodId) (s : Stmt) : Prop :=
  ∃ method, p.method? m = some method ∧ s ∈ method.body

/-- A method that is in order but for the variables in its statements. -/
structure MethodSound (p : Program) (m : MethodId) (method : Method) : Prop where
  cls : method.cls.idx < p.classes.size
  concrete : method.isStatic = true → method.isAbstract = false
  this : method.isStatic = true ↔ method.thisVar = none
  own : ∀ v, method.thisVar = some v ∨ v ∈ method.params → p.owner? v = some m
  names : ∀ s ∈ method.body, ∀ c, s.Names c → c.idx < p.classes.size
  calls : ∀ call, .invoke call ∈ method.body → receiverFits call = true

structure Sound (p : Program) : Prop where
  classes : ∀ c cls, p.class? c = some cls → p.checkClass c cls = .ok ()
  fields : ∀ f field, p.field? f = some field → field.cls.idx < p.classes.size
  methods : ∀ m method, p.method? m = some method → p.MethodSound m method

structure Keeps (p p' : Program) : Prop where
  classes : p.classes.size ≤ p'.classes.size
  fields : p.fields.size ≤ p'.fields.size
  methods : ∀ m method, p.method? m = some method →
    ∃ method', p'.method? m = some method' ∧ method'.cls = method.cls
  vars : ∀ v m, p.owner? v = some m → p'.owner? v = some m

section
variable {p p' : Program}

/-- Of a program in order only the three causes are left to check. -/
theorem Sound.check_ok (h : p.Sound) {entry : MethodId} : p.check = .ok entry ↔
    (p.entry = some entry ∧ ∃ main, p.method? entry = some main ∧ main.isStatic = true) ∧
    (∀ m s v, p.HasStmt m s → s.Mentions v → p.owner? v = some m) ∧ p.Acyclic := by
  rw [Program.check_ok]
  constructor
  · intro ⟨_, hacyclic, _, hmethods, hentry⟩
    obtain ⟨he, main, hm, hs, _⟩ := checkEntry_ok.mp hentry
    refine ⟨⟨he, main, hm, hs⟩, ?_, checkAcyclic_ok.mp hacyclic⟩
    intro m s v ⟨method, hm, hs⟩ hv
    exact (checkMethod_ok.mp (hmethods m method hm)).2.2.1 v (.stmt hs hv)
  · intro ⟨⟨he, main, hm, hs⟩, howned, hacyclic⟩
    refine ⟨h.classes, checkAcyclic_ok.mpr hacyclic, fun field hf => ?_, fun m method hm => ?_,
      checkEntry_ok.mpr ⟨he, main, hm, hs, (h.methods _ _ hm).concrete hs⟩⟩
    · obtain ⟨i, hi⟩ := Array.mem_iff_getElem?.mp hf
      exact checkClassRef_ok.mpr (h.fields ⟨i⟩ field hi)
    · have hmethod := h.methods m method hm
      refine checkMethod_ok.mpr ⟨hmethod.cls, hmethod.this, fun v hv => ?_, hmethod.names, hmethod.calls⟩
      cases hv with
      | this hv => exact hmethod.own v (Or.inl hv)
      | param hv => exact hmethod.own v (Or.inr hv)
      | stmt hs hv => exact howned m _ v ⟨method, hm, hs⟩ hv

theorem knows_method {m : MethodId} : p.Knows (.method m) ↔ ∃ method, p.method? m = some method :=
  ⟨fun hm => ⟨_, Array.getElem?_eq_getElem hm⟩, fun ⟨_, hm⟩ => (Array.getElem?_eq_some_iff.mp hm).1⟩

theorem knows_var {v : VarId} : p.Knows (.var v) ↔ ∃ m, p.owner? v = some m := by
  constructor
  · intro hv
    exact ⟨_, congrArg (Option.map Var.method) (Array.getElem?_eq_getElem hv)⟩
  · intro ⟨m, hv⟩
    obtain ⟨_, hv, _⟩ := Option.map_eq_some_iff.mp hv
    exact (Array.getElem?_eq_some_iff.mp hv).1

namespace Keeps

theorem of_eq (hclasses : p.classes.size ≤ p'.classes.size) (hfields : p.fields.size ≤ p'.fields.size)
    (hmethods : p'.methods = p.methods) (hvars : p'.vars = p.vars) : p.Keeps p' := by
  refine ⟨hclasses, hfields, fun m method hm => ⟨method, ?_, rfl⟩, fun v m hv => ?_⟩
  · rwa [method?, hmethods]
  · rwa [owner?, var?, hvars]

theorem refl (p : Program) : p.Keeps p := .of_eq (Nat.le_refl _) (Nat.le_refl _) rfl rfl

theorem trans {p'' : Program} (h : p.Keeps p') (h' : p'.Keeps p'') : p.Keeps p'' where
  classes := Nat.le_trans h.classes h'.classes
  fields := Nat.le_trans h.fields h'.fields
  methods m method hm := by
    obtain ⟨method', hm', hcls⟩ := h.methods m method hm
    obtain ⟨method'', hm'', hcls'⟩ := h'.methods m method' hm'
    exact ⟨method'', hm'', hcls'.trans hcls⟩
  vars v m hv := h'.vars v m (h.vars v m hv)

theorem knows (h : p.Keeps p') {r : Ref} (hr : p.Knows r) : p'.Knows r := by
  cases r with
  | cls c => exact Nat.lt_of_lt_of_le hr h.classes
  | field f => exact Nat.lt_of_lt_of_le hr h.fields
  | method m =>
    obtain ⟨_, hm, _⟩ := h.methods m _ (Array.getElem?_eq_getElem hr)
    exact (Array.getElem?_eq_some_iff.mp hm).1
  | var v =>
    obtain ⟨m, hv⟩ := knows_var.mp hr
    exact knows_var.mpr ⟨m, h.vars v m hv⟩

theorem checkClass (h : p.Keeps p') {c : ClassId} {cls : Class} (hc : p.checkClass c cls = .ok ()) :
    p'.checkClass c cls = .ok () := by
  obtain ⟨hsupers, hmethods, hfields⟩ := checkClass_ok.mp hc
  refine checkClass_ok.mpr ⟨fun s hs => Nat.lt_of_lt_of_le (hsupers s hs) h.classes, fun m hm => ?_,
    fun f hf => Nat.lt_of_lt_of_le (hfields f hf) h.fields⟩
  obtain ⟨method, hmethod, hcls⟩ := hmethods m hm
  obtain ⟨method', hmethod', hcls'⟩ := h.methods m method hmethod
  exact ⟨method', hmethod', hcls'.trans hcls⟩

theorem methodSound (h : p.Keeps p') {m : MethodId} {method : Method} (hm : p.MethodSound m method) :
    p'.MethodSound m method where
  cls := Nat.lt_of_lt_of_le hm.cls h.classes
  concrete := hm.concrete
  this := hm.this
  own v hv := h.vars v m (hm.own v hv)
  names s hs c hc := Nat.lt_of_lt_of_le (hm.names s hs c hc) h.classes
  calls := hm.calls

/-- A program stays in order if all that is new in it is. -/
theorem sound (h : p.Keeps p') (hp : p.Sound)
    (hclasses : ∀ c cls, p'.class? c = some cls → p.class? c = some cls ∨ p'.checkClass c cls = .ok ())
    (hfields : ∀ f field, p'.field? f = some field → p.field? f = some field ∨ field.cls.idx < p'.classes.size)
    (hmethods : ∀ m method, p'.method? m = some method → p.method? m = some method ∨ p'.MethodSound m method) :
    p'.Sound where
  classes c cls hc := (hclasses c cls hc).elim (fun hc => h.checkClass (hp.classes c cls hc)) id
  fields f field hf :=
    (hfields f field hf).elim (fun hf => Nat.lt_of_lt_of_le (hp.fields f field hf) h.classes) id
  methods m method hm := (hmethods m method hm).elim (fun hm => h.methodSound (hp.methods m method hm)) id

end Keeps

/-- A step that adds no statement, leaves the entry and closes no cycle. -/
structure Quiet (p p' : Program) : Prop extends Keeps p p' where
  entry : p'.entry = p.entry
  stmts : ∀ m s, p'.HasStmt m s ↔ p.HasStmt m s
  acyclic : p.Acyclic → p'.Acyclic

namespace Quiet

theorem refl (p : Program) : p.Quiet p := ⟨.refl p, rfl, fun _ _ => Iff.rfl, id⟩

theorem trans {p'' : Program} (h : p.Quiet p') (h' : p'.Quiet p'') : p.Quiet p'' where
  toKeeps := h.toKeeps.trans h'.toKeeps
  entry := h'.entry.trans h.entry
  stmts m s := (h'.stmts m s).trans (h.stmts m s)
  acyclic hp := h'.acyclic (h.acyclic hp)

end Quiet

/-! ## One table at a time -/

theorem getElem?_push_some {α : Type} {a : Array α} {x y : α} {i : Nat} (h : (a.push x)[i]? = some y) :
    a[i]? = some y ∨ i = a.size ∧ y = x := by
  rw [Array.getElem?_push] at h
  by_cases hi : i = a.size
  · rw [if_pos hi] at h
    exact Or.inr ⟨hi, (Option.some.inj h).symm⟩
  · rw [if_neg hi] at h
    exact Or.inl h

theorem getElem?_push_of_some {α : Type} {a : Array α} {x y : α} {i : Nat} (h : a[i]? = some y) :
    (a.push x)[i]? = some y := by
  have hi := (Array.getElem?_eq_some_iff.mp h).1
  rw [Array.getElem?_push, if_neg (Nat.ne_of_lt hi), h]

theorem getElem?_modify_eq_some {α : Type} {a : Array α} {f : α → α} {i j : Nat} {y : α} :
    (a.modify i f)[j]? = some y ↔ ∃ x, a[j]? = some x ∧ (if i = j then f x else x) = y := by
  rw [Array.getElem?_modify]
  by_cases hij : i = j <;> simp [hij]

theorem supertypes_of_class {c : ClassId} {cls : Class} (h : p.class? c = some cls) :
    p.supertypes c = cls.supertypes := by
  simp [supertypes, h]

theorem Sound.supertypes_lt (hp : p.Sound) {a b : ClassId} (h : b ∈ p.supertypes a) :
    b.idx < p.classes.size := by
  obtain ⟨cls, ha⟩ := class_of_supertype h
  exact (checkClass_ok.mp (hp.classes a cls ha)).1 b (supertypes_of_class ha ▸ h)

theorem acyclic_congr (h : p'.supertypes = p.supertypes) (hp : p.Acyclic) : p'.Acyclic := by
  unfold Acyclic
  rw [h]
  exact hp

theorem Sound.acyclic_pushClass (hp : p.Sound) {cls : Class} (hcls : ∀ s ∈ cls.supertypes, s.idx < p.classes.size)
    (hacyclic : p.Acyclic) : (p.pushClass cls).2.Acyclic := by
  have hold : ∀ a b, b ∈ (p.pushClass cls).2.supertypes a → a.idx < p.classes.size → b ∈ p.supertypes a := by
    intro a b hb ha
    have ha : p.class? a = some p.classes[a.idx] := Array.getElem?_eq_getElem ha
    have ha' : (p.pushClass cls).2.class? a = some p.classes[a.idx] := getElem?_push_of_some ha
    rw [supertypes_of_class ha'] at hb
    rwa [supertypes_of_class ha]
  have hlt : ∀ a b, b ∈ (p.pushClass cls).2.supertypes a → b.idx < p.classes.size := by
    intro a b hb
    obtain ⟨cls', ha⟩ := class_of_supertype hb
    rcases getElem?_push_some ha with ha | ⟨_, rfl⟩
    · exact hp.supertypes_lt (hold a b hb (Array.getElem?_eq_some_iff.mp ha).1)
    · exact hcls b (supertypes_of_class ha ▸ hb)
  -- A path of the new hierarchy leads to an old class, so one from an old class is a path of the old one.
  have hpath : ∀ a b, Relation.TransGen (fun a b => b ∈ (p.pushClass cls).2.supertypes a) a b →
      b.idx < p.classes.size ∧
        (a.idx < p.classes.size → Relation.TransGen (fun a b => b ∈ p.supertypes a) a b) := by
    intro a b h
    induction h with
    | single hb => exact ⟨hlt _ _ hb, fun ha => .single (hold _ _ hb ha)⟩
    | tail _ hc ih => exact ⟨hlt _ _ hc, fun ha => (ih.2 ha).tail (hold _ _ hc ih.1)⟩
  intro c hc
  exact hacyclic c ((hpath c c hc).2 (hpath c c hc).1)

theorem Sound.pushClass (hp : p.Sound) (cls : Class) (hcls : ∀ s ∈ cls.supertypes, s.idx < p.classes.size)
    (hmethods : cls.methods = []) (hfields : cls.fields = []) :
    (p.pushClass cls).2.Knows (.cls (p.pushClass cls).1) ∧ (p.pushClass cls).2.Sound ∧
      p.Quiet (p.pushClass cls).2 := by
  have hkeeps : p.Keeps (p.pushClass cls).2 :=
    .of_eq (by simp [Program.pushClass]) (Nat.le_refl _) rfl rfl
  refine ⟨by simp [Knows, Program.pushClass], ?_, hkeeps, rfl, fun _ _ => Iff.rfl, hp.acyclic_pushClass hcls⟩
  refine hkeeps.sound hp (fun c cls' hc => ?_) (fun _ _ => Or.inl) fun _ _ => Or.inl
  rcases getElem?_push_some hc with hc | ⟨_, rfl⟩
  · exact Or.inl hc
  · refine Or.inr (checkClass_ok.mpr ⟨fun s hs => ?_, by simp [hmethods], by simp [hfields]⟩)
    exact Nat.lt_of_lt_of_le (hcls s hs) hkeeps.classes

/-- A class is replaced by one that is in order. -/
theorem Sound.modifyClass (hp : p.Sound) {c : ClassId} (hc : p.Knows (.cls c)) {f : Class → Class}
    (hf : ∀ cls, p.class? c = some cls → p.checkClass c (f cls) = .ok ()) :
    ∃ p', p.modifyClass? c f = some p' ∧ p'.Sound ∧ p.Keeps p' ∧ p'.entry = p.entry ∧
      p'.methods = p.methods ∧ ((∀ cls, (f cls).supertypes = cls.supertypes) → p'.supertypes = p.supertypes) := by
  refine ⟨{ p with classes := p.classes.modify c.idx f }, if_pos hc, ?_⟩
  have hkeeps : p.Keeps { p with classes := p.classes.modify c.idx f } :=
    .of_eq (by simp) (Nat.le_refl _) rfl rfl
  refine ⟨hkeeps.sound hp (fun d cls hd => ?_) (fun _ _ => Or.inl) (fun _ _ => Or.inl),
    hkeeps, rfl, rfl, fun hsupers => ?_⟩
  · obtain ⟨old, hold, rfl⟩ := getElem?_modify_eq_some.mp hd
    by_cases hcd : c.idx = d.idx
    · obtain rfl := Id.ext_idx hcd
      rw [if_pos rfl]
      exact Or.inr (hkeeps.checkClass (hf old hold))
    · rw [if_neg hcd]
      exact Or.inl hold
  · funext d
    unfold supertypes class?
    rw [Array.getElem?_modify]
    split
    · cases p.classes[d.idx]? with
      | none => rfl
      | some cls => exact hsupers cls
    · rfl

/-- A member of a class is listed there. -/
theorem Sound.listMember (hp : p.Sound) {c : ClassId} (hc : p.Knows (.cls c)) {f : Class → Class}
    (hf : ∀ cls, p.class? c = some cls → p.checkClass c (f cls) = .ok ())
    (hsupers : ∀ cls, (f cls).supertypes = cls.supertypes) :
    ∃ p', p.modifyClass? c f = some p' ∧ p'.Sound ∧ p.Quiet p' := by
  obtain ⟨p', heq, hp', hkeeps, hentry, hmethods, hsame⟩ := hp.modifyClass hc hf
  refine ⟨p', heq, hp', hkeeps, hentry, fun m s => ?_, acyclic_congr (hsame hsupers)⟩
  unfold HasStmt method?
  rw [hmethods]

theorem Sound.implement (hp : p.Sound) {c iface : ClassId} (hc : p.Knows (.cls c)) (hi : p.Knows (.cls iface)) :
    ∃ p', p.implement c iface = some p' ∧ p'.Sound ∧ p.Keeps p' ∧ p'.entry = p.entry ∧
      p'.methods = p.methods := by
  obtain ⟨p', heq, hp', hkeeps, hentry, hmethods, _⟩ := hp.modifyClass hc
    (f := fun cls => { cls with interfaces := cls.interfaces ++ [iface] }) fun cls hcls => by
      obtain ⟨hsupers, hrest⟩ := checkClass_ok.mp (hp.classes c cls hcls)
      refine checkClass_ok.mpr ⟨fun s hs => ?_, hrest⟩
      have hs : s ∈ cls.supertypes ∨ s = iface := by
        simpa [Class.supertypes, or_assoc] using hs
      rcases hs with hs | rfl
      · exact hsupers s hs
      · exact hi
  exact ⟨p', heq, hp', hkeeps, hentry, hmethods⟩

theorem Sound.addField (hp : p.Sound) {c : ClassId} (hc : p.Knows (.cls c)) (name : String) (isStatic : Bool) :
    ∃ f p', p.addField c name isStatic = some (f, p') ∧ p'.Knows (.field f) ∧ p'.Sound ∧ p.Quiet p' := by
  have hquiet : p.Quiet { p with fields := p.fields.push ⟨name, c, isStatic⟩ } :=
    ⟨.of_eq (Nat.le_refl _) (by simp) rfl rfl, rfl, fun _ _ => Iff.rfl, id⟩
  have hp₁ : Sound { p with fields := p.fields.push ⟨name, c, isStatic⟩ } := by
    refine hquiet.toKeeps.sound hp (fun _ _ => Or.inl) (fun f field hf => ?_) fun _ _ => Or.inl
    rcases getElem?_push_some hf with hf | ⟨_, rfl⟩
    · exact Or.inl hf
    · exact Or.inr hc
  obtain ⟨p', heq, hp', hquiet'⟩ := hp₁.listMember (c := c) hc
    (f := fun cls => { cls with fields := cls.fields ++ [⟨p.fields.size⟩] }) (fun cls hcls => by
      obtain ⟨hsupers, hmethods, hfields⟩ := checkClass_ok.mp (hp₁.classes c cls hcls)
      refine checkClass_ok.mpr ⟨hsupers, hmethods, fun f hf => ?_⟩
      rcases List.mem_append.mp hf with hf | hf
      · exact hfields f hf
      · obtain rfl := List.mem_singleton.mp hf
        simp) (fun _ => rfl)
  refine ⟨⟨p.fields.size⟩, p', ?_, ?_, hp', hquiet.trans hquiet'⟩
  · simp only [Program.addField, heq]
    rfl
  · exact hquiet'.knows (r := .field ⟨p.fields.size⟩) (by simp [Knows])

theorem Sound.addVar (hp : p.Sound) (m : MethodId) (name : String) :
    (p.addVar m name).2.Knows (.var (p.addVar m name).1) ∧ (p.addVar m name).2.Sound ∧
      p.Quiet (p.addVar m name).2 := by
  have hkeeps : p.Keeps (p.addVar m name).2 := by
    refine ⟨Nat.le_refl _, Nat.le_refl _, fun _ method hm => ⟨method, hm, rfl⟩, fun v m' hv => ?_⟩
    obtain ⟨var, hvar, rfl⟩ := Option.map_eq_some_iff.mp hv
    exact Option.map_eq_some_iff.mpr ⟨var, getElem?_push_of_some hvar, rfl⟩
  refine ⟨by simp [Knows, Program.addVar], ?_, hkeeps, rfl, fun _ _ => Iff.rfl, id⟩
  exact hkeeps.sound hp (fun _ _ => Or.inl) (fun _ _ => Or.inl) fun _ _ => Or.inl

def declared (p : Program) (method : Method) (names : List String) : Program :=
  { p with
    methods := p.methods.push method
    vars := p.vars ++ (names.map fun n => Var.mk n ⟨p.methods.size⟩).toArray }

def newVars (p : Program) (names : List String) : List VarId :=
  (List.range' p.vars.size names.length).map Id.mk

theorem owner?_declared {method : Method} {names : List String} {v : VarId} (hv : v ∈ p.newVars names) :
    (p.declared method names).owner? v = some ⟨p.methods.size⟩ := by
  obtain ⟨i, hi, rfl⟩ := List.mem_map.mp hv
  obtain ⟨j, hj, rfl⟩ := List.mem_range'.mp hi
  simp [declared, owner?, var?, hj]

theorem keeps_declared (p : Program) (method : Method) (names : List String) :
    p.Keeps (p.declared method names) := by
  refine ⟨Nat.le_refl _, Nat.le_refl _, fun m old hm => ⟨old, getElem?_push_of_some hm, rfl⟩, fun v m hv => ?_⟩
  obtain ⟨var, hvar, rfl⟩ := Option.map_eq_some_iff.mp hv
  have hlt := (Array.getElem?_eq_some_iff.mp hvar).1
  exact Option.map_eq_some_iff.mpr ⟨var, (Array.getElem?_append_left hlt).trans hvar, rfl⟩

section
variable {method : Method} (names : List String) (hcls : p.Knows (.cls method.cls)) (hbody : method.body = #[])
  (hconcrete : method.isStatic = true → method.isAbstract = false)
  (hthis : method.isStatic = true ↔ method.thisVar = none)
  (hvars : ∀ v, method.thisVar = some v ∨ v ∈ method.params → v ∈ p.newVars names)
include hcls hbody hconcrete hthis hvars

theorem Sound.declared (hp : p.Sound) : (p.declared method names).Sound ∧ p.Quiet (p.declared method names) := by
  have hkeeps := p.keeps_declared method names
  refine ⟨hkeeps.sound hp (fun _ _ => Or.inl) (fun _ _ => Or.inl) fun m old hm => ?_,
    hkeeps, rfl, fun m s => ⟨?_, ?_⟩, id⟩
  · rcases getElem?_push_some hm with hm | ⟨hsize, rfl⟩
    · exact Or.inl hm
    · obtain rfl : m = ⟨p.methods.size⟩ := congrArg Id.mk hsize
      exact Or.inr ⟨hcls, hconcrete, hthis, fun v hv => owner?_declared (hvars v hv), by simp [hbody],
        by simp [hbody]⟩
  · intro ⟨old, hm, hs⟩
    rcases getElem?_push_some hm with hm | ⟨_, rfl⟩
    · exact ⟨old, hm, hs⟩
    · simp [hbody] at hs
  · intro ⟨old, hm, hs⟩
    exact ⟨old, getElem?_push_of_some hm, hs⟩

/-- A method without statements is added and listed in its class. -/
theorem Sound.listMethod (hp : p.Sound) :
    ∃ m p', (do
        let p' ← (p.declared method names).modifyClass? method.cls
          fun cls => { cls with methods := cls.methods ++ [⟨p.methods.size⟩] }
        return (⟨p.methods.size⟩, p')) = some (m, p') ∧ p'.Knows (.method m) ∧ p'.Sound ∧ p.Quiet p' := by
  obtain ⟨hp₁, hquiet⟩ := hp.declared names hcls hbody hconcrete hthis hvars
  have hnew : (p.declared method names).method? ⟨p.methods.size⟩ = some method := by
    simp [Program.declared, method?]
  obtain ⟨p', heq, hp', hquiet'⟩ := hp₁.listMember (c := method.cls) hcls
    (f := fun cls => { cls with methods := cls.methods ++ [⟨p.methods.size⟩] }) (fun cls hc => by
      obtain ⟨hsupers, hmethods, hfields⟩ := checkClass_ok.mp (hp₁.classes method.cls cls hc)
      refine checkClass_ok.mpr ⟨hsupers, fun m hm => ?_, hfields⟩
      rcases List.mem_append.mp hm with hm | hm
      · exact hmethods m hm
      · obtain rfl := List.mem_singleton.mp hm
        exact ⟨method, hnew, rfl⟩) (fun _ => rfl)
  refine ⟨⟨p.methods.size⟩, p', by rw [heq]; rfl, ?_, hp', hquiet.trans hquiet'⟩
  exact hquiet'.knows (knows_method.mpr ⟨method, hnew⟩)

end

theorem Sound.addMethod (hp : p.Sound) (kind : MethodKind) {c : ClassId} (hc : p.Knows (.cls c)) (name : String)
    (subsignature : Subsignature) (params : List String) :
    ∃ m p', p.addMethod kind c name subsignature params = some (m, p') ∧ p'.Knows (.method m) ∧ p'.Sound ∧
      p.Quiet p' := by
  cases kind with
  | static =>
    refine hp.listMethod params hc rfl (fun _ => rfl) ?_ ?_
    · simp
    · simp [newVars]
  | concrete | abstract =>
    refine hp.listMethod ("this" :: params) hc rfl nofun ?_ ?_
    · simp
    · intro v hv
      simp only [Bool.false_eq_true, if_false] at hv
      exact hv.elim List.mem_of_mem_head? List.mem_of_mem_tail

def appended (p : Program) (m : MethodId) (s : Stmt) : Program :=
  { p with methods := p.methods.modify m.idx fun method => { method with body := method.body.push s } }

theorem hasStmt_appended {m m' : MethodId} {s s' : Stmt} (hm : p.Knows (.method m)) :
    (p.appended m s).HasStmt m' s' ↔ p.HasStmt m' s' ∨ (m, s) = (m', s') := by
  constructor
  · intro ⟨_, hm', hs'⟩
    obtain ⟨method, hmethod, rfl⟩ := getElem?_modify_eq_some.mp hm'
    by_cases hmm : m.idx = m'.idx
    · rw [if_pos hmm] at hs'
      rcases Array.mem_push.mp hs' with hs' | rfl
      · exact Or.inl ⟨method, hmethod, hs'⟩
      · exact Or.inr (congrArg (·, s') (Id.ext_idx hmm))
    · rw [if_neg hmm] at hs'
      exact Or.inl ⟨method, hmethod, hs'⟩
  · rintro (⟨method, hmethod, hs'⟩ | h)
    · refine ⟨_, getElem?_modify_eq_some.mpr ⟨method, hmethod, rfl⟩, ?_⟩
      split
      · exact Array.mem_push_of_mem _ hs'
      · exact hs'
    · obtain ⟨rfl, rfl⟩ := Prod.mk.inj h
      obtain ⟨method, hmethod⟩ := knows_method.mp hm
      exact ⟨_, getElem?_modify_eq_some.mpr ⟨method, hmethod, if_pos rfl⟩, Array.mem_push_self⟩

theorem Sound.addStmt (hp : p.Sound) {m : MethodId} (hm : p.Knows (.method m)) {s : Stmt}
    (hnames : ∀ c, s.Names c → p.Knows (.cls c)) (hcall : ∀ call, s = .invoke call → receiverFits call = true) :
    ∃ i p', p.addStmt m s = some (i, p') ∧ p'.Sound ∧ p.Keeps p' ∧ p'.entry = p.entry ∧
      p'.supertypes = p.supertypes ∧ ∀ m' s', p'.HasStmt m' s' ↔ p.HasStmt m' s' ∨ (m, s) = (m', s') := by
  obtain ⟨target, htarget⟩ := knows_method.mp hm
  have heq : p.addStmt m s = some (⟨m, target.body.size⟩, p.appended m s) := by
    unfold Program.addStmt modifyMethod?
    rw [htarget, if_pos (show m.idx < p.methods.size from hm)]
    rfl
  have hkeeps : p.Keeps (p.appended m s) := by
    refine ⟨Nat.le_refl _, Nat.le_refl _, fun m' method hmethod => ?_, fun _ _ hv => hv⟩
    refine ⟨_, getElem?_modify_eq_some.mpr ⟨method, hmethod, rfl⟩, ?_⟩
    split <;> rfl
  refine ⟨_, _, heq, ?_, hkeeps, rfl, rfl, fun m' s' => hasStmt_appended hm⟩
  refine hkeeps.sound hp (fun _ _ => Or.inl) (fun _ _ => Or.inl) fun m' method' hm' => ?_
  obtain ⟨method, hmethod, rfl⟩ := getElem?_modify_eq_some.mp hm'
  by_cases hmm : m.idx = m'.idx
  · rw [if_pos hmm]
    have hold := hp.methods m' method hmethod
    refine Or.inr ⟨hold.cls, hold.concrete, hold.this, hold.own, fun s' hs' c hc => ?_, fun call hs' => ?_⟩
    · rcases Array.mem_push.mp hs' with hs' | rfl
      · exact hold.names s' hs' c hc
      · exact hnames c hc
    · rcases Array.mem_push.mp hs' with hs' | hs'
      · exact hold.calls call hs'
      · exact hcall call hs'.symm
  · rw [if_neg hmm]
    exact Or.inl hmethod

end

end Program

/-! ## Each operation -/

theorem Form.receiverFits {form : Form} {call : Call} (h : form.stmt = .invoke call) :
    Program.receiverFits call = true := by
  cases form <;> cases h <;> rfl

theorem Stmt.mem_classes {s : Stmt} {c : ClassId} : s.Names c → c ∈ s.classes
  | .allocated | .load | .store | .call => List.mem_singleton_self _

theorem Form.names {p : Program} {form : Form} (h : ∀ r ∈ form.stmt.refs, p.Knows r) {c : ClassId}
    (hc : form.stmt.Names c) : p.Knows (.cls c) :=
  h _ (List.mem_append_right _ (List.mem_map_of_mem (Stmt.mem_classes hc)))

namespace Edit

structure Meets (e : Edit) (p : Program) (out : List Ref × Program) : Prop where
  known : ∀ r ∈ out.1, out.2.Knows r
  sound : out.2.Sound
  keeps : p.Keeps out.2
  entry : out.2.entry = e.entry?.or p.entry
  stmts : ∀ m s, out.2.HasStmt m s ↔ p.HasStmt m s ∨ e.stmt? = some (m, s)
  acyclic : p.Acyclic → (∀ c iface, e ≠ .implement c iface) → out.2.Acyclic

variable {e : Edit} {p p' : Program}

theorem Meets.of_quiet {given : List Ref} (hentry : e.entry? = none) (hstmt : e.stmt? = none)
    (hknown : ∀ r ∈ given, p'.Knows r) (hp' : p'.Sound) (h : p.Quiet p') : e.Meets p (given, p') where
  known := hknown
  sound := hp'
  keeps := h.toKeeps
  entry := by rw [hentry]; exact h.entry
  stmts m s := by simp [hstmt, h.stmts m s]
  acyclic hp _ := h.acyclic hp

/-- An operation that is passed known identifiers does not fail. -/
theorem perform_meets (hp : p.Sound) (hrefs : ∀ r ∈ e.refs, p.Knows r) :
    ∃ out, e.perform p = some out ∧ e.Meets p out := by
  cases e with
  | addClass name superclass | addAbstractClass name superclass =>
    obtain ⟨hc, hp', hquiet⟩ := hp.pushClass ⟨name, superclass, [], false, _, [], []⟩
      (fun s hs => hrefs (.cls s) (List.mem_map_of_mem (by simpa [Class.supertypes] using hs))) rfl rfl
    exact ⟨_, rfl, .of_quiet rfl rfl (List.forall_mem_singleton.mpr hc) hp' hquiet⟩
  | addInterface name extended =>
    obtain ⟨hc, hp', hquiet⟩ := hp.pushClass ⟨name, none, extended, true, true, [], []⟩
      (fun s hs => hrefs (.cls s) (List.mem_map_of_mem hs)) rfl rfl
    exact ⟨_, rfl, .of_quiet rfl rfl (List.forall_mem_singleton.mpr hc) hp' hquiet⟩
  | implement c iface =>
    obtain ⟨p', heq, hp', hkeeps, hentry, hmethods⟩ := hp.implement (hrefs (.cls c) (by simp [refs]))
      (hrefs (.cls iface) (by simp [refs]))
    refine ⟨([], p'), by simp [perform, heq], List.forall_mem_nil _, hp', hkeeps, hentry, fun m s => ?_,
      fun _ h => absurd rfl (h c iface)⟩
    simp [Program.HasStmt, Program.method?, hmethods, stmt?]
  | addField c name isStatic =>
    obtain ⟨f, p', heq, hf, hp', hquiet⟩ := hp.addField (hrefs (.cls c) (by simp [refs])) name isStatic
    exact ⟨([.field f], p'), by simp [perform, giving, heq],
      .of_quiet rfl rfl (List.forall_mem_singleton.mpr hf) hp' hquiet⟩
  | addMethod kind c name subsignature params =>
    obtain ⟨m, p', heq, hm, hp', hquiet⟩ :=
      hp.addMethod kind (hrefs (.cls c) (by simp [refs])) name subsignature params
    exact ⟨([.method m], p'), by simp [perform, giving, heq],
      .of_quiet rfl rfl (List.forall_mem_singleton.mpr hm) hp' hquiet⟩
  | addVar m name =>
    obtain ⟨hv, hp', hquiet⟩ := hp.addVar m name
    exact ⟨_, rfl, .of_quiet rfl rfl (List.forall_mem_singleton.mpr hv) hp' hquiet⟩
  | thisOf m =>
    obtain ⟨method, hm⟩ := Program.knows_method.mp (hrefs (.method m) (by simp [refs]))
    refine ⟨(method.thisVar.toList.map .var, p), by simp [perform, Program.thisOf?, hm],
      .of_quiet rfl rfl (fun r hr => ?_) hp (.refl p)⟩
    obtain ⟨v, hv, rfl⟩ := List.mem_map.mp hr
    exact Program.knows_var.mpr ⟨m, (hp.methods m method hm).own v (Or.inl (Option.mem_toList.mp hv))⟩
  | paramOf m i =>
    obtain ⟨method, hm⟩ := Program.knows_method.mp (hrefs (.method m) (by simp [refs]))
    refine ⟨(method.params[i]?.toList.map .var, p), by simp [perform, Program.paramOf?, hm],
      .of_quiet rfl rfl (fun r hr => ?_) hp (.refl p)⟩
    obtain ⟨v, hv, rfl⟩ := List.mem_map.mp hr
    have hv := List.mem_of_getElem? (Option.mem_toList.mp hv)
    exact Program.knows_var.mpr ⟨m, (hp.methods m method hm).own v (Or.inr hv)⟩
  | setEntry m =>
    have hkeeps : p.Keeps (p.setEntry m) := .of_eq (Nat.le_refl _) (Nat.le_refl _) rfl rfl
    have hp' : (p.setEntry m).Sound :=
      hkeeps.sound hp (fun _ _ => Or.inl) (fun _ _ => Or.inl) fun _ _ => Or.inl
    exact ⟨_, rfl, List.forall_mem_nil _, hp', hkeeps, rfl, fun _ _ => (or_iff_left (by simp [stmt?])).symm,
      fun h _ => h⟩
  | addStmt m form =>
    obtain ⟨i, p', heq, hp', hkeeps, hentry, hsupers, hstmts⟩ := hp.addStmt (hrefs (.method m) (by simp [refs]))
      (fun c => Form.names fun r hr => hrefs r (List.mem_cons_of_mem _ hr)) fun call => Form.receiverFits
    refine ⟨([], p'), by simp [perform, heq], List.forall_mem_nil _, hp', hkeeps, hentry, fun m' s' => ?_,
      fun h _ => Program.acyclic_congr hsupers h⟩
    rw [hstmts, stmt?, Option.some.injEq]

end Edit

/-! ## A whole session -/

namespace Session

structure Follows (s : Session) (edits : List Edit) : Prop where
  sound : s.program.Sound
  known : ∀ r ∈ s.given, s.program.Knows r
  entry : s.program.entry = (edits.filterMap Edit.entry?).getLast?
  stmts : ∀ m st, s.program.HasStmt m st ↔ (m, st) ∈ edits.filterMap Edit.stmt?

variable {s : Session} {edits : List Edit} {e : Edit}

theorem Follows.perform (h : s.Follows edits) (hrefs : ∀ r ∈ e.refs, r ∈ s.given) :
    ∃ s', s.perform e = some s' ∧ s'.Follows (edits ++ [e]) ∧
      (s.program.Acyclic → (∀ c iface, e ≠ .implement c iface) → s'.program.Acyclic) := by
  obtain ⟨out, heq, hout⟩ := Edit.perform_meets h.sound fun r hr => h.known r (hrefs r hr)
  refine ⟨⟨out.2, s.given ++ out.1⟩, by simp [Session.perform, heq], ?_, hout.acyclic⟩
  refine ⟨hout.sound, fun r hr => ?_, ?_, fun m st => ?_⟩
  · rcases List.mem_append.mp hr with hr | hr
    · exact hout.keeps.knows (h.known r hr)
    · exact hout.known r hr
  · rw [hout.entry, h.entry, List.filterMap_append, List.getLast?_append]
    cases he : e.entry? with
    | none => simp [List.filterMap_cons_none he]
    | some m => simp [List.filterMap_cons_some he]
  · rw [hout.stmts, h.stmts, List.filterMap_append, List.mem_append]
    simp

theorem Follows.run : ∀ {rest : List Edit} {s : Session} {edits : List Edit}, s.Follows edits → s.Fair rest →
    ∃ s', s.run rest = some s' ∧ s'.Follows (edits ++ rest)
  | [], s, edits, h, _ => ⟨s, rfl, by rwa [List.append_nil]⟩
  | e :: rest, s, edits, h, hfair => by
    obtain ⟨s₁, hs₁, h₁, _⟩ := h.perform hfair.1
    obtain ⟨s', hs', h'⟩ := h₁.run (hfair.2 s₁ hs₁)
    refine ⟨s', ?_, by rwa [List.append_assoc] at h'⟩
    rw [Session.run, hs₁]
    exact hs'

theorem Fair.append : ∀ {edits rest : List Edit} {s s' : Session}, s.Fair (edits ++ rest) →
    s.run edits = some s' → s.Fair edits ∧ s'.Fair rest
  | [], rest, s, s', h, hrun => ⟨trivial, Option.some.inj hrun ▸ h⟩
  | e :: edits, rest, s, s', h, hrun => by
    obtain ⟨s₁, hs₁, hrun⟩ := Option.bind_eq_some_iff.mp hrun
    obtain ⟨hfair, hrest⟩ := (h.2 s₁ hs₁).append hrun
    refine ⟨⟨h.1, fun s₂ hs₂ => ?_⟩, hrest⟩
    cases Option.some.inj (hs₁.symm.trans hs₂)
    exact hfair

end Session

namespace Session

instance decidableFair : ∀ (s : Session) (edits : List Edit), Decidable (s.Fair edits)
  | _, [] => isTrue trivial
  | s, e :: edits =>
    have := fun s' : Session => decidableFair s' edits
    inferInstanceAs (Decidable ((∀ r ∈ e.refs, r ∈ s.given) ∧ ∀ s' ∈ s.perform e, s'.Fair edits))

/-- An interface and a class that implements it, with a method that is called from the entry. -/
def sample : List Edit :=
  [.addInterface "Shape" [], .addClass "Box" none, .implement ⟨1⟩ ⟨0⟩, .addField ⟨1⟩ "lid" false,
    .addMethod .concrete ⟨1⟩ "open" "void open(Box)" ["by"], .thisOf ⟨0⟩, .paramOf ⟨0⟩ 0,
    .addStmt ⟨0⟩ (.storeField ⟨0⟩ ⟨⟨1⟩, "lid"⟩ ⟨1⟩),
    .addMethod .static ⟨1⟩ "main" "void main()" [], .addVar ⟨1⟩ "box", .addStmt ⟨1⟩ (.alloc ⟨2⟩ ⟨1⟩),
    .addStmt ⟨1⟩ (.invokeVirtual ⟨2⟩ ⟨⟨1⟩, "void open(Box)"⟩ [⟨2⟩] none), .setEntry ⟨0⟩, .setEntry ⟨1⟩]

end Session

end PointsTo
