import PointsTo.Entities.Basic
import PointsTo.Proofs.Tables

/-!
# Contents of handles

What a handle stands for, with all contexts written out. Two handles of one
kind never have the same content, and a handle keeps its content when the
tables grow.
-/

namespace PointsTo

structure Instance where
  heap : Context
  obj : ObjId
  deriving DecidableEq

structure Frame where
  context : Context
  method : MethodId
  deriving DecidableEq

structure Site where
  context : Context
  stmt : StmtId
  deriving DecidableEq

inductive Cell
  | var (context : Context) (var : VarId)
  | staticField (field : FieldId)
  | instanceField (base : Instance) (field : FieldId)
  | arrayIndex (base : Instance)
  deriving DecidableEq

abbrev Link := Edge Site Frame

namespace Entities

section
variable (e : Entities)

def objectOf? (o : CSObjId) : Option Instance :=
  (e.obj? o).bind fun x => (e.context? x.heap).map fun c => ⟨c, x.obj⟩

def frameOf? (m : CSMethodId) : Option Frame :=
  (e.method? m).bind fun x => (e.context? x.context).map fun c => ⟨c, x.method⟩

def siteOf? (i : CSCallSiteId) : Option Site :=
  (e.site? i).bind fun x => (e.context? x.context).map fun c => ⟨c, x.site⟩

def cell? : Pointer → Option Cell
  | .var c v => (e.context? c).map fun c => .var c v
  | .staticField f => some (.staticField f)
  | .instanceField o f => (e.objectOf? o).map fun o => .instanceField o f
  | .arrayIndex o => (e.objectOf? o).map .arrayIndex

def cellOf? (p : PointerId) : Option Cell := (e.pointer? p).bind e.cell?

def linkOf? (i : Edge CSCallSiteId CSMethodId) : Option Link :=
  (e.frameOf? i.caller).bind fun caller => (e.siteOf? i.site).bind fun site =>
    (e.frameOf? i.callee).map fun callee => ⟨i.kind, caller, site, callee⟩

end

section
variable {e : Entities}

theorem objectOf?_eq_some {o : CSObjId} {x : Instance} : e.objectOf? o = some x ↔
    ∃ h, e.obj? o = some ⟨h, x.obj⟩ ∧ e.context? h = some x.heap := by
  unfold objectOf?
  simp only [Option.bind_eq_some_iff, Option.map_eq_some_iff]
  constructor
  · rintro ⟨y, hy, c, hc, rfl⟩
    exact ⟨y.heap, hy, hc⟩
  · rintro ⟨h, hy, hc⟩
    exact ⟨_, hy, _, hc, rfl⟩

theorem frameOf?_eq_some {m : CSMethodId} {x : Frame} : e.frameOf? m = some x ↔
    ∃ c, e.method? m = some ⟨c, x.method⟩ ∧ e.context? c = some x.context := by
  unfold frameOf?
  simp only [Option.bind_eq_some_iff, Option.map_eq_some_iff]
  constructor
  · rintro ⟨y, hy, c, hc, rfl⟩
    exact ⟨y.context, hy, hc⟩
  · rintro ⟨h, hy, hc⟩
    exact ⟨_, hy, _, hc, rfl⟩

theorem siteOf?_eq_some {i : CSCallSiteId} {x : Site} : e.siteOf? i = some x ↔
    ∃ c, e.site? i = some ⟨c, x.stmt⟩ ∧ e.context? c = some x.context := by
  unfold siteOf?
  simp only [Option.bind_eq_some_iff, Option.map_eq_some_iff]
  constructor
  · rintro ⟨y, hy, c, hc, rfl⟩
    exact ⟨y.context, hy, hc⟩
  · rintro ⟨h, hy, hc⟩
    exact ⟨_, hy, _, hc, rfl⟩

theorem cell?_eq_var {a : Pointer} {c : Context} {v : VarId} : e.cell? a = some (.var c v) ↔
    ∃ i, a = .var i v ∧ e.context? i = some c := by
  cases a <;> simp [cell?, and_comm]

theorem cell?_eq_staticField {a : Pointer} {f : FieldId} : e.cell? a = some (.staticField f) ↔
    a = .staticField f := by
  cases a <;> simp [cell?]

theorem cell?_eq_instanceField {a : Pointer} {o : Instance} {f : FieldId} :
    e.cell? a = some (.instanceField o f) ↔ ∃ i, a = .instanceField i f ∧ e.objectOf? i = some o := by
  cases a <;> simp [cell?, and_comm]

theorem cell?_eq_arrayIndex {a : Pointer} {o : Instance} : e.cell? a = some (.arrayIndex o) ↔
    ∃ i, a = .arrayIndex i ∧ e.objectOf? i = some o := by
  cases a <;> simp [cell?]

theorem cellOf?_eq_some {p : PointerId} {x : Cell} : e.cellOf? p = some x ↔
    ∃ a, e.pointer? p = some a ∧ e.cell? a = some x := by
  unfold cellOf?
  rw [Option.bind_eq_some_iff]

theorem linkOf?_eq_some {i : Edge CSCallSiteId CSMethodId} {x : Link} : e.linkOf? i = some x ↔
    i.kind = x.kind ∧ e.frameOf? i.caller = some x.caller ∧ e.siteOf? i.site = some x.site ∧
      e.frameOf? i.callee = some x.callee := by
  unfold linkOf?
  simp only [Option.bind_eq_some_iff, Option.map_eq_some_iff]
  constructor
  · rintro ⟨a, ha, b, hb, c, hc, rfl⟩
    exact ⟨rfl, ha, hb, hc⟩
  · rintro ⟨hk, ha, hb, hc⟩
    refine ⟨_, ha, _, hb, _, hc, ?_⟩
    rw [hk]

theorem findContext?_eq_some {c : Context} {i : ContextId} :
    e.findContext? c = some i ↔ e.context? i = some c := by
  obtain ⟨i⟩ := i
  unfold findContext? context?
  rw [← Table.find?_eq_some]
  simp

theorem findPointer?_eq_some {a : Pointer} {p : PointerId} :
    e.findPointer? a = some p ↔ e.pointer? p = some a := by
  obtain ⟨p⟩ := p
  unfold findPointer? pointer?
  rw [← Table.find?_eq_some]
  simp

/-! ## Equal contents have equal handles -/

theorem context?_inj {c d : ContextId} {x : Context} (hc : e.context? c = some x)
    (hd : e.context? d = some x) : c = d := Id.ext_idx (Table.get?_inj hc hd)

theorem objectOf?_inj {o q : CSObjId} {x : Instance} (ho : e.objectOf? o = some x)
    (hq : e.objectOf? q = some x) : o = q := by
  obtain ⟨h, ho, hh⟩ := objectOf?_eq_some.mp ho
  obtain ⟨k, hq, hk⟩ := objectOf?_eq_some.mp hq
  rw [context?_inj hk hh] at hq
  exact Id.ext_idx (Table.get?_inj ho hq)

theorem frameOf?_inj {m n : CSMethodId} {x : Frame} (hm : e.frameOf? m = some x)
    (hn : e.frameOf? n = some x) : m = n := by
  obtain ⟨h, hm, hh⟩ := frameOf?_eq_some.mp hm
  obtain ⟨k, hn, hk⟩ := frameOf?_eq_some.mp hn
  rw [context?_inj hk hh] at hn
  exact Id.ext_idx (Table.get?_inj hm hn)

theorem siteOf?_inj {i j : CSCallSiteId} {x : Site} (hi : e.siteOf? i = some x)
    (hj : e.siteOf? j = some x) : i = j := by
  obtain ⟨h, hi, hh⟩ := siteOf?_eq_some.mp hi
  obtain ⟨k, hj, hk⟩ := siteOf?_eq_some.mp hj
  rw [context?_inj hk hh] at hj
  exact Id.ext_idx (Table.get?_inj hi hj)

theorem cell?_inj {a b : Pointer} {x : Cell} (ha : e.cell? a = some x) (hb : e.cell? b = some x) :
    a = b := by
  cases x with
  | var c v =>
    obtain ⟨i, rfl, hi⟩ := cell?_eq_var.mp ha
    obtain ⟨j, rfl, hj⟩ := cell?_eq_var.mp hb
    rw [context?_inj hi hj]
  | staticField f => rw [cell?_eq_staticField.mp ha, cell?_eq_staticField.mp hb]
  | instanceField o f =>
    obtain ⟨i, rfl, hi⟩ := cell?_eq_instanceField.mp ha
    obtain ⟨j, rfl, hj⟩ := cell?_eq_instanceField.mp hb
    rw [objectOf?_inj hi hj]
  | arrayIndex o =>
    obtain ⟨i, rfl, hi⟩ := cell?_eq_arrayIndex.mp ha
    obtain ⟨j, rfl, hj⟩ := cell?_eq_arrayIndex.mp hb
    rw [objectOf?_inj hi hj]

theorem cellOf?_inj {p q : PointerId} {x : Cell} (hp : e.cellOf? p = some x)
    (hq : e.cellOf? q = some x) : p = q := by
  obtain ⟨a, hp, ha⟩ := cellOf?_eq_some.mp hp
  obtain ⟨b, hq, hb⟩ := cellOf?_eq_some.mp hq
  rw [cell?_inj hb ha] at hq
  exact Id.ext_idx (Table.get?_inj hp hq)

theorem linkOf?_inj {i j : Edge CSCallSiteId CSMethodId} {x : Link} (hi : e.linkOf? i = some x)
    (hj : e.linkOf? j = some x) : i = j := by
  obtain ⟨hk, ha, hb, hc⟩ := linkOf?_eq_some.mp hi
  obtain ⟨hk', ha', hb', hc'⟩ := linkOf?_eq_some.mp hj
  obtain ⟨kind, caller, site, callee⟩ := i
  obtain ⟨kind', caller', site', callee'⟩ := j
  cases frameOf?_inj ha ha'
  cases siteOf?_inj hb hb'
  cases frameOf?_inj hc hc'
  cases hk.trans hk'.symm
  rfl

end

/-! ## Growing tables -/

structure Extends (e e' : Entities) : Prop where
  contexts : e.contexts.toList <+: e'.contexts.toList
  objs : e.objs.toList <+: e'.objs.toList
  sites : e.sites.toList <+: e'.sites.toList
  methods : e.methods.toList <+: e'.methods.toList
  pointers : e.pointers.toList <+: e'.pointers.toList

namespace Extends
variable {e e' e'' : Entities}

theorem refl (e : Entities) : Extends e e :=
  ⟨List.prefix_rfl, List.prefix_rfl, List.prefix_rfl, List.prefix_rfl, List.prefix_rfl⟩

theorem trans (h : Extends e e') (h' : Extends e' e'') : Extends e e'' :=
  ⟨h.contexts.trans h'.contexts, h.objs.trans h'.objs, h.sites.trans h'.sites,
    h.methods.trans h'.methods, h.pointers.trans h'.pointers⟩

variable (h : Extends e e')
include h

theorem context {c : ContextId} {x : Context} (hc : e.context? c = some x) : e'.context? c = some x :=
  Table.get?_mono h.contexts hc

theorem object {o : CSObjId} {x : Instance} (ho : e.objectOf? o = some x) :
    e'.objectOf? o = some x := by
  obtain ⟨i, ho, hi⟩ := objectOf?_eq_some.mp ho
  exact objectOf?_eq_some.mpr ⟨i, Table.get?_mono h.objs ho, h.context hi⟩

theorem frame {m : CSMethodId} {x : Frame} (hm : e.frameOf? m = some x) : e'.frameOf? m = some x := by
  obtain ⟨i, hm, hi⟩ := frameOf?_eq_some.mp hm
  exact frameOf?_eq_some.mpr ⟨i, Table.get?_mono h.methods hm, h.context hi⟩

theorem site {i : CSCallSiteId} {x : Site} (hi : e.siteOf? i = some x) : e'.siteOf? i = some x := by
  obtain ⟨j, hi, hj⟩ := siteOf?_eq_some.mp hi
  exact siteOf?_eq_some.mpr ⟨j, Table.get?_mono h.sites hi, h.context hj⟩

theorem cell {a : Pointer} {x : Cell} (ha : e.cell? a = some x) : e'.cell? a = some x := by
  cases x with
  | var c v =>
    obtain ⟨i, rfl, hi⟩ := cell?_eq_var.mp ha
    exact cell?_eq_var.mpr ⟨i, rfl, h.context hi⟩
  | staticField f => exact cell?_eq_staticField.mpr (cell?_eq_staticField.mp ha)
  | instanceField o f =>
    obtain ⟨i, rfl, hi⟩ := cell?_eq_instanceField.mp ha
    exact cell?_eq_instanceField.mpr ⟨i, rfl, h.object hi⟩
  | arrayIndex o =>
    obtain ⟨i, rfl, hi⟩ := cell?_eq_arrayIndex.mp ha
    exact cell?_eq_arrayIndex.mpr ⟨i, rfl, h.object hi⟩

theorem cellOf {p : PointerId} {x : Cell} (hp : e.cellOf? p = some x) : e'.cellOf? p = some x := by
  obtain ⟨a, hp, ha⟩ := cellOf?_eq_some.mp hp
  exact cellOf?_eq_some.mpr ⟨a, Table.get?_mono h.pointers hp, h.cell ha⟩

theorem link {i : Edge CSCallSiteId CSMethodId} {x : Link} (hi : e.linkOf? i = some x) :
    e'.linkOf? i = some x := by
  obtain ⟨hk, ha, hb, hc⟩ := linkOf?_eq_some.mp hi
  exact linkOf?_eq_some.mpr ⟨hk, h.frame ha, h.site hb, h.frame hc⟩

end Extends

/-! ## Interning -/

section
variable (e : Entities)

theorem extends_internContext (c : Context) : Extends e (e.internContext c).2 :=
  { Extends.refl e with contexts := Table.prefix_intern _ _ }

theorem extends_internObj (o : CSObj) : Extends e (e.internObj o).2 :=
  { Extends.refl e with objs := Table.prefix_intern _ _ }

theorem extends_internSite (i : CSCallSite) : Extends e (e.internSite i).2 :=
  { Extends.refl e with sites := Table.prefix_intern _ _ }

theorem extends_internMethod (m : CSMethod) : Extends e (e.internMethod m).2 :=
  { Extends.refl e with methods := Table.prefix_intern _ _ }

theorem internPointer_pointers (a : Pointer) :
    (e.internPointer a).2.pointers = (e.pointers.intern a).2 := by
  unfold internPointer
  dsimp only
  split <;> rfl

theorem internPointer_fst (a : Pointer) : (e.internPointer a).1 = ⟨(e.pointers.intern a).1⟩ := by
  unfold internPointer
  dsimp only
  split <;> rfl

theorem extends_internPointer (a : Pointer) : Extends e (e.internPointer a).2 := by
  constructor
  case pointers =>
    rw [internPointer_pointers]
    exact Table.prefix_intern _ _
  all_goals
    unfold internPointer
    dsimp only
    split <;> exact List.prefix_rfl

variable {e}

theorem context?_intern (c : Context) : (e.internContext c).2.context? (e.internContext c).1 = some c :=
  Table.get?_intern_self _ _

theorem objectOf?_intern {i : ContextId} {x : Instance} (hi : e.context? i = some x.heap) :
    (e.internObj ⟨i, x.obj⟩).2.objectOf? (e.internObj ⟨i, x.obj⟩).1 = some x :=
  objectOf?_eq_some.mpr ⟨i, Table.get?_intern_self _ _, (e.extends_internObj _).context hi⟩

theorem frameOf?_intern {i : ContextId} {x : Frame} (hi : e.context? i = some x.context) :
    (e.internMethod ⟨i, x.method⟩).2.frameOf? (e.internMethod ⟨i, x.method⟩).1 = some x :=
  frameOf?_eq_some.mpr ⟨i, Table.get?_intern_self _ _, (e.extends_internMethod _).context hi⟩

theorem siteOf?_intern {i : ContextId} {x : Site} (hi : e.context? i = some x.context) :
    (e.internSite ⟨i, x.stmt⟩).2.siteOf? (e.internSite ⟨i, x.stmt⟩).1 = some x :=
  siteOf?_eq_some.mpr ⟨i, Table.get?_intern_self _ _, (e.extends_internSite _).context hi⟩

theorem cellOf?_intern {a : Pointer} {x : Cell} (ha : e.cell? a = some x) :
    (e.internPointer a).2.cellOf? (e.internPointer a).1 = some x := by
  refine cellOf?_eq_some.mpr ⟨a, ?_, (e.extends_internPointer a).cell ha⟩
  unfold pointer?
  rw [internPointer_pointers, internPointer_fst]
  exact Table.get?_intern_self _ _

/-- A new pointer points to nothing, as an unknown one does. -/
theorem pointsTo_internPointer (a : Pointer) (p : PointerId) :
    (e.internPointer a).2.pointsTo p = e.pointsTo p := by
  unfold internPointer
  dsimp only
  split
  · rfl
  · simp only [pointsTo, pointsTo?, Array.getElem?_push]
    split
    · rename_i h
      rw [h, Array.getElem?_eq_none (Nat.le_refl _)]
      rfl
    · rfl

theorem size_sets_internPointer (a : Pointer) (h : e.sets.size = e.pointers.size) :
    (e.internPointer a).2.sets.size = (e.internPointer a).2.pointers.size := by
  unfold internPointer
  dsimp only
  split
  · rename_i hl
    rw [Table.intern_of_lt hl]; exact h
  · rename_i hl
    rw [Table.size_eq, (Table.intern_of_not_lt hl).2, Array.size_push, h, Table.size_eq]
    simp

end

/-! ## The pointers of a variable -/

section
variable {e : Entities}

def varOf? (e : Entities) (p : PointerId) : Option VarId := ((e.pointer? p).bind Pointer.var?).map Prod.snd

theorem varOf?_eq_some {p : PointerId} {v : VarId} : e.varOf? p = some v ↔
    ∃ c, e.pointer? p = some (.var c v) := by
  unfold varOf?
  cases e.pointer? p with
  | none => simp
  | some a => cases a <;> simp [Pointer.var?]

/-- The index by variable has all pointers of a variable, the oldest first. -/
def Indexed (e : Entities) : Prop := ∀ v, e.pointersOf v = e.pointerIds.filter (e.varOf? · = some v)

theorem indexed_empty : empty.Indexed := by
  intro v
  simp [empty, pointersOf, pointerIds, Table.size_eq]

theorem Indexed.mem_pointersOf (h : e.Indexed) {v : VarId} {p : PointerId} :
    p ∈ e.pointersOf v ↔ ∃ c, e.pointer? p = some (.var c v) := by
  rw [h v, List.mem_filter, decide_eq_true_iff, varOf?_eq_some, and_iff_right_iff_imp]
  intro hp
  obtain ⟨c, hp⟩ := hp
  have hlt : p.idx < e.pointers.size := (Array.getElem?_eq_some_iff.mp hp).1
  exact List.mem_map.mpr ⟨p.idx, List.mem_range.mpr hlt, rfl⟩

theorem internPointer_of_lt {a : Pointer} (h : (e.pointers.intern a).1 < e.pointers.size) :
    (e.internPointer a).2 = e := by
  unfold internPointer
  dsimp only
  rw [if_pos h, Table.intern_of_lt h]

section
variable {a : Pointer} (hnew : ¬ (e.pointers.intern a).1 < e.pointers.size)
include hnew

theorem pointerIds_internPointer :
    (e.internPointer a).2.pointerIds = e.pointerIds ++ [⟨e.pointers.size⟩] := by
  unfold pointerIds
  rw [internPointer_pointers, Table.size_eq (e.pointers.intern a).2, (Table.intern_of_not_lt hnew).2,
    List.length_append, ← Table.size_eq, List.length_singleton, List.range_succ, List.map_append]
  rfl

theorem pointer?_internPointer (p : PointerId) :
    (e.internPointer a).2.pointer? p = (e.pointers.toList ++ [a])[p.idx]? := by
  unfold pointer?
  rw [internPointer_pointers, Table.get?_eq, (Table.intern_of_not_lt hnew).2]

theorem pointersOf_internPointer (v : VarId) : (e.internPointer a).2.pointersOf v =
    e.pointersOf v ++ if a.var?.map Prod.snd = some v then [⟨e.pointers.size⟩] else [] := by
  unfold internPointer pointersOf
  dsimp only
  rw [if_neg hnew, (Table.intern_of_not_lt hnew).1]
  cases a with
  | var c u => simp [Pointer.var?, toList_getD_alter_push]
  | _ => simp [Pointer.var?]

end

theorem prefix_pointersOf_internPointer (a : Pointer) (v : VarId) :
    e.pointersOf v <+: (e.internPointer a).2.pointersOf v := by
  by_cases hnew : (e.pointers.intern a).1 < e.pointers.size
  · simp [internPointer_of_lt hnew]
  · rw [pointersOf_internPointer hnew]
    exact List.prefix_append _ _

theorem Indexed.internPointer (h : e.Indexed) (a : Pointer) : (e.internPointer a).2.Indexed := by
  intro v
  by_cases hnew : (e.pointers.intern a).1 < e.pointers.size
  · rw [internPointer_of_lt hnew]
    exact h v
  · have hold : ∀ p ∈ e.pointerIds, (e.internPointer a).2.varOf? p = e.varOf? p := by
      intro p hp
      obtain ⟨i, hi, rfl⟩ := List.mem_map.mp hp
      have hi : i < e.pointers.toList.length := by simpa [Table.size_eq] using hi
      unfold varOf?
      rw [pointer?_internPointer hnew, List.getElem?_append_left hi, ← Table.get?_eq]
      rfl
    have hlast : (e.internPointer a).2.varOf? ⟨e.pointers.size⟩ = a.var?.map Prod.snd := by
      unfold varOf?
      rw [pointer?_internPointer hnew]
      simp [Table.size_eq]
    have hfilter : e.pointerIds.filter ((e.internPointer a).2.varOf? · = some v) = e.pointersOf v := by
      rw [h v]
      exact List.filter_congr fun p hp => by rw [hold p hp]
    rw [pointersOf_internPointer hnew, pointerIds_internPointer hnew, List.filter_append, hfilter]
    by_cases hv : a.var?.map Prod.snd = some v
    · simp [hlast, hv]
    · simp [hlast, hv]

end

/-! ## Extending a set -/

section
variable {e : Entities} {p : PointerId} {set : ObjSet}

theorem pointsTo?_of_lt (h : p.idx < e.sets.size) : e.pointsTo? p = some (e.pointsTo p) := by
  simp [pointsTo, pointsTo?, h]

theorem extend_fst : (e.extend p set).1 = (e.pointsTo p).missing set := by
  show ((e.pointsTo p).addAll set).2 = _
  rw [ObjSet.addAll_eq]

/-- Only the sets change. -/
theorem extend_snd : (e.extend p set).2 =
    { e with sets := e.sets.setIfInBounds p.idx ((e.pointsTo p).union set) } := by
  show (⟨_, _, _, _, _, e.sets.setIfInBounds p.idx ((e.pointsTo p).addAll set).1, _⟩ : Entities) = _
  rw [ObjSet.addAll_eq]

theorem pointsTo_extend (h : p.idx < e.sets.size) (q : PointerId) :
    (e.extend p set).2.pointsTo q = if q = p then (e.pointsTo p).union set else e.pointsTo q := by
  rw [extend_snd]
  simp only [pointsTo, pointsTo?, Array.getElem?_setIfInBounds]
  by_cases hq : q = p
  · subst hq
    simp [h]
  · have : ¬ p.idx = q.idx := fun he => hq (Id.ext_idx he.symm)
    simp [hq, this]

theorem extends_extend : Extends e (e.extend p set).2 := by
  rw [extend_snd]
  exact ⟨List.prefix_rfl, List.prefix_rfl, List.prefix_rfl, List.prefix_rfl, List.prefix_rfl⟩

end

end Entities

end PointsTo
