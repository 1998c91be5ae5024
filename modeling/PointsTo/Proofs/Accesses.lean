import PointsTo.AccessIndex
import PointsTo.Proofs.Validity

/-!
# The access index is complete

Under each variable the index lists exactly the accesses and calls of the
program that are based on it, in the order of the statements, and it knows the
field of every static access.
-/

namespace PointsTo

protected def Accesses.append (a b : Accesses) : Accesses where
  fieldStores := a.fieldStores ++ b.fieldStores
  fieldLoads := a.fieldLoads ++ b.fieldLoads
  arrayStores := a.arrayStores ++ b.arrayStores
  arrayLoads := a.arrayLoads ++ b.arrayLoads
  calls := a.calls ++ b.calls

theorem Accesses.append_empty (a : Accesses) : a.append .empty = a := by
  simp [Accesses.append, empty]

theorem Accesses.empty_append (a : Accesses) : Accesses.empty.append a = a := rfl

theorem Accesses.append_assoc (a b c : Accesses) : (a.append b).append c = a.append (b.append c) := by
  simp only [Accesses.append, List.append_assoc]

namespace AccessIndex
variable {h : Hierarchy}

def accessesOf (index : AccessIndex) (v : VarId) : Accesses := (index.accesses? v).getD .empty

theorem resolve_ok_iff {base : Option VarId} {ref : FieldRef} {f : FieldId} : resolve h base ref = .ok f ↔
    h.resolveField ref = .ok f ∧ ∃ field, h.program.field? f = some field ∧ field.isStatic = base.isNone := by
  unfold resolve
  rw [except_bind_ok]
  constructor
  · rintro ⟨g, hg, hf⟩
    cases hfield : h.program.field? g with
    | none => rw [hfield] at hf; cases hf
    | some field =>
      rw [hfield] at hf
      dsimp only at hf
      split at hf
      next hfits => cases hf; exact ⟨hg, field, hfield, hfits⟩
      next => split at hf <;> cases hf
  · rintro ⟨hf, field, hfield, hfits⟩
    exact ⟨f, hf, by rw [hfield]; exact if_pos hfits⟩

theorem resolve_ok {base : Option VarId} {ref : FieldRef} {f : FieldId}
    (hr : resolve h base ref = .ok f) : h.resolveField ref = .ok f :=
  (resolve_ok_iff.mp hr).1

/-! ## The share of one statement in the accesses of a variable -/

def fieldStore? (h : Hierarchy) (v : VarId) : Stmt → Option (FieldId × VarId)
  | .storeField (some base) ref rhs =>
    if base = v then (resolve h (some base) ref).toOption.map fun f => (f, rhs) else none
  | _ => none

def fieldLoad? (h : Hierarchy) (v : VarId) : Stmt → Option (VarId × FieldId)
  | .loadField lhs (some base) ref =>
    if base = v then (resolve h (some base) ref).toOption.map fun f => (lhs, f) else none
  | _ => none

def arrayStore? (v : VarId) : Stmt → Option VarId
  | .storeArray base rhs => if base = v then some rhs else none
  | _ => none

def arrayLoad? (v : VarId) : Stmt → Option VarId
  | .loadArray lhs base => if base = v then some lhs else none
  | _ => none

def callOn? (v : VarId) (site : StmtId) : Stmt → Option StmtId
  | .invoke call => if call.receiver = some v then some site else none
  | _ => none

def share (h : Hierarchy) (v : VarId) (x : StmtId × Stmt) : Accesses where
  fieldStores := (fieldStore? h v x.2).toList
  fieldLoads := (fieldLoad? h v x.2).toList
  arrayStores := (arrayStore? v x.2).toList
  arrayLoads := (arrayLoad? v x.2).toList
  calls := (callOn? v x.1 x.2).toList

section
variable {v : VarId} {site : StmtId} {s : Stmt}

theorem toOption_eq_some {α ε : Type} {x : Except ε α} {a : α} : x.toOption = some a ↔ x = .ok a := by
  cases x <;> simp [Except.toOption]

theorem fieldStore?_eq_some {f : FieldId} {rhs : VarId} : fieldStore? h v s = some (f, rhs) ↔
    ∃ ref, s = .storeField (some v) ref rhs ∧ resolve h (some v) ref = .ok f := by
  unfold fieldStore?
  split
  · rename_i base ref x
    by_cases hb : base = v
    · subst hb
      simp [toOption_eq_some, and_comm]
    · simp [hb]
  · rename_i hs
    exact ⟨fun hn => (by cases hn), fun ⟨ref, he, _⟩ => absurd he (hs _ _ _)⟩

theorem fieldLoad?_eq_some {f : FieldId} {lhs : VarId} : fieldLoad? h v s = some (lhs, f) ↔
    ∃ ref, s = .loadField lhs (some v) ref ∧ resolve h (some v) ref = .ok f := by
  unfold fieldLoad?
  split
  · rename_i x base ref
    by_cases hb : base = v
    · subst hb
      simp [toOption_eq_some, and_comm]
    · simp [hb]
  · rename_i hs
    exact ⟨fun hn => (by cases hn), fun ⟨ref, he, _⟩ => absurd he (hs _ _ _)⟩

theorem arrayStore?_eq_some {rhs : VarId} : arrayStore? v s = some rhs ↔ s = .storeArray v rhs := by
  unfold arrayStore?
  split
  · simp
  · rename_i hs
    exact ⟨fun hn => (by cases hn), fun he => absurd he (hs _ _)⟩

theorem arrayLoad?_eq_some {lhs : VarId} : arrayLoad? v s = some lhs ↔ s = .loadArray lhs v := by
  unfold arrayLoad?
  split
  · simp [and_comm]
  · rename_i hs
    exact ⟨fun hn => (by cases hn), fun he => absurd he (hs _ _)⟩

theorem callOn?_eq_some {i : StmtId} : callOn? v site s = some i ↔
    i = site ∧ ∃ call, s = .invoke call ∧ call.receiver = some v := by
  unfold callOn?
  split
  · simp [and_comm, eq_comm]
  · rename_i hs
    exact ⟨fun hn => (by cases hn), fun ⟨_, call, he, _⟩ => absurd he (hs _)⟩

end

/-! ## The accesses of a variable -/

theorem accessesOf_record (index : AccessIndex) (base v : VarId) (f : Accesses → Accesses) :
    (index.record base f).accessesOf v =
      if base = v then f (index.accessesOf v) else index.accessesOf v := by
  unfold record accessesOf accesses?
  simp only [Std.HashMap.getElem?_alter]
  by_cases hb : base = v
  · subst hb; simp
  · simp [hb]

theorem accessesOf_add {index index' : AccessIndex} {x : StmtId × Stmt}
    (ha : add h index x = .ok index') (v : VarId) :
    index'.accessesOf v = (index.accessesOf v).append (share h v x) := by
  obtain ⟨site, s⟩ := x
  cases s with
  | loadField lhs base ref =>
    obtain ⟨f, hf, ha⟩ := except_bind_ok.mp ha
    cases Except.ok.inj ha
    cases base with
    | none => exact (Accesses.append_empty _).symm
    | some b =>
      rw [recordField, accessesOf_record]
      by_cases hb : b = v
      · subst hb
        simp [share, Accesses.append, fieldStore?, fieldLoad?, arrayStore?, arrayLoad?, callOn?,
          toOption_eq_some.mpr hf]
      · simp [hb, share, Accesses.append, fieldStore?, fieldLoad?, arrayStore?, arrayLoad?, callOn?]
  | storeField base ref rhs =>
    obtain ⟨f, hf, ha⟩ := except_bind_ok.mp ha
    cases Except.ok.inj ha
    cases base with
    | none => exact (Accesses.append_empty _).symm
    | some b =>
      rw [recordField, accessesOf_record]
      by_cases hb : b = v
      · subst hb
        simp [share, Accesses.append, fieldStore?, fieldLoad?, arrayStore?, arrayLoad?, callOn?,
          toOption_eq_some.mpr hf]
      · simp [hb, share, Accesses.append, fieldStore?, fieldLoad?, arrayStore?, arrayLoad?, callOn?]
  | loadArray lhs base =>
    cases Except.ok.inj ha
    rw [accessesOf_record]
    by_cases hb : base = v <;>
      simp [hb, share, Accesses.append, fieldStore?, fieldLoad?, arrayStore?, arrayLoad?, callOn?]
  | storeArray base rhs =>
    cases Except.ok.inj ha
    rw [accessesOf_record]
    by_cases hb : base = v <;>
      simp [hb, share, Accesses.append, fieldStore?, fieldLoad?, arrayStore?, arrayLoad?, callOn?]
  | invoke call =>
    simp only [add] at ha
    cases hr : call.receiver with
    | none =>
      rw [hr] at ha
      cases Except.ok.inj ha
      simp [share, Accesses.append, fieldStore?, fieldLoad?, arrayStore?, arrayLoad?, callOn?, hr]
    | some r =>
      rw [hr] at ha
      cases Except.ok.inj ha
      rw [accessesOf_record]
      by_cases hb : r = v <;>
        simp [hb, share, Accesses.append, fieldStore?, fieldLoad?, arrayStore?, arrayLoad?, callOn?, hr]
  | alloc | copy | ret | nop =>
    cases Except.ok.inj ha
    exact (Accesses.append_empty _).symm

/-- The shares of the statements, in their order. -/
theorem accessesOf_foldlM (v : VarId) : ∀ {l : List (StmtId × Stmt)} {index index' : AccessIndex},
    l.foldlM (add h) index = .ok index' →
      index'.accessesOf v = l.foldl (fun a x => a.append (share h v x)) (index.accessesOf v)
  | [], _, _, hl => by cases Except.ok.inj hl; rfl
  | x :: l, _, _, hl => by
    rw [List.foldlM_cons] at hl
    obtain ⟨index₁, hx, hl⟩ := except_bind_ok.mp hl
    rw [accessesOf_foldlM v hl, accessesOf_add hx, List.foldl_cons]

/-- Each list of a sum of shares joins the lists of the shares. -/
theorem proj_foldl_append {β : Type} (f : Accesses → List β) (hf : ∀ a b, f (a.append b) = f a ++ f b)
    (g : StmtId × Stmt → Accesses) : ∀ (l : List (StmtId × Stmt)) (a : Accesses),
    f (l.foldl (fun a x => a.append (g x)) a) = f a ++ l.flatMap fun x => f (g x)
  | [], a => by simp
  | x :: l, a => by
    rw [List.foldl_cons, proj_foldl_append f hf g l, hf, List.flatMap_cons, List.append_assoc]

theorem foldlM_mem {α β ε : Type} {f : β → α → Except ε β} {x : α} : ∀ {l : List α} {a b : β},
    l.foldlM f a = .ok b → x ∈ l → ∃ a' b', f a' x = .ok b'
  | y :: l, a, b, hl, hx => by
    rw [List.foldlM_cons] at hl
    obtain ⟨c, hy, hl⟩ := except_bind_ok.mp hl
    rcases List.mem_cons.mp hx with rfl | hx
    · exact ⟨a, c, hy⟩
    · exact foldlM_mem hl hx

def access? : Stmt → Option (Option VarId × FieldRef)
  | .loadField _ base ref | .storeField base ref _ => some (base, ref)
  | _ => none

/-- Every field access that was listed resolves. -/
theorem resolve_of_foldlM {l : List (StmtId × Stmt)} {index index' : AccessIndex}
    (hl : l.foldlM (add h) index = .ok index') {x : StmtId × Stmt} (hx : x ∈ l) {base : Option VarId}
    {ref : FieldRef} (ha : access? x.2 = some (base, ref)) : ∃ f, resolve h base ref = .ok f := by
  obtain ⟨_, _, hadd⟩ := foldlM_mem hl hx
  obtain ⟨site, s⟩ := x
  cases s with
  | loadField | storeField =>
    cases Option.some.inj ha
    obtain ⟨f, hf, _⟩ := except_bind_ok.mp hadd
    exact ⟨f, hf⟩
  | _ => cases ha

section
variable {index : AccessIndex} (hi : ofHierarchy h = .ok index)
include hi

theorem proj_accessesOf {β : Type} (f : Accesses → List β) (hf : ∀ a b, f (a.append b) = f a ++ f b)
    (he : f .empty = []) (v : VarId) :
    f (index.accessesOf v) = h.program.stmts.flatMap fun x => f (share h v x) := by
  unfold ofHierarchy at hi
  rw [accessesOf_foldlM v hi, proj_foldl_append f hf]
  have : f (empty.accessesOf v) = [] := by simpa [accessesOf, accesses?, empty] using he
  rw [this, List.nil_append]

theorem resolve_of_load {site : StmtId} {lhs : VarId} {base : Option VarId} {ref : FieldRef}
    (hs : h.program.stmt? site = some (.loadField lhs base ref)) : ∃ f, resolve h base ref = .ok f :=
  resolve_of_foldlM hi (Program.mem_stmts.mpr hs) rfl

theorem resolve_of_store {site : StmtId} {rhs : VarId} {base : Option VarId} {ref : FieldRef}
    (hs : h.program.stmt? site = some (.storeField base ref rhs)) : ∃ f, resolve h base ref = .ok f :=
  resolve_of_foldlM hi (Program.mem_stmts.mpr hs) rfl

section
variable {v : VarId}

theorem mem_fieldStores {f : FieldId} {rhs : VarId} : (f, rhs) ∈ (index.accessesOf v).fieldStores ↔
    ∃ site ref, h.program.stmt? site = some (.storeField (some v) ref rhs) ∧
      h.resolveField ref = .ok f := by
  rw [proj_accessesOf hi Accesses.fieldStores (fun _ _ => rfl) rfl, List.mem_flatMap]
  constructor
  · rintro ⟨⟨site, s⟩, hs, hy⟩
    obtain ⟨ref, rfl, hr⟩ := fieldStore?_eq_some.mp (Option.mem_toList.mp hy)
    exact ⟨site, ref, Program.mem_stmts.mp hs, resolve_ok hr⟩
  · rintro ⟨site, ref, hs, hf⟩
    obtain ⟨g, hg⟩ := resolve_of_store hi hs
    have he : g = f := Except.ok.inj ((resolve_ok hg).symm.trans hf)
    subst he
    exact ⟨_, Program.mem_stmts.mpr hs,
      Option.mem_toList.mpr (fieldStore?_eq_some.mpr ⟨ref, rfl, hg⟩)⟩

theorem mem_fieldLoads {f : FieldId} {lhs : VarId} : (lhs, f) ∈ (index.accessesOf v).fieldLoads ↔
    ∃ site ref, h.program.stmt? site = some (.loadField lhs (some v) ref) ∧
      h.resolveField ref = .ok f := by
  rw [proj_accessesOf hi Accesses.fieldLoads (fun _ _ => rfl) rfl, List.mem_flatMap]
  constructor
  · rintro ⟨⟨site, s⟩, hs, hy⟩
    obtain ⟨ref, rfl, hr⟩ := fieldLoad?_eq_some.mp (Option.mem_toList.mp hy)
    exact ⟨site, ref, Program.mem_stmts.mp hs, resolve_ok hr⟩
  · rintro ⟨site, ref, hs, hf⟩
    obtain ⟨g, hg⟩ := resolve_of_load hi hs
    have he : g = f := Except.ok.inj ((resolve_ok hg).symm.trans hf)
    subst he
    exact ⟨_, Program.mem_stmts.mpr hs,
      Option.mem_toList.mpr (fieldLoad?_eq_some.mpr ⟨ref, rfl, hg⟩)⟩

theorem mem_arrayStores {rhs : VarId} : rhs ∈ (index.accessesOf v).arrayStores ↔
    ∃ site, h.program.stmt? site = some (.storeArray v rhs) := by
  rw [proj_accessesOf hi Accesses.arrayStores (fun _ _ => rfl) rfl, List.mem_flatMap]
  constructor
  · rintro ⟨⟨site, s⟩, hs, hy⟩
    cases arrayStore?_eq_some.mp (Option.mem_toList.mp hy)
    exact ⟨site, Program.mem_stmts.mp hs⟩
  · rintro ⟨site, hs⟩
    exact ⟨_, Program.mem_stmts.mpr hs, Option.mem_toList.mpr (arrayStore?_eq_some.mpr rfl)⟩

theorem mem_arrayLoads {lhs : VarId} : lhs ∈ (index.accessesOf v).arrayLoads ↔
    ∃ site, h.program.stmt? site = some (.loadArray lhs v) := by
  rw [proj_accessesOf hi Accesses.arrayLoads (fun _ _ => rfl) rfl, List.mem_flatMap]
  constructor
  · rintro ⟨⟨site, s⟩, hs, hy⟩
    cases arrayLoad?_eq_some.mp (Option.mem_toList.mp hy)
    exact ⟨site, Program.mem_stmts.mp hs⟩
  · rintro ⟨site, hs⟩
    exact ⟨_, Program.mem_stmts.mpr hs, Option.mem_toList.mpr (arrayLoad?_eq_some.mpr rfl)⟩

theorem mem_calls {site : StmtId} : site ∈ (index.accessesOf v).calls ↔
    ∃ call, h.program.stmt? site = some (.invoke call) ∧ call.receiver = some v := by
  rw [proj_accessesOf hi Accesses.calls (fun _ _ => rfl) rfl, List.mem_flatMap]
  constructor
  · rintro ⟨⟨site', s⟩, hs, hy⟩
    obtain ⟨rfl, call, rfl, hr⟩ := callOn?_eq_some.mp (Option.mem_toList.mp hy)
    exact ⟨call, Program.mem_stmts.mp hs, hr⟩
  · rintro ⟨call, hs, hr⟩
    exact ⟨_, Program.mem_stmts.mpr hs,
      Option.mem_toList.mpr (callOn?_eq_some.mpr ⟨rfl, call, rfl, hr⟩)⟩

theorem length_calls_le : (index.accessesOf v).calls.length ≤ h.program.stmts.length := by
  rw [proj_accessesOf hi Accesses.calls (fun _ _ => rfl) rfl]
  induction h.program.stmts with
  | nil => exact Nat.le_refl 0
  | cons x l ih =>
    rw [List.flatMap_cons, List.length_append, List.length_cons]
    have : (share h v x).calls.length ≤ 1 := by
      unfold share
      dsimp only
      cases callOn? v x.1 x.2 <;> simp
    omega

end

end

/-! ## When there is an index -/

theorem add_ok {x : StmtId × Stmt}
    (hx : ∀ base ref, access? x.2 = some (base, ref) → ∃ f, resolve h base ref = .ok f)
    (index : AccessIndex) : ∃ index', add h index x = .ok index' := by
  obtain ⟨site, s⟩ := x
  cases s with
  | loadField lhs base ref =>
    obtain ⟨f, hf⟩ := hx base ref rfl
    exact ⟨_, except_bind_ok.mpr ⟨f, hf, rfl⟩⟩
  | storeField base ref rhs =>
    obtain ⟨f, hf⟩ := hx base ref rfl
    exact ⟨_, except_bind_ok.mpr ⟨f, hf, rfl⟩⟩
  | invoke call =>
    obtain ⟨kind, target, receiver, args, result⟩ := call
    cases receiver <;> exact ⟨_, rfl⟩
  | _ => exact ⟨_, rfl⟩

theorem foldlM_add_ok : ∀ (l : List (StmtId × Stmt)) (index : AccessIndex),
    (∀ x ∈ l, ∀ base ref, access? x.2 = some (base, ref) → ∃ f, resolve h base ref = .ok f) →
      ∃ index', l.foldlM (add h) index = .ok index'
  | [], index, _ => ⟨index, rfl⟩
  | x :: l, index, hl => by
    obtain ⟨index₁, hx⟩ := add_ok (hl x List.mem_cons_self) index
    obtain ⟨index', hl⟩ := foldlM_add_ok l index₁ fun y hy => hl y (List.mem_cons_of_mem _ hy)
    exact ⟨index', except_bind_ok.mpr ⟨index₁, hx, hl⟩⟩

/-! ## Static accesses -/

def staticRef? : Stmt → Option FieldRef
  | .loadField _ none ref | .storeField none ref _ => some ref
  | _ => none

theorem staticRef?_eq_some {s : Stmt} {ref : FieldRef} :
    staticRef? s = some ref ↔ access? s = some (none, ref) := by
  cases s with
  | loadField lhs base r => cases base <;> simp [staticRef?, access?]
  | storeField base r rhs => cases base <;> simp [staticRef?, access?]
  | _ => exact ⟨nofun, nofun⟩

theorem staticField?_add {index index' : AccessIndex} {site : StmtId} {s : Stmt}
    (ha : add h index (site, s) = .ok index') (i : StmtId) :
    index'.staticField? i = match staticRef? s with
      | some ref => if site = i then (resolve h none ref).toOption else index.staticField? i
      | none => index.staticField? i := by
  cases s with
  | loadField lhs base ref =>
    obtain ⟨f, hf, ha⟩ := except_bind_ok.mp ha
    cases Except.ok.inj ha
    cases base with
    | none =>
      simp only [staticField?, recordField, staticRef?, toOption_eq_some.mpr hf,
        Std.HashMap.getElem?_insert, beq_iff_eq]
    | some b => rfl
  | storeField base ref rhs =>
    obtain ⟨f, hf, ha⟩ := except_bind_ok.mp ha
    cases Except.ok.inj ha
    cases base with
    | none =>
      simp only [staticField?, recordField, staticRef?, toOption_eq_some.mpr hf,
        Std.HashMap.getElem?_insert, beq_iff_eq]
    | some b => rfl
  | invoke call =>
    simp only [add] at ha
    cases hr : call.receiver with
    | none => rw [hr] at ha; cases Except.ok.inj ha; rfl
    | some r => rw [hr] at ha; cases Except.ok.inj ha; rfl
  | _ => cases Except.ok.inj ha; rfl

/-- An access keeps its field once it is recorded, as its site has no other statement. -/
theorem staticField?_foldlM {site : StmtId} {s : Stmt} {ref : FieldRef} (hs : staticRef? s = some ref) :
    ∀ {l : List (StmtId × Stmt)} {index index' : AccessIndex}, l.foldlM (add h) index = .ok index' →
      (∀ s', (site, s') ∈ l → s' = s) →
      (site, s) ∈ l ∨ index.staticField? site = (resolve h none ref).toOption →
      index'.staticField? site = (resolve h none ref).toOption
  | [], _, _, hl, _, hm => by
    cases Except.ok.inj hl
    rcases hm with hm | hm
    · cases hm
    · exact hm
  | (i, s') :: l, index, index', hl, hu, hm => by
    rw [List.foldlM_cons] at hl
    obtain ⟨index₁, hx, hl⟩ := except_bind_ok.mp hl
    have hadd := staticField?_add hx site
    refine staticField?_foldlM hs hl (fun t ht => hu t (by simp [ht])) ?_
    by_cases hi : i = site
    · subst hi
      rw [hu s' (by simp), hs] at hadd
      exact Or.inr (hadd.trans (if_pos rfl))
    · rcases hm with hm | hm
      · refine Or.inl ((List.mem_cons.mp hm).resolve_left fun he => hi ?_)
        exact (congrArg Prod.fst he).symm
      · right
        rw [hadd]
        split
        · rw [if_neg hi, hm]
        · exact hm

theorem staticField?_of_stmt {index : AccessIndex} (hi : ofHierarchy h = .ok index) {site : StmtId}
    {s : Stmt} {ref : FieldRef} (hs : h.program.stmt? site = some s) (hr : staticRef? s = some ref) :
    ∃ f, index.staticField? site = some f ∧ h.resolveField ref = .ok f := by
  obtain ⟨f, hf⟩ := resolve_of_foldlM hi (Program.mem_stmts.mpr hs) (staticRef?_eq_some.mp hr)
  refine ⟨f, ?_, resolve_ok hf⟩
  rw [staticField?_foldlM hr hi ?_ (Or.inl (Program.mem_stmts.mpr hs)), toOption_eq_some.mpr hf]
  intro s' hs'
  exact Option.some.inj ((Program.mem_stmts.mp hs').symm.trans hs)

end AccessIndex

end PointsTo
