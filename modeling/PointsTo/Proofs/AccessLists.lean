import PointsTo.Proofs.Acceptance
import PointsTo.Proofs.Accesses

/-!
# The lists of the access index

A valid program has an access index exactly if each of its field accesses, in
reached methods or not, resolves to a field that fits it. Under a variable the
index then has the statements based on it, each once and in their order, and at
an access without a base it has the field.
-/

namespace PointsTo

/-! ## Statements by their base -/

def Stmt.base? : Stmt → Option VarId
  | .loadField _ base _ | .storeField base _ _ => base
  | .loadArray _ base | .storeArray base _ => some base
  | .invoke call => call.receiver
  | .alloc .. | .copy .. | .ret _ | .nop => none

theorem Stmt.mentions_base {s : Stmt} {v : VarId} (hv : s.base? = some v) : s.Mentions v := by
  cases s with
  | loadField lhs base ref => obtain rfl : base = some v := hv; exact .loadBase
  | storeField base ref rhs => obtain rfl : base = some v := hv; exact .storeBase
  | loadArray lhs base => cases hv; exact .itemBase
  | storeArray base rhs => cases hv; exact .storedItemBase
  | invoke call => exact .receiver hv
  | alloc | copy | ret | nop => cases hv

namespace Program
variable {p : Program} {v : VarId}

def basedOn (p : Program) (v : VarId) : List (StmtId × Stmt) := p.stmts.filter (·.2.base? = some v)

theorem mem_basedOn {x : StmtId × Stmt} :
    x ∈ p.basedOn v ↔ p.stmt? x.1 = some x.2 ∧ x.2.base? = some v := by
  rw [basedOn, List.mem_filter, decide_eq_true_iff, ← mem_stmts]

theorem pairwise_basedOn (p : Program) (v : VarId) : (p.basedOn v).Pairwise fun x y => x.1.Before y.1 :=
  p.pairwise_stmts.filter _

theorem WellFormed.owner_basedOn {entry : MethodId} (h : p.WellFormed entry) {x : StmtId × Stmt}
    (hx : x ∈ p.basedOn v) : p.owner? v = some x.1.method := by
  obtain ⟨hs, hv⟩ := mem_basedOn.mp hx
  obtain ⟨method, hm, hbody⟩ := method?_of_stmt? hs
  exact h.owned _ method v hm (.stmt (Array.mem_of_getElem? hbody) (Stmt.mentions_base hv))

end Program

/-! ## Statements by their kind -/

namespace Stmt

def fieldStored? (field? : FieldRef → Option FieldId) : Stmt → Option (FieldId × VarId)
  | .storeField _ ref rhs => (field? ref).map fun f => (f, rhs)
  | _ => none

def fieldLoaded? (field? : FieldRef → Option FieldId) : Stmt → Option (VarId × FieldId)
  | .loadField lhs _ ref => (field? ref).map fun f => (lhs, f)
  | _ => none

def itemStored? : Stmt → Option VarId
  | .storeArray _ rhs => some rhs
  | _ => none

def itemLoaded? : Stmt → Option VarId
  | .loadArray lhs _ => some lhs
  | _ => none

def isCall : Stmt → Bool
  | .invoke _ => true
  | _ => false

end Stmt

namespace Accesses
variable (field? : FieldRef → Option FieldId)

def ofStmts (l : List (StmtId × Stmt)) : Accesses where
  fieldStores := l.filterMap (·.2.fieldStored? field?)
  fieldLoads := l.filterMap (·.2.fieldLoaded? field?)
  arrayStores := l.filterMap (·.2.itemStored?)
  arrayLoads := l.filterMap (·.2.itemLoaded?)
  calls := (l.filter (·.2.isCall)).map Prod.fst

theorem ofStmts_append (l l' : List (StmtId × Stmt)) :
    ofStmts field? (l ++ l') = (ofStmts field? l).append (ofStmts field? l') := by
  simp only [ofStmts, Accesses.append, List.filterMap_append, List.filter_append, List.map_append]

end Accesses

/-! ## The lists of a variable -/

def Hierarchy.field? (h : Hierarchy) (ref : FieldRef) : Option FieldId := (h.resolveField ref).toOption

namespace AccessIndex
variable {h : Hierarchy} {index index' : AccessIndex}

theorem field?_of_resolve {base : Option VarId} {ref : FieldRef} {f : FieldId}
    (hr : resolve h base ref = .ok f) : h.field? ref = some f :=
  toOption_eq_some.mpr (resolve_ok hr)

section
variable {v : VarId} {x : StmtId × Stmt}

/-- Under its base, a statement has one entry, in the list of its kind. -/
theorem share_of_base (hx : ∀ base ref, access? x.2 = some (base, ref) → ∃ f, resolve h base ref = .ok f)
    (hv : x.2.base? = some v) : share h v x = .ofStmts h.field? [x] := by
  obtain ⟨site, s⟩ := x
  cases s with
  | loadField lhs base ref =>
    obtain rfl : base = some v := hv
    obtain ⟨f, hf⟩ := hx _ ref rfl
    have hloaded : (Stmt.loadField lhs (some v) ref).fieldLoaded? h.field? = some (lhs, f) := by
      rw [Stmt.fieldLoaded?, field?_of_resolve hf, Option.map_some]
    simp only [share, fieldLoad?_eq_some.mpr ⟨ref, rfl, hf⟩, Accesses.ofStmts, List.filterMap_cons, hloaded]
    rfl
  | storeField base ref rhs =>
    obtain rfl : base = some v := hv
    obtain ⟨f, hf⟩ := hx _ ref rfl
    have hstored : (Stmt.storeField (some v) ref rhs).fieldStored? h.field? = some (f, rhs) := by
      rw [Stmt.fieldStored?, field?_of_resolve hf, Option.map_some]
    simp only [share, fieldStore?_eq_some.mpr ⟨ref, rfl, hf⟩, Accesses.ofStmts, List.filterMap_cons, hstored]
    rfl
  | loadArray lhs base =>
    obtain rfl : base = v := Option.some.inj hv
    simp only [share, arrayLoad?_eq_some.mpr rfl]
    rfl
  | storeArray base rhs =>
    obtain rfl : base = v := Option.some.inj hv
    simp only [share, arrayStore?_eq_some.mpr rfl]
    rfl
  | invoke call =>
    simp only [share, callOn?_eq_some.mpr ⟨rfl, call, rfl, hv⟩]
    rfl
  | alloc | copy | ret | nop => cases hv

theorem share_of_not_base (hv : x.2.base? ≠ some v) : share h v x = .empty := by
  obtain ⟨site, s⟩ := x
  cases s with
  | loadField lhs base ref =>
    cases base with
    | none => rfl
    | some b => simp only [share, fieldLoad?, if_neg fun he => hv (congrArg some he)]; rfl
  | storeField base ref rhs =>
    cases base with
    | none => rfl
    | some b => simp only [share, fieldStore?, if_neg fun he => hv (congrArg some he)]; rfl
  | loadArray lhs base => simp only [share, arrayLoad?, if_neg fun he => hv (congrArg some he)]; rfl
  | storeArray base rhs => simp only [share, arrayStore?, if_neg fun he => hv (congrArg some he)]; rfl
  | invoke call =>
    have hr : call.receiver ≠ some v := hv
    simp only [share, callOn?, if_neg hr]
    rfl
  | alloc | copy | ret | nop => rfl

theorem accesses?_record {base : VarId} {f : Accesses → Accesses} :
    (index.record base f).accesses? v = none ↔ index.accesses? v = none ∧ some base ≠ some v := by
  unfold record accesses?
  rw [Std.HashMap.getElem?_alter]
  by_cases hb : base = v <;> simp [hb]

theorem accesses?_recordField {site : StmtId} {base : Option VarId} {field : FieldId}
    {f : Accesses → Accesses} : (index.recordField site base field f).accesses? v = none ↔
      index.accesses? v = none ∧ base ≠ some v := by
  cases base with
  | none => exact (and_iff_left nofun).symm
  | some b => exact accesses?_record

theorem accesses?_add (ha : add h index x = .ok index') :
    index'.accesses? v = none ↔ index.accesses? v = none ∧ x.2.base? ≠ some v := by
  obtain ⟨site, s⟩ := x
  cases s with
  | loadField | storeField =>
    obtain ⟨f, _, ha⟩ := except_bind_ok.mp ha
    cases Except.ok.inj ha
    exact accesses?_recordField
  | loadArray | storeArray => cases Except.ok.inj ha; exact accesses?_record
  | invoke call =>
    obtain ⟨kind, target, receiver, args, result⟩ := call
    cases receiver with
    | none => cases Except.ok.inj ha; exact (and_iff_left nofun).symm
    | some r => cases Except.ok.inj ha; exact accesses?_record
  | alloc | copy | ret | nop => cases Except.ok.inj ha; exact (and_iff_left nofun).symm

end

theorem accesses_foldlM (v : VarId) : ∀ {l : List (StmtId × Stmt)} {index index' : AccessIndex},
    l.foldlM (add h) index = .ok index' →
      (index'.accesses? v = none ↔ index.accesses? v = none ∧ l.filter (·.2.base? = some v) = []) ∧
      index'.accessesOf v =
        (index.accessesOf v).append (.ofStmts h.field? (l.filter (·.2.base? = some v)))
  | [], index, _, hl => by
    cases Except.ok.inj hl
    exact ⟨⟨fun hn => ⟨hn, rfl⟩, And.left⟩, (Accesses.append_empty _).symm⟩
  | x :: l, index, index', hl => by
    have hresolve : ∀ base ref, access? x.2 = some (base, ref) → ∃ f, resolve h base ref = .ok f :=
      fun _ _ => resolve_of_foldlM hl List.mem_cons_self
    rw [List.foldlM_cons] at hl
    obtain ⟨index₁, hx, hl⟩ := except_bind_ok.mp hl
    obtain ⟨hnone, hof⟩ := accesses_foldlM v hl
    rw [hnone, accesses?_add hx, hof, accessesOf_add hx]
    by_cases hv : x.2.base? = some v
    · rw [List.filter_cons_of_pos (by simpa using hv), share_of_base hresolve hv, Accesses.append_assoc,
        ← Accesses.ofStmts_append, List.singleton_append]
      simp [hv]
    · rw [List.filter_cons_of_neg (by simpa using hv), share_of_not_base hv, Accesses.append_empty]
      simp [hv]

/-- A site gets a field from an access without a base only. -/
theorem access_of_staticField {site : StmtId} : ∀ {l : List (StmtId × Stmt)} {index index' : AccessIndex},
    l.foldlM (add h) index = .ok index' → index.staticField? site = none →
      ∀ f, index'.staticField? site = some f → ∃ s ref, (site, s) ∈ l ∧ staticRef? s = some ref
  | [], _, _, hl, hnone, f, hf => by
    cases Except.ok.inj hl
    rw [hnone] at hf
    cases hf
  | (i, s) :: l, index, _, hl, hnone, f, hf => by
    rw [List.foldlM_cons] at hl
    obtain ⟨index₁, hx, hl⟩ := except_bind_ok.mp hl
    cases hone : index₁.staticField? site with
    | none =>
      obtain ⟨t, ref, ht, href⟩ := access_of_staticField hl hone f hf
      exact ⟨t, ref, List.mem_cons_of_mem _ ht, href⟩
    | some g =>
      rw [staticField?_add hx] at hone
      split at hone
      next ref href =>
        by_cases hi : i = site
        · exact ⟨s, ref, hi ▸ List.mem_cons_self, href⟩
        · rw [if_neg hi, hnone] at hone
          cases hone
      next =>
        rw [hnone] at hone
        cases hone

section
variable (hi : ofHierarchy h = .ok index)
include hi

theorem accesses?_eq (v : VarId) : index.accesses? v =
    if h.program.basedOn v = [] then none else some (.ofStmts h.field? (h.program.basedOn v)) := by
  obtain ⟨hnone, hof⟩ := accesses_foldlM v hi
  have hempty : empty.accesses? v = none := Std.HashMap.getElem?_empty
  rw [accessesOf, accessesOf, hempty, Option.getD_none, Accesses.empty_append] at hof
  split
  next hl => exact hnone.mpr ⟨hempty, hl⟩
  next hl =>
    cases ha : index.accesses? v with
    | none => exact absurd (hnone.mp ha).2 hl
    | some a =>
      rw [ha, Option.getD_some] at hof
      exact congrArg some hof

theorem staticField?_iff {site : StmtId} {f : FieldId} : index.staticField? site = some f ↔
    ∃ s ref, h.program.stmt? site = some s ∧ access? s = some (none, ref) ∧ h.resolveField ref = .ok f := by
  constructor
  · intro hf
    obtain ⟨s, ref, hs, href⟩ := access_of_staticField hi Std.HashMap.getElem?_empty f hf
    obtain ⟨g, hg, hr⟩ := staticField?_of_stmt hi (Program.mem_stmts.mp hs) href
    cases Option.some.inj (hf.symm.trans hg)
    exact ⟨s, ref, Program.mem_stmts.mp hs, staticRef?_eq_some.mp href, hr⟩
  · rintro ⟨s, ref, hs, ha, hr⟩
    obtain ⟨g, hg, hr'⟩ := staticField?_of_stmt hi hs (staticRef?_eq_some.mpr ha)
    cases Except.ok.inj (hr.symm.trans hr')
    exact hg

end

/-- There is an index exactly if all field accesses fit. -/
theorem ofHierarchy_ok_iff : (∃ index, ofHierarchy h = .ok index) ↔
    ∀ site s base ref, h.program.stmt? site = some s → access? s = some (base, ref) →
      ∃ f field, h.resolveField ref = .ok f ∧ h.program.field? f = some field ∧
        field.isStatic = base.isNone := by
  constructor
  · rintro ⟨index, hi⟩ site s base ref hs ha
    obtain ⟨f, hf⟩ := resolve_of_foldlM hi (Program.mem_stmts.mpr hs) ha
    obtain ⟨hf, field, hfits⟩ := resolve_ok_iff.mp hf
    exact ⟨f, field, hf, hfits⟩
  · intro hall
    refine foldlM_add_ok _ _ fun x hx base ref ha => ?_
    obtain ⟨f, field, hf, hfits⟩ := hall x.1 x.2 base ref (Program.mem_stmts.mp hx) ha
    exact ⟨f, resolve_ok_iff.mpr ⟨hf, field, hfits⟩⟩

end AccessIndex

/-- **What the access index holds.** A valid program has one exactly if every field load and store,
reached or not, resolves to a field that is static just when the access has no base. Each variable
then has the statements based on it, each in the list of its kind, by method and place, and all of
the method that owns the variable; without such statements it has no entry. A site has a field just
when an access without a base stands there that resolves to it. -/
theorem accesses_listed_exactly {p : Program} {entry : MethodId} (hp : p.check = .ok entry) :
    let h := Hierarchy.ofProgram p
    ((∃ index, AccessIndex.ofHierarchy h = .ok index) ↔
      ∀ site s base ref, p.stmt? site = some s → AccessIndex.access? s = some (base, ref) →
        ∃ f field, h.resolveField ref = .ok f ∧ p.field? f = some field ∧ field.isStatic = base.isNone) ∧
    (∀ v, (∀ x, x ∈ p.basedOn v ↔ p.stmt? x.1 = some x.2 ∧ x.2.base? = some v) ∧
      ((p.basedOn v).Pairwise fun x y => x.1.Before y.1) ∧
      ∀ x ∈ p.basedOn v, p.owner? v = some x.1.method) ∧
    ∀ index, AccessIndex.ofHierarchy h = .ok index →
      (∀ v, index.accesses? v =
        if p.basedOn v = [] then none else some (.ofStmts h.field? (p.basedOn v))) ∧
      ∀ site f, index.staticField? site = some f ↔
        ∃ s ref, p.stmt? site = some s ∧ AccessIndex.access? s = some (none, ref) ∧
          h.resolveField ref = .ok f :=
  have hwell := Program.check_iff_wellFormed.mp hp
  ⟨AccessIndex.ofHierarchy_ok_iff,
    fun v => ⟨fun _ => Program.mem_basedOn, p.pairwise_basedOn v, fun _ => hwell.owner_basedOn⟩,
    fun _ hi => ⟨AccessIndex.accesses?_eq hi, fun _ _ => AccessIndex.staticField?_iff hi⟩⟩

namespace Shelf

/-- `main` works on its first variable; `put` is never called and stores to the static field. -/
def program : Program where
  classes := #[⟨"Main", none, [], false, false, [⟨0⟩, ⟨1⟩], [⟨0⟩, ⟨1⟩]⟩]
  methods := #[
    ⟨"main", ⟨0⟩, "void main()", true, false, none, [], #[
      .alloc ⟨0⟩ ⟨0⟩,
      .storeField (some ⟨0⟩) ⟨⟨0⟩, "f"⟩ ⟨1⟩,
      .loadField ⟨1⟩ (some ⟨0⟩) ⟨⟨0⟩, "f"⟩,
      .storeArray ⟨0⟩ ⟨1⟩,
      .storeField (some ⟨0⟩) ⟨⟨0⟩, "f"⟩ ⟨1⟩,
      .invoke ⟨.virtual, ⟨⟨0⟩, "void run()"⟩, some ⟨0⟩, [], none⟩]⟩,
    ⟨"put", ⟨0⟩, "void put()", true, false, none, [], #[.storeField none ⟨⟨0⟩, "g"⟩ ⟨2⟩]⟩]
  fields := #[⟨"f", ⟨0⟩, false⟩, ⟨"g", ⟨0⟩, true⟩]
  vars := #[⟨"x", ⟨0⟩⟩, ⟨"y", ⟨0⟩⟩, ⟨"z", ⟨1⟩⟩]
  entry := some ⟨0⟩

theorem check_program : program.check = .ok ⟨0⟩ := rfl

theorem basedOn_x : program.basedOn ⟨0⟩ = [
    (⟨⟨0⟩, 1⟩, .storeField (some ⟨0⟩) ⟨⟨0⟩, "f"⟩ ⟨1⟩),
    (⟨⟨0⟩, 2⟩, .loadField ⟨1⟩ (some ⟨0⟩) ⟨⟨0⟩, "f"⟩),
    (⟨⟨0⟩, 3⟩, .storeArray ⟨0⟩ ⟨1⟩),
    (⟨⟨0⟩, 4⟩, .storeField (some ⟨0⟩) ⟨⟨0⟩, "f"⟩ ⟨1⟩),
    (⟨⟨0⟩, 5⟩, .invoke ⟨.virtual, ⟨⟨0⟩, "void run()"⟩, some ⟨0⟩, [], none⟩)] := by decide

theorem access_mem : ∀ x ∈ program.stmts, AccessIndex.access? x.2 ∈
    [none, some (some ⟨0⟩, ⟨⟨0⟩, "f"⟩), some (none, ⟨⟨0⟩, "g"⟩)] := by decide

theorem className_main : (Hierarchy.ofProgram program).className? ⟨0⟩ = some "Main" := rfl

theorem resolveField_f : (Hierarchy.ofProgram program).resolveField ⟨⟨0⟩, "f"⟩ = .ok ⟨0⟩ :=
  Hierarchy.resolveField_declared className_main (by cbv)

theorem resolveField_g : (Hierarchy.ofProgram program).resolveField ⟨⟨0⟩, "g"⟩ = .ok ⟨1⟩ :=
  Hierarchy.resolveField_declared className_main (by cbv)

end Shelf

theorem accesses_listed_exactly_shelf : Shelf.program.check = .ok ⟨0⟩ ∧
    ∃ index, AccessIndex.ofHierarchy (.ofProgram Shelf.program) = .ok index ∧
      index.accesses? ⟨0⟩ = some ⟨[(⟨0⟩, ⟨1⟩), (⟨0⟩, ⟨1⟩)], [(⟨1⟩, ⟨0⟩)], [⟨1⟩], [], [⟨⟨0⟩, 5⟩]⟩ ∧
      index.accesses? ⟨1⟩ = none ∧ index.staticField? ⟨⟨1⟩, 0⟩ = some ⟨1⟩ := by
  obtain ⟨hok, _, hlists⟩ := accesses_listed_exactly Shelf.check_program
  obtain ⟨index, hi⟩ := hok.mpr fun site s base ref hs ha => by
    have hmem := Shelf.access_mem _ (Program.mem_stmts.mpr hs)
    rw [ha] at hmem
    simp only [List.mem_cons, List.not_mem_nil, or_false, reduceCtorEq, false_or, Option.some.injEq,
      Prod.mk.injEq] at hmem
    rcases hmem with ⟨rfl, rfl⟩ | ⟨rfl, rfl⟩
    · exact ⟨⟨0⟩, _, Shelf.resolveField_f, rfl, rfl⟩
    · exact ⟨⟨1⟩, _, Shelf.resolveField_g, rfl, rfl⟩
  obtain ⟨haccesses, hstatic⟩ := hlists index hi
  have hfield : (Hierarchy.ofProgram Shelf.program).field? ⟨⟨0⟩, "f"⟩ = some ⟨0⟩ :=
    AccessIndex.toOption_eq_some.mpr Shelf.resolveField_f
  refine ⟨Shelf.check_program, index, hi, ?_, ?_, (hstatic _ _).mpr ⟨_, _, rfl, rfl, Shelf.resolveField_g⟩⟩
  · rw [haccesses, if_neg (by decide)]
    simp [Shelf.basedOn_x, Accesses.ofStmts, Stmt.fieldStored?, Stmt.fieldLoaded?, Stmt.itemStored?,
      Stmt.itemLoaded?, Stmt.isCall, hfield]
  · rw [haccesses, if_pos (by decide)]

end PointsTo
