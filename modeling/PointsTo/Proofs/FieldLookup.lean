import PointsTo.Proofs.HierarchyCalls

/-!
# Field look-up

A field reference means the field that the nearest superclass declares. Only if no
superclass has one, interfaces count: those of the topmost superclass come first,
and each stands before its own superclasses and these before their interfaces. A
reference fails if no supertype declares the field, and only then.
-/

namespace PointsTo

theorem exists_lastOf {α : Type} {a : Array α} {P : α → Prop} {i : Nat} {x : α} (hx : a[i]? = some x)
    (hP : P x) : ∃ j, LastOf a P j := by
  classical
  have hi : i ≤ a.size := Nat.le_of_lt (Array.getElem?_eq_some_iff.mp hx).1
  refine ⟨Nat.findGreatest (fun j => ∃ y, a[j]? = some y ∧ P y) a.size,
    Nat.findGreatest_spec (P := fun j => ∃ y, a[j]? = some y ∧ P y) hi ⟨x, hx, hP⟩, fun j y hy hPy => ?_⟩
  exact Nat.le_findGreatest (Nat.le_of_lt (Array.getElem?_eq_some_iff.mp hy).1) ⟨y, hy, hPy⟩

namespace Program
variable (p : Program)

def interfaces (c : ClassId) : List ClassId := ((p.class? c).map (·.interfaces)).getD []

def HasField (c : ClassId) (name : String) : Prop :=
  ∃ f field, p.field? f = some field ∧ field.cls = c ∧ field.name = name

def DeclaresField (c : ClassId) (name : String) (f : FieldId) : Prop :=
  LastOf p.fields (fun field => field.cls = c ∧ field.name = name) f.idx

def FirstField (order : List ClassId) (name : String) (f : FieldId) : Prop :=
  ∃ before c after, order = before ++ c :: after ∧ p.DeclaresField c name f ∧
    ∀ d ∈ before, ¬ p.HasField d name

variable {p}

theorem supertypes_eq (c : ClassId) : p.supertypes c = (p.superclass? c).toList ++ p.interfaces c := by
  unfold supertypes superclass? interfaces
  cases p.class? c with
  | none => rfl
  | some cls => rfl

theorem interface_mem_supertypes {c d : ClassId} (h : d ∈ p.interfaces c) : d ∈ p.supertypes c := by
  rw [supertypes_eq]
  exact List.mem_append_right _ h

theorem exists_declaresField {c : ClassId} {name : String} :
    (∃ f, p.DeclaresField c name f) ↔ p.HasField c name := by
  constructor
  · intro ⟨f, ⟨field, hf, hdecl⟩, _⟩
    exact ⟨f, field, hf, hdecl⟩
  · intro ⟨f, field, hf, hdecl⟩
    obtain ⟨j, hj⟩ := exists_lastOf (P := fun field => field.cls = c ∧ field.name = name) hf hdecl
    exact ⟨⟨j⟩, hj⟩

end Program

namespace Hierarchy

/-- Where a field is looked up after `c` and its superclasses, in `turns` nested lists at most: the
interfaces of the topmost superclass first and those of `c` last, each followed by its superclasses and
then by the interfaces of these. -/
def interfaceOrderUpTo (h : Hierarchy) : (turns : Nat) → (c : ClassId) → List ClassId
  | 0, _ => []
  | turns + 1, c => (h.superclasses c).reverse.flatMap fun d => (h.program.interfaces d).flatMap fun i =>
      h.superclasses i ++ interfaceOrderUpTo h turns i

/-- The interfaces of `c` and its superclasses, with all their supertypes. Each list is one of another
supertype. -/
def interfaceOrder (h : Hierarchy) (c : ClassId) : List ClassId :=
  h.interfaceOrderUpTo (h.supertypes c).length c

variable {p : Program}

theorem declaredField?_iff {c : ClassId} {name : String} {f : FieldId} :
    (ofProgram p).declaredField? c name = some f ↔ p.DeclaresField c name f := by
  unfold Program.DeclaresField
  simp only [← Prod.mk.injEq]
  exact getElem?_index p.fields (fun field => (field.cls, field.name)) (c, name) f

theorem declaredField?_eq_none {c : ClassId} {name : String} :
    (ofProgram p).declaredField? c name = none ↔ ¬ p.HasField c name := by
  rw [Option.eq_none_iff_forall_ne_some, ← Program.exists_declaresField, not_exists]
  simp only [ne_eq, declaredField?_iff]

theorem findSome?_declaredField {order : List ClassId} {name : String} {f : FieldId} :
    order.findSome? ((ofProgram p).declaredField? · name) = some f ↔ p.FirstField order name f := by
  unfold Program.FirstField
  simp only [List.findSome?_eq_some_iff, declaredField?_iff, declaredField?_eq_none]

theorem findSome?_declaredField_eq_none {order : List ClassId} {name : String} :
    order.findSome? ((ofProgram p).declaredField? · name) = none ↔ ∀ c ∈ order, ¬ p.HasField c name := by
  simp only [List.findSome?_eq_none_iff, declaredField?_eq_none]

/-! ## The order of the walk -/

section
variable (hp : p.Acyclic)
include hp

theorem leads_of_mem_superclasses {c d : ClassId} (hd : d ∈ (ofProgram p).superclasses c) :
    Walk.Leads p.supertypes c d := by
  obtain ⟨k, hk⟩ := List.mem_iff_getElem?.mp hd
  rw [getElem?_superclasses hp] at hk
  cases k with
  | zero =>
    cases Option.some.inj hk
    exact .refl
  | succ k => exact (Program.transGen_of_ancestor? hk).to_reflTransGen

theorem length_supertypes_lt_of_interface {c d i : ClassId} (hd : d ∈ (ofProgram p).superclasses c)
    (hi : i ∈ p.interfaces d) :
    ((ofProgram p).supertypes i).length < ((ofProgram p).supertypes c).length :=
  Nat.lt_of_lt_of_le (length_supertypes_lt hp (Program.interface_mem_supertypes hi))
    (Walk.rank_le_of_leads (fun _ _ => length_supertypes_lt hp) (leads_of_mem_superclasses hp hd))

/-- More turns than there are supertypes change nothing. -/
theorem interfaceOrderUpTo_eq : ∀ (m n : Nat) (c : ClassId), ((ofProgram p).supertypes c).length ≤ m →
    ((ofProgram p).supertypes c).length ≤ n →
      (ofProgram p).interfaceOrderUpTo m c = (ofProgram p).interfaceOrderUpTo n c := by
  have hpos : ∀ c, ((ofProgram p).supertypes c).length ≠ 0 := by
    intro c h0
    exact List.ne_nil_of_mem (mem_supertypes.mpr .refl : c ∈ _) (List.length_eq_zero_iff.mp h0)
  intro m
  induction m with
  | zero => exact fun n c hm _ => absurd (Nat.le_zero.mp hm) (hpos c)
  | succ m ih =>
    intro n c hm hn
    cases n with
    | zero => exact absurd (Nat.le_zero.mp hn) (hpos c)
    | succ n =>
      unfold interfaceOrderUpTo
      refine List.flatMap_congr fun d hd => List.flatMap_congr fun i hi => ?_
      have hlt := length_supertypes_lt_of_interface hp (List.mem_reverse.mp hd) hi
      rw [ih n i (by omega) (by omega)]

theorem interfaceOrder_eq (c : ClassId) : (ofProgram p).interfaceOrder c =
    ((ofProgram p).superclasses c).reverse.flatMap fun d => (p.interfaces d).flatMap fun i =>
      (ofProgram p).superclasses i ++ (ofProgram p).interfaceOrder i := by
  have hmore := interfaceOrderUpTo_eq hp _ (((ofProgram p).supertypes c).length + 1) c (Nat.le_refl _)
    (Nat.le_succ _)
  rw [interfaceOrder, hmore, interfaceOrderUpTo]
  refine List.flatMap_congr fun d hd => List.flatMap_congr fun i hi => ?_
  have hlt := length_supertypes_lt_of_interface hp (List.mem_reverse.mp hd) hi
  rw [interfaceOrder, interfaceOrderUpTo_eq hp _ _ i (by omega) (Nat.le_refl _)]

/-- The superclasses and then their interfaces: each class before what its supertypes lead to, in the
order in which it names them. -/
theorem lookupOrder_eq (c : ClassId) : (ofProgram p).superclasses c ++ (ofProgram p).interfaceOrder c =
    c :: (p.supertypes c).flatMap fun d => (ofProgram p).superclasses d ++ (ofProgram p).interfaceOrder d := by
  rw [interfaceOrder_eq hp c, superclasses_eq hp c, Program.supertypes_eq]
  cases p.superclass? c with
  | none => simp
  | some d => simp [interfaceOrder_eq hp d]

theorem findSome?_supertypes {β : Type} (g : ClassId → Option β) (c : ClassId) :
    ((ofProgram p).supertypes c).findSome? g =
      ((ofProgram p).superclasses c ++ (ofProgram p).interfaceOrder c).findSome? g :=
  Walk.findSome?_of_visits (fun _ _ => length_supertypes_lt hp) (lookupOrder_eq hp)
    (Walk.visits_depthFirst (ofProgram p).upward c)

theorem finds_supertypes_iff {β : Type} {g : ClassId → Option β} {c : ClassId} {r : Option β} :
    Walk.Finds p.supertypes g [c] r ↔ r = ((ofProgram p).supertypes c).findSome? g :=
  Walk.finds_iff (fun _ _ => length_supertypes_lt hp) (lookupOrder_eq hp)
    (Walk.visits_depthFirst (ofProgram p).upward c)

end

/-! ## What a reference means -/

section
variable {entry : MethodId} (hp : p.check = .ok entry) {ref : FieldRef}
include hp

omit hp in
theorem className?_eq (c : ClassId) : (ofProgram p).className? c = (p.class? c).map (·.name) := rfl

theorem not_hasField_of_unknown {c : ClassId} (hc : p.class? c = none) (name : String) :
    ¬ p.HasField c name := by
  intro ⟨f, field, hf, hcls, _⟩
  have hlt := Program.class_lt_of_field hp hf
  rw [hcls] at hlt
  exact absurd hlt (Nat.not_lt_of_le (Array.getElem?_eq_none_iff.mp hc))

theorem resolveField_ok_iff {f : FieldId} : (ofProgram p).resolveField ref = .ok f ↔
    ((ofProgram p).supertypes ref.cls).findSome? ((ofProgram p).declaredField? · ref.name) = some f := by
  unfold resolveField
  cases hc : p.class? ref.cls with
  | none =>
    -- an unknown class has no supertypes but itself, and no field is declared in it
    have hnone : ((ofProgram p).supertypes ref.cls).findSome? ((ofProgram p).declaredField? · ref.name) =
        none := by
      rw [findSome?_declaredField_eq_none]
      intro d hd
      rcases Relation.ReflTransGen.cases_head (mem_supertypes.mp hd) with rfl | ⟨e, he, _⟩
      · exact not_hasField_of_unknown hp hc _
      · simp [Program.supertypes_of_unknown hc] at he
    rw [className?_eq, hc, hnone]
    exact ⟨nofun, nofun⟩
  | some cls =>
    rw [className?_eq, hc]
    cases ((ofProgram p).supertypes ref.cls).findSome? ((ofProgram p).declaredField? · ref.name) <;> simp

theorem resolveField_error_iff : (∃ e, (ofProgram p).resolveField ref = .error e) ↔
    ∀ c, (ofProgram p).isSubtype? ref.cls c = some true → ¬ p.HasField c ref.name := by
  have hnone : (∃ e, (ofProgram p).resolveField ref = .error e) ↔
      ((ofProgram p).supertypes ref.cls).findSome? ((ofProgram p).declaredField? · ref.name) = none := by
    rw [Option.eq_none_iff_forall_ne_some]
    simp only [ne_eq, ← resolveField_ok_iff hp]
    cases (ofProgram p).resolveField ref <;> simp
  rw [hnone, findSome?_declaredField_eq_none]
  simp only [mem_supertypes, isSubtype?_iff]

omit hp in
theorem resolveField_error_eq {e : Error} (h : (ofProgram p).resolveField ref = .error e) :
    p.class? ref.cls = none ∧ e = .unknownId ∨
      ∃ cls, p.class? ref.cls = some cls ∧ e = .unresolvedField cls.name ref.name := by
  unfold resolveField at h
  rw [className?_eq] at h
  cases hc : p.class? ref.cls with
  | none =>
    rw [hc] at h
    cases h
    exact Or.inl ⟨rfl, rfl⟩
  | some cls =>
    rw [hc] at h
    cases hf : ((ofProgram p).supertypes ref.cls).findSome? ((ofProgram p).declaredField? · ref.name) with
    | some f => simp [hf] at h
    | none =>
      simp only [Option.map_some, hf, Except.error.injEq] at h
      exact Or.inr ⟨cls, rfl, h.symm⟩

end

end Hierarchy

/-- **Field look-up.** In a valid program a search from below that never looks back ends, and a field
reference means what it finds. It fails just if no supertype of its class declares such a field. If the
class or a superclass does, the nearest of them counts, and there the last field. Otherwise the first
counts that the interfaces of the superclasses lead to: from the topmost superclass down to the class,
each list in its order, and each interface with its superclasses and then with their interfaces before the
next. -/
theorem fields_found_in_order {p : Program} {entry : MethodId} (hp : p.check = .ok entry) (ref : FieldRef) :
    (∃ r, Walk.Finds p.supertypes ((Hierarchy.ofProgram p).declaredField? · ref.name) [ref.cls] r ∧
      ∀ f, r = some f ↔ (Hierarchy.ofProgram p).resolveField ref = .ok f) ∧
    ((∃ e, (Hierarchy.ofProgram p).resolveField ref = .error e) ↔
      ∀ c, (Hierarchy.ofProgram p).isSubtype? ref.cls c = some true → ¬ p.HasField c ref.name) ∧
    (∀ e, (Hierarchy.ofProgram p).resolveField ref = .error e →
      p.class? ref.cls = none ∧ e = .unknownId ∨
        ∃ cls, p.class? ref.cls = some cls ∧ e = .unresolvedField cls.name ref.name) ∧
    ((∃ c ∈ (Hierarchy.ofProgram p).superclasses ref.cls, p.HasField c ref.name) →
      ∃ f, (Hierarchy.ofProgram p).resolveField ref = .ok f ∧
        p.FirstField ((Hierarchy.ofProgram p).superclasses ref.cls) ref.name f) ∧
    ((∀ c ∈ (Hierarchy.ofProgram p).superclasses ref.cls, ¬ p.HasField c ref.name) →
      ∀ f, (Hierarchy.ofProgram p).resolveField ref = .ok f ↔
        p.FirstField ((Hierarchy.ofProgram p).interfaceOrder ref.cls) ref.name f) ∧
    (∀ c k, ((Hierarchy.ofProgram p).superclasses c)[k]? = p.ancestor? k c) ∧
    ∀ c, (Hierarchy.ofProgram p).interfaceOrder c =
      ((Hierarchy.ofProgram p).superclasses c).reverse.flatMap fun d => (p.interfaces d).flatMap fun i =>
        (Hierarchy.ofProgram p).superclasses i ++ (Hierarchy.ofProgram p).interfaceOrder i := by
  have hacyclic := Program.acyclic_of_check hp
  have hok : ∀ f, (Hierarchy.ofProgram p).resolveField ref = .ok f ↔
      (((Hierarchy.ofProgram p).superclasses ref.cls).findSome?
        ((Hierarchy.ofProgram p).declaredField? · ref.name)).or
          (((Hierarchy.ofProgram p).interfaceOrder ref.cls).findSome?
            ((Hierarchy.ofProgram p).declaredField? · ref.name)) = some f := by
    intro f
    rw [Hierarchy.resolveField_ok_iff hp, Hierarchy.findSome?_supertypes hacyclic, List.findSome?_append]
  refine ⟨⟨_, (Hierarchy.finds_supertypes_iff hacyclic).mpr rfl, fun f =>
    (Hierarchy.resolveField_ok_iff hp).symm⟩, Hierarchy.resolveField_error_iff hp, fun e =>
    Hierarchy.resolveField_error_eq, fun ⟨c, hc, hfield⟩ => ?_, fun hno f => ?_,
    fun c k => Hierarchy.getElem?_superclasses hacyclic k c, Hierarchy.interfaceOrder_eq hacyclic⟩
  · obtain ⟨f, hf⟩ := Option.ne_none_iff_exists'.mp fun hnone =>
      Hierarchy.findSome?_declaredField_eq_none.mp hnone c hc hfield
    exact ⟨f, (hok f).mpr (by rw [hf]; rfl), Hierarchy.findSome?_declaredField.mp hf⟩
  · rw [hok, Hierarchy.findSome?_declaredField_eq_none.mpr hno, Option.none_or,
      Hierarchy.findSome?_declaredField]

namespace Tags

/-- A leaf that names its own interface and inherits from a base with another; both have a tag. -/
def program : Program where
  classes := #[
    ⟨"Main", none, [], false, false, [⟨0⟩], []⟩,
    ⟨"Named", none, [], true, true, [], [⟨0⟩]⟩,
    ⟨"Sized", none, [], true, true, [], [⟨1⟩]⟩,
    ⟨"Base", none, [⟨2⟩], false, false, [], []⟩,
    ⟨"Leaf", some ⟨3⟩, [⟨1⟩], false, false, [], []⟩]
  methods := #[⟨"main", ⟨0⟩, "main()", true, false, none, [], #[]⟩]
  fields := #[⟨"tag", ⟨1⟩, true⟩, ⟨"tag", ⟨2⟩, true⟩]
  vars := #[]
  entry := some ⟨0⟩

theorem not_hasField : ∀ c ∈ (Hierarchy.ofProgram program).superclasses ⟨4⟩, ¬ program.HasField c "tag" :=
  Hierarchy.findSome?_declaredField_eq_none.mp (by cbv)

theorem firstField : program.FirstField ((Hierarchy.ofProgram program).interfaceOrder ⟨4⟩) "tag" ⟨1⟩ :=
  ⟨[], ⟨2⟩, _, Hierarchy.interfaceOrder_eq (Program.acyclic_of_check (rfl : program.check = .ok ⟨0⟩)) ⟨4⟩,
    Hierarchy.declaredField?_iff.mp (by cbv), nofun⟩

end Tags

/-- The tag of a leaf is that of the interface of its base. -/
theorem fields_found_in_order_tags : Tags.program.check = .ok ⟨0⟩ ∧
    (Hierarchy.ofProgram Tags.program).resolveField ⟨⟨4⟩, "tag"⟩ = .ok ⟨1⟩ := by
  have hcheck : Tags.program.check = .ok ⟨0⟩ := rfl
  obtain ⟨_, _, _, _, hinterfaces, _⟩ := fields_found_in_order hcheck ⟨⟨4⟩, "tag"⟩
  exact ⟨hcheck, (hinterfaces Tags.not_hasField _).mpr Tags.firstField⟩

end PointsTo
