import PointsTo.Proofs.Validity
import PointsTo.Proofs.Walks

/-!
# Subtypes

A class hierarchy keeps its classes by what they extend, in three indices, and
walks upwards as well as downwards. Both walks find the same pairs: a class is
among the subtypes of another exactly if it is a subtype of it.
-/

namespace PointsTo

namespace Hierarchy

theorem getD_group (k : ClassId) : ∀ pairs : List (ClassId × ClassId),
    (group pairs).getD k [] = (pairs.filter (·.1 = k)).map Prod.snd
  | [] => by simp [group]
  | (k', v) :: pairs => by
    have ih := getD_group k pairs
    have hcons : group ((k', v) :: pairs) = (group pairs).insert k' (v :: (group pairs).getD k' []) := rfl
    rw [hcons, Std.HashMap.getD_insert]
    by_cases hk : k' = k
    · subst hk
      simp [ih]
    · simp [hk, ih]

/-- The classes with what they extend: the superclass, then interfaces of interfaces and of others. -/
def subtypePairs (p : Program) : List (ClassId × ClassId) :=
  (p.classes.toList.zipIdx.flatMap fun (c, i) => c.superclass.toList.map fun s => (s, ⟨i⟩)) ++
    interfacePairs p true ++ interfacePairs p false

section
variable {p : Program}

theorem directSubtypes_eq (c : ClassId) :
    (ofProgram p).directSubtypes c = ((subtypePairs p).filter (·.1 = c)).map Prod.snd := by
  unfold directSubtypes directSubclasses directSubinterfaces directImplementors ofProgram subtypePairs
  dsimp only
  rw [getD_group, getD_group, getD_group, List.filter_append, List.filter_append, List.map_append,
    List.map_append]

theorem mem_classes {c : ClassId} {cls : Class} : (cls, c.idx) ∈ p.classes.toList.zipIdx ↔
    p.class? c = some cls := by
  rw [List.mem_zipIdx_iff_getElem?, Array.getElem?_toList]
  rfl

theorem mem_interfacePairs {b : Bool} {c d : ClassId} : (c, d) ∈ interfacePairs p b ↔
    ∃ cls, p.class? d = some cls ∧ cls.isInterface = b ∧ c ∈ cls.interfaces := by
  unfold interfacePairs
  rw [List.mem_flatMap]
  constructor
  · intro h
    obtain ⟨⟨cls, i⟩, hc, hs⟩ := h
    by_cases hb : cls.isInterface = b
    · simp only [hb, if_true, List.mem_map, Prod.mk.injEq] at hs
      obtain ⟨_, hs, rfl, rfl⟩ := hs
      exact ⟨cls, mem_classes.mp hc, hb, hs⟩
    · simp [hb] at hs
  · intro h
    obtain ⟨cls, hc, hb, hs⟩ := h
    exact ⟨(cls, d.idx), mem_classes.mpr hc, by simp [hb, hs]⟩

theorem mem_subtypePairs {c d : ClassId} : (c, d) ∈ subtypePairs p ↔ c ∈ p.supertypes d := by
  have hsuper : (c, d) ∈ (p.classes.toList.zipIdx.flatMap fun (c, i) =>
      c.superclass.toList.map fun s => (s, (⟨i⟩ : ClassId))) ↔
        ∃ cls, p.class? d = some cls ∧ cls.superclass = some c := by
    rw [List.mem_flatMap]
    constructor
    · intro h
      obtain ⟨⟨cls, i⟩, hc, hs⟩ := h
      simp only [List.mem_map, Option.mem_toList, Prod.mk.injEq] at hs
      obtain ⟨_, hs, rfl, rfl⟩ := hs
      exact ⟨cls, mem_classes.mp hc, hs⟩
    · intro h
      obtain ⟨cls, hc, hs⟩ := h
      exact ⟨(cls, d.idx), mem_classes.mpr hc, by simp [hs]⟩
  unfold subtypePairs Program.supertypes Class.supertypes
  rw [List.mem_append, List.mem_append, hsuper, mem_interfacePairs, mem_interfacePairs]
  cases hd : p.class? d with
  | none => simp
  | some cls => cases hi : cls.isInterface <;> simp [hi]

theorem mem_directSubtypes {c d : ClassId} : d ∈ (ofProgram p).directSubtypes c ↔ c ∈ p.supertypes d := by
  rw [directSubtypes_eq, ← mem_subtypePairs]
  simp

theorem isSubtype?_iff {c d : ClassId} :
    (ofProgram p).isSubtype? c d = some true ↔ Walk.Leads p.supertypes c d := by
  have hmem : d ∈ (ofProgram p).supertypes c ↔ Walk.Leads p.supertypes c d :=
    Walk.mem_depthFirst
  unfold isSubtype?
  by_cases hcd : c = d
  · rw [if_pos hcd, hcd]
    exact ⟨fun _ => .refl, fun _ => rfl⟩
  · rw [if_neg hcd]
    show (if c.idx < p.classes.size then some (decide (d ∈ (ofProgram p).supertypes c)) else none) =
      some true ↔ _
    by_cases hc : c.idx < p.classes.size
    · rw [if_pos hc, Option.some.injEq, decide_eq_true_eq, hmem]
    · -- an unknown class names no supertypes
      have hnone : p.supertypes c = [] :=
        Program.supertypes_of_unknown (Array.getElem?_eq_none (Nat.le_of_not_lt hc))
      rw [if_neg hc]
      refine ⟨fun h => (by cases h), fun h => ?_⟩
      rcases Relation.ReflTransGen.cases_head h with h | ⟨b, hb, _⟩
      · exact absurd h hcd
      · rw [hnone] at hb
        cases hb

theorem mem_subtypes {c d : ClassId} :
    d ∈ (ofProgram p).subtypes c ↔ (ofProgram p).isSubtype? d c = some true := by
  have hstep : (fun a b => b ∈ (ofProgram p).directSubtypes a) =
      Function.swap fun a b => b ∈ p.supertypes a := by
    funext a b
    exact propext mem_directSubtypes
  rw [isSubtype?_iff]
  unfold subtypes
  rw [Walk.mem_breadthFirst]
  show Relation.ReflTransGen (fun a b => b ∈ (ofProgram p).directSubtypes a) c d ↔ _
  rw [hstep, Relation.reflTransGen_swap]
  rfl

end

end Hierarchy

end PointsTo
