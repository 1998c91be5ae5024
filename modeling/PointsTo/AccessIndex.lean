import PointsTo.Hierarchy

/-!
# Accesses by base variable

Field accesses, array accesses and calls take effect when their base or receiver learns of an
object, so they are listed by that variable. Field references are resolved on the way, in all
methods: one that leads nowhere is an error even if nothing reaches it.
-/

namespace PointsTo

structure Accesses where
  /-- For `base.f = rhs`, the field and `rhs`. -/
  fieldStores : List (FieldId × VarId)
  /-- For `lhs = base.f`, `lhs` and the field. -/
  fieldLoads : List (VarId × FieldId)
  /-- For `base[*] = rhs`, `rhs`. -/
  arrayStores : List VarId
  /-- For `lhs = base[*]`, `lhs`. -/
  arrayLoads : List VarId
  calls : List StmtId
  deriving DecidableEq, Repr

namespace Accesses

def empty : Accesses := ⟨[], [], [], [], []⟩

instance : Inhabited Accesses := ⟨empty⟩

end Accesses

structure AccessIndex where
  byVar : Std.HashMap VarId Accesses
  staticFields : Std.HashMap StmtId FieldId

namespace AccessIndex

def empty : AccessIndex := ⟨∅, ∅⟩

instance : Inhabited AccessIndex := ⟨empty⟩

/-- The accesses whose base is `v`, if there are any. -/
def accesses? (index : AccessIndex) (v : VarId) : Option Accesses := index.byVar[v]?

/-- The field that a static access means. -/
def staticField? (index : AccessIndex) (s : StmtId) : Option FieldId := index.staticFields[s]?

/-- The field of an access that stands at a base or not, which must fit the field. -/
def resolve (h : Hierarchy) (base : Option VarId) (f : FieldRef) : Except Error FieldId := do
  let id ← h.resolveField f
  match h.program.field? id with
  | none => .error .unknownId
  | some field =>
    if field.isStatic = base.isNone then .ok id
    else
      match h.className? field.cls with
      | none => .error .unknownId
      | some c => .error (.malformed (.wrongAccess c field.name field.isStatic))

def record (index : AccessIndex) (v : VarId) (f : Accesses → Accesses) : AccessIndex :=
  { index with byVar := index.byVar.alter v fun old => some (f (old.getD .empty)) }

/-- A field access: listed under its base, or as static. -/
def recordField (index : AccessIndex) (site : StmtId) (base : Option VarId) (field : FieldId)
    (f : Accesses → Accesses) : AccessIndex :=
  match base with
  | some v => index.record v f
  | none => { index with staticFields := index.staticFields.insert site field }

def add (h : Hierarchy) (index : AccessIndex) : StmtId × Stmt → Except Error AccessIndex
  | (site, .loadField lhs base f) => do
    let field ← resolve h base f
    return index.recordField site base field fun a =>
      { a with fieldLoads := a.fieldLoads ++ [(lhs, field)] }
  | (site, .storeField base f rhs) => do
    let field ← resolve h base f
    return index.recordField site base field fun a =>
      { a with fieldStores := a.fieldStores ++ [(field, rhs)] }
  | (_, .loadArray lhs base) =>
    return index.record base fun a => { a with arrayLoads := a.arrayLoads ++ [lhs] }
  | (_, .storeArray base rhs) =>
    return index.record base fun a => { a with arrayStores := a.arrayStores ++ [rhs] }
  | (site, .invoke call) =>
    match call.receiver with
    | some v => return index.record v fun a => { a with calls := a.calls ++ [site] }
    | none => return index
  | (_, .alloc ..) | (_, .copy ..) | (_, .ret _) | (_, .nop) => return index

/-- The index of all methods, or the first access that does not resolve. -/
def ofHierarchy (h : Hierarchy) : Except Error AccessIndex := h.program.stmts.foldlM (add h) empty

end AccessIndex

end PointsTo
