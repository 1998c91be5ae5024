import Mathlib.Data.List.Nodup
import PointsTo.Proofs.JsonText
import PointsTo.World

/-!
# Reading back a program

What is written for a program is read as that program exactly if all its
identifiers are 32-bit numbers. Each part of a program has its own lemma of this
form, an instance of `Inverts`, put together from those of its fields.
-/

namespace PointsTo

def Words (ns : List Nat) : Prop := ∀ n ∈ ns, n ≤ Json.maxId

instance (ns : List Nat) : Decidable (Words ns) := inferInstanceAs (Decidable (∀ n ∈ ns, n ≤ Json.maxId))

section
variable {α : Type} {n : Nat} {ns ms : List Nat} {xs : List α}

@[simp] theorem words_nil : Words [] := by simp [Words]

@[simp] theorem words_cons : Words (n :: ns) ↔ n ≤ Json.maxId ∧ Words ns := by simp [Words]

@[simp] theorem words_append : Words (ns ++ ms) ↔ Words ns ∧ Words ms := by simp [Words, or_imp, forall_and]

theorem words_map {f : α → Nat} : Words (xs.map f) ↔ ∀ x ∈ xs, f x ≤ Json.maxId := by simp [Words]

@[simp] theorem words_flatMap {f : α → List Nat} : Words (xs.flatMap f) ↔ ∀ x ∈ xs, Words (f x) := by
  simp only [Words, List.mem_flatMap]
  exact ⟨fun h x hx n hn => h n ⟨x, hx, hn⟩, fun h n ⟨x, hx, hn⟩ => h x hx n hn⟩

end

/-! ## Identifiers of a program -/

def Call.ids (c : Call) : List Nat :=
  c.target.cls.idx :: (c.receiver.toList.map Id.idx ++ c.args.map Id.idx ++ c.result.toList.map Id.idx)

def Stmt.ids : Stmt → List Nat
  | .alloc lhs cls => [lhs.idx, cls.idx]
  | .copy lhs rhs => [lhs.idx, rhs.idx]
  | .loadField lhs base field => lhs.idx :: (base.toList.map Id.idx ++ [field.cls.idx])
  | .storeField base field rhs => base.toList.map Id.idx ++ [field.cls.idx, rhs.idx]
  | .loadArray lhs base => [lhs.idx, base.idx]
  | .storeArray base rhs => [base.idx, rhs.idx]
  | .invoke call => call.ids
  | .ret value => value.toList.map Id.idx
  | .nop => []

def Class.ids (c : Class) : List Nat :=
  c.superclass.toList.map Id.idx ++ c.interfaces.map Id.idx ++ c.methods.map Id.idx ++ c.fields.map Id.idx

def Method.ids (m : Method) : List Nat :=
  m.cls.idx :: (m.thisVar.toList.map Id.idx ++ m.params.map Id.idx ++ m.body.toList.flatMap Stmt.ids)

def Program.ids (p : Program) : List Nat :=
  p.classes.toList.flatMap Class.ids ++ p.methods.toList.flatMap Method.ids
    ++ p.fields.toList.map (fun f => f.cls.idx) ++ p.vars.toList.map (fun v => v.method.idx)
    ++ p.entry.toList.map Id.idx

namespace Json

/-! ## Shapes -/

/-- What is written for `x` is read as `x` if `x` fits, and not at all otherwise. -/
def Inverts {α : Type} (read : Json → Option α) (write : α → Json) (fits : α → Prop) : Prop :=
  ∀ x y, read (write x) = some y ↔ fits x ∧ x = y

section
variable {α : Type} {read : Json → Option α} {write : α → Json} {fits : α → Prop}

theorem Inverts.mapM (h : Inverts read write fits) (xs ys : List α) :
    (xs.map write).mapM read = some ys ↔ (∀ x ∈ xs, fits x) ∧ xs = ys := by
  induction xs generalizing ys with
  | nil => simp
  | cons x xs ih =>
    have hx := h x
    simp only [List.map_cons, List.mapM_cons, Option.bind_eq_bind, Option.bind_eq_some_iff, hx, ih]
    simp [and_assoc]

theorem Inverts.list (h : Inverts read write fits) :
    Inverts (list? read) (Json.list write) fun xs => ∀ x ∈ xs, fits x :=
  h.mapM

theorem Inverts.optional (h : Inverts read write fits) (hnull : ∀ x, write x ≠ .null) :
    Inverts (optional? read) (Json.optional write) fun o => ∀ x ∈ o, fits x := by
  intro o y
  cases o with
  | none => simp [optional?, Json.optional]
  | some x =>
    have hopt : optional? read (write x) = (read (write x)).map some := by
      cases hw : write x with
      | null => exact absurd hw (hnull x)
      | _ => rfl
    simp [Json.optional, hopt, h x]

end

theorem inverts_id {e : Entity} : Inverts id? (Json.id (e := e)) fun i => i.idx ≤ maxId := by
  intro i k
  simp [id?, Json.id, nat, Number.toNat?, Number.ofNat]

theorem inverts_ids {e : Entity} :
    Inverts (list? id?) (list (Json.id (e := e))) fun is => Words (is.map Id.idx) := by
  intro is js
  simpa [Words] using inverts_id.list is js

theorem inverts_optionalId {e : Entity} :
    Inverts (optional? id?) (optional (Json.id (e := e))) fun o => Words (o.toList.map Id.idx) := by
  intro o y
  have h := inverts_id.optional (fun i => by simp [Json.id, nat]) o y
  simpa [Words] using h

@[simp] theorem text?_text (s : String) : text? (text s) = some s := rfl

@[simp] theorem bool?_bool (b : Bool) : bool? (.bool b) = some b := rfl

@[simp] theorem required_some {α : Type} (value : Json → Option α) (j : Json) :
    required value (some j) = value j := rfl

@[simp] theorem defaulted_some {α : Type} (d : α) (value : Json → Option α) (j : Json) :
    defaulted d value (some j) = value j := rfl

theorem lookup_map {members : List (String × Json)} (hn : (members.map Prod.fst).Nodup) {m : String × Json}
    (hm : m ∈ members) : lookup (members.map fun m => (some m.1, m.2)) m.1 = some m.2 := by
  induction members with
  | nil => simp at hm
  | cons m' members ih =>
    simp only [List.map_cons, List.nodup_cons] at hn
    rcases List.mem_cons.mp hm with rfl | hm
    · simp [lookup]
    · have hne : m'.1 ≠ m.1 := fun h => hn.1 (h ▸ List.mem_map_of_mem hm)
      simpa [lookup, hne] using ih hn.2 hm

theorem keysFit_map {members : List (String × Json)} (hn : (members.map Prod.fst).Nodup) (names : List String) :
    keysFit names (members.map fun m => (some m.1, m.2)) = true := by
  have hcount : ∀ n, ((members.map fun m => (some m.1, m.2)).filter fun m => m.1 = some n).length ≤ 1 := by
    intro n
    have h := List.nodup_iff_count_le_one.mp hn n
    rw [List.count, List.countP_map] at h
    rw [← List.countP_eq_length_filter, List.countP_map]
    simpa [Function.comp_def, beq_eq_decide] using h
  simp [keysFit, hcount]

theorem fields?_record {names : List String} {members : List (String × Json)} (hn : names.Nodup)
    (hm : members.map Prod.fst = names) :
    (record members).fields? names = some (members.map fun m => some m.2) := by
  subst hm
  have hlookup : members.map (fun m => lookup (members.map fun m => (some m.1, m.2)) m.1) =
      members.map fun m => some m.2 :=
    List.map_congr_left fun m hm => lookup_map hn hm
  simp [record, fields?, keysFit_map hn, Function.comp_def, hlookup]

theorem plain_record (room : Nat) (members : List (String × Json)) :
    plain (room + 1) (record members) = members.all fun m => plain room m.2 := by
  induction members with
  | nil => simp [record, plain, plainMembers]
  | cons m members ih =>
    simp only [record, plain, List.map_cons, plainMembers] at ih ⊢
    simp [ih]

theorem plain_list {α : Type} (room : Nat) (write : α → Json) (xs : List α) :
    plain (room + 1) (list write xs) = xs.all fun x => plain room (write x) := by
  induction xs with
  | nil => simp [list, plain, plainItems]
  | cons x xs ih =>
    simp only [list, plain, List.map_cons, plainItems] at ih ⊢
    simp [ih]

theorem tagged?_record {tag : String} {depth : Nat} {op : String} {members : List (String × Json)}
    (htag : tag ∉ members.map Prod.fst) :
    tagged? tag depth (record ((tag, text op) :: members)) =
      if plain (maxNesting - depth + 1) (record members) then some (op, record members) else none := by
  have hne : ∀ m ∈ members, m.1 ≠ tag := fun m hm h => htag (h ▸ List.mem_map_of_mem hm)
  have htags : (members.map fun m => (some m.1, m.2)).filter (fun m => m.1 = some tag) = [] := by
    rw [List.filter_eq_nil_iff, List.forall_mem_map]
    simpa using hne
  have hcontent : (members.map fun m => (some m.1, m.2)).filter (fun m => !decide (m.1 = some tag)) =
      members.map fun m => (some m.1, m.2) := by
    rw [List.filter_eq_self, List.forall_mem_map]
    simpa using hne
  simp [tagged?, record, List.partition_eq_filter_filter, Function.comp_def, htags, hcontent, plain, text, text?]

/-! ## Numbers as doubles -/

theorem round53_of_lt {n : Nat} (h : n < Nat.pow 2 53) : Number.round53 n = n := by
  have hlog : n.log2 + 1 - 53 = 0 := by
    by_cases hn : n = 0
    · simp [hn]
    · have := (Nat.log2_lt hn).mpr h
      omega
  simp [Number.round53, hlog, Nat.mod_one]

theorem fitsDouble_ofNat {n : Nat} (h : n ≤ maxId) : (Number.ofNat n).fitsDouble = true := by
  unfold maxId at h
  have hwidth : Number.width n - 20 = 0 := by
    have hlen := (Nat.length_toDigits_le_iff (b := 10) (n := n) (k := 20) (by decide) (by decide)).mpr (by omega)
    unfold Number.width
    split <;> omega
  have hlead : (Number.ofNat n).leading = (n, 0) := by
    have hlt : n < Nat.pow 2 64 := Nat.lt_of_le_of_lt h (by decide)
    simp [Number.leading, Number.ofNat, hwidth, hlt]
  have hone : Number.round53 (Nat.pow 10 (Int.toNat 0)) = 1 := by decide
  have hbound : n < Nat.pow 2 1024 - Nat.pow 2 970 := Nat.lt_of_le_of_lt h (by decide +kernel)
  have hround : Number.round53 n = n := round53_of_lt (Nat.lt_of_le_of_lt h (by decide))
  simp only [Number.fitsDouble, hlead, hround, hone, Nat.mul_one, decide_eq_true hbound]
  simp

theorem plain_id {e : Entity} {i : Id e} (h : i.idx ≤ maxId) (room : Nat) : plain room (Json.id i) = true :=
  fitsDouble_ofNat h

theorem plain_ids {e : Entity} {is : List (Id e)} (h : Words (is.map Id.idx)) (room : Nat) :
    plain (room + 1) (list Json.id is) = true := by
  rw [plain_list, List.all_eq_true]
  exact fun i hi => plain_id (h i.idx (List.mem_map_of_mem hi)) room

theorem plain_optionalId {e : Entity} {o : Option (Id e)} (h : Words (o.toList.map Id.idx)) (room : Nat) :
    plain room (optional Json.id o) = true := by
  cases o with
  | none => rfl
  | some i => exact plain_id (h i.idx (by simp)) room

@[simp] theorem plain_text (s : String) (room : Nat) : plain room (text s) = true := rfl

end Json

open Json

/-! ## Parts of a program -/

theorem FieldRef.inverts : Inverts FieldRef.ofJson? FieldRef.toJson fun f => f.cls.idx ≤ maxId := by
  intro f g
  simp [ofJson?, toJson, fields?_record, Option.bind_eq_some_iff, inverts_id _ _]

theorem MethodRef.inverts : Inverts MethodRef.ofJson? MethodRef.toJson fun m => m.cls.idx ≤ maxId := by
  intro m n
  simp [ofJson?, toJson, fields?_record, Option.bind_eq_some_iff, inverts_id _ _]

theorem CallKind.ofJson?_toJson (inContent : Bool) (k : CallKind) : ofJson? inContent k.toJson = some k := by
  cases k <;> rfl

theorem Call.inverts (inContent : Bool) : Inverts (Call.ofJson? inContent) Call.toJson fun c => Words c.ids := by
  intro c d
  simp [ofJson?, toJson, members, ids, fields?_record, Option.bind_eq_some_iff, CallKind.ofJson?_toJson,
    MethodRef.inverts _ _, inverts_ids _ _, inverts_optionalId _ _, and_assoc]

namespace Stmt

def op : Stmt → String
  | .alloc .. => "new"
  | .copy .. => "copy"
  | .loadField .. => "load_field"
  | .storeField .. => "store_field"
  | .loadArray .. => "load_array"
  | .storeArray .. => "store_array"
  | .invoke .. => "invoke"
  | .ret .. => "return"
  | .nop => "nop"

def content (s : Stmt) : List (String × Json) := s.members.tail

theorem members_eq (s : Stmt) : s.members = ("op", text s.op) :: s.content := by
  cases s <;> rfl

theorem op_not_mem_content (s : Stmt) : "op" ∉ s.content.map Prod.fst := by
  cases s <;> simp [content, members, Call.members]

theorem ofContent?_content (s t : Stmt) :
    ofContent? s.op (record s.content) = some t ↔ Words s.ids ∧ s = t := by
  cases s with
  | invoke call =>
    have h := Call.inverts true call
    simp_all [Call.toJson, op, content, members, ids, ofContent?, Option.bind_eq_some_iff]
  | _ =>
    simp [op, content, members, ids, ofContent?, fields?_record, Option.bind_eq_some_iff, FieldRef.inverts _ _,
      inverts_id _ _, inverts_optionalId _ _, and_assoc]

theorem plain_content {s : Stmt} (h : Words s.ids) (room : Nat) : plain (room + 2) (record s.content) = true := by
  cases s with
  | invoke call =>
    simp_all [content, members, Call.members, CallKind.toJson, ids, Call.ids, MethodRef.toJson, plain_record,
      plain_id, plain_ids, plain_optionalId]
  | _ =>
    simp_all [content, members, ids, plain_record, FieldRef.toJson, plain_id, plain_optionalId]

theorem inverts {depth : Nat} (hdepth : depth < maxNesting) :
    Inverts (Stmt.ofJson? depth) Stmt.toJson fun s => Words s.ids := by
  intro s t
  obtain ⟨room, hroom⟩ : ∃ room, maxNesting - depth = room + 1 := ⟨maxNesting - depth - 1, by omega⟩
  unfold ofJson? toJson
  rw [members_eq, tagged?_record s.op_not_mem_content, hroom]
  by_cases h : Words s.ids
  · simp [plain_content h, ofContent?_content]
  · by_cases hplain : plain (room + 1 + 1) (record s.content) <;> simp [hplain, ofContent?_content, h]

end Stmt

theorem Class.inverts : Inverts Class.ofJson? Class.toJson fun c => Words c.ids := by
  intro c d
  simp [ofJson?, toJson, ids, fields?_record, Option.bind_eq_some_iff, inverts_ids _ _, inverts_optionalId _ _,
    and_assoc]

theorem Method.inverts {depth : Nat} (hdepth : depth + 2 < maxNesting) :
    Inverts (Method.ofJson? depth) Method.toJson fun m => Words m.ids := by
  intro m n
  simp [ofJson?, toJson, ids, fields?_record, Option.bind_eq_some_iff, (Stmt.inverts hdepth).list _ _,
    inverts_id _ _, inverts_ids _ _, inverts_optionalId _ _, and_assoc]

theorem Field.inverts : Inverts Field.ofJson? Field.toJson fun f => f.cls.idx ≤ maxId := by
  intro f g
  simp [ofJson?, toJson, fields?_record, Option.bind_eq_some_iff, inverts_id _ _]

theorem Var.inverts : Inverts Var.ofJson? Var.toJson fun v => v.method.idx ≤ maxId := by
  intro v u
  simp [ofJson?, toJson, fields?_record, Option.bind_eq_some_iff, inverts_id _ _]

namespace Program

theorem entryGiven_record (members : List (String × Json)) : entryGiven (record members) = true := rfl

theorem inverts : Inverts Program.ofJson? Program.toJson fun p => Words p.ids := by
  intro p q
  -- Statements are nested five levels deep: program, methods, method, body, statement.
  have hmethods := (Method.inverts (show 3 + 2 < maxNesting by decide)).list p.methods.toList
  simp [ofJson?, toJson, ids, fields?_record, Option.bind_eq_some_iff, entryGiven_record, words_map,
    Class.inverts.list _ _, hmethods, Field.inverts.list _ _, Var.inverts.list _ _, inverts_optionalId _ _,
    and_assoc]

/-- What is written for a program is read as that program, provided that its identifiers are 32-bit
words; otherwise it cannot be read. -/
theorem read_write (p : Program) :
    Program.read p.write = (if Words p.ids then .ok p else .error .unreadable) ∧
      World.read p.write = if Words p.ids then World.ofProgram p else .error .unreadable := by
  have hread : Program.read p.write = if Words p.ids then .ok p else .error .unreadable := by
    unfold read write
    rw [read?_compact]
    by_cases hp : Words p.ids
    · simp [(inverts p p).mpr ⟨hp, rfl⟩, hp]
    · cases hq : ofJson? p.toJson with
      | none => simp [hq, hp]
      | some q => exact absurd ((inverts p q).mp hq).1 hp
  refine ⟨hread, ?_⟩
  unfold World.read
  by_cases hp : Words p.ids
  · rw [hread, if_pos hp, if_pos hp]
    rfl
  · rw [hread, if_neg hp, if_neg hp]
    rfl

/-- Names with quotes, a backslash, a line break, control characters and a character beyond 16 bits,
and the largest identifier. -/
def quoted : Program where
  classes := #[⟨"\"\\\n", some ⟨4294967295⟩, [], false, true, [⟨0⟩], []⟩]
  methods := #[⟨"", ⟨0⟩, "\x01\x08\x1f\x7f", true, false, none, [⟨7⟩],
    #[.loadField ⟨7⟩ none ⟨⟨0⟩, "😀/"⟩, .invoke ⟨.dynamic, ⟨⟨0⟩, "\t"⟩, none, [⟨7⟩, ⟨7⟩], some ⟨7⟩⟩,
      .ret none, .nop]⟩]
  fields := #[⟨"\r", ⟨0⟩, true⟩]
  vars := #[⟨"null", ⟨4294967295⟩⟩]
  entry := none

theorem read_write_quoted : Words quoted.ids ∧ Program.read quoted.write = .ok quoted := by
  have hwords : Words quoted.ids := by decide
  exact ⟨hwords, (read_write quoted).1.trans (if_pos hwords)⟩

end Program

end PointsTo
