import Mathlib.Data.List.Induction
import PointsTo.Proofs.Contents

/-!
# Canonical handles

Contexts, objects, call sites, methods and pointers get their handles in the
order in which they are first asked for, each kind from zero. Equal contents
have one handle, which stands for them from then on, whatever else is asked for
or put into the sets of pointers.
-/

namespace PointsTo.Entities

inductive Content
  | context (c : Context)
  | obj (o : CSObj)
  | site (s : CSCallSite)
  | method (m : CSMethod)
  | pointer (a : Pointer)
  deriving DecidableEq

inductive Handle
  | context (i : ContextId)
  | obj (i : CSObjId)
  | site (i : CSCallSiteId)
  | method (i : CSMethodId)
  | pointer (i : PointerId)
  deriving DecidableEq

def Content.kind : Content → Entity
  | .context _ => .context
  | .obj _ => .csObj
  | .site _ => .csCallSite
  | .method _ => .csMethod
  | .pointer _ => .pointer

def Handle.kind : Handle → Entity
  | .context _ => .context
  | .obj _ => .csObj
  | .site _ => .csCallSite
  | .method _ => .csMethod
  | .pointer _ => .pointer

def Handle.idx : Handle → Nat
  | .context i => i.idx
  | .obj i => i.idx
  | .site i => i.idx
  | .method i => i.idx
  | .pointer i => i.idx

deriving instance DecidableEq for Entity

def intern (e : Entities) : Content → Handle × Entities
  | .context c => Prod.map .context id (e.internContext c)
  | .obj o => Prod.map .obj id (e.internObj o)
  | .site s => Prod.map .site id (e.internSite s)
  | .method m => Prod.map .method id (e.internMethod m)
  | .pointer a => Prod.map .pointer id (e.internPointer a)

def content? (e : Entities) : Handle → Option Content
  | .context i => (e.context? i).map .context
  | .obj i => (e.obj? i).map .obj
  | .site i => (e.site? i).map .site
  | .method i => (e.method? i).map .method
  | .pointer i => (e.pointer? i).map .pointer

def count (e : Entities) : Entity → Nat
  | .context => e.contexts.size
  | .csObj => e.objs.size
  | .csCallSite => e.sites.size
  | .csMethod => e.methods.size
  | .pointer => e.pointers.size
  | _ => 0

def listing (e : Entities) : Entity → List Content
  | .context => e.contexts.toList.map .context
  | .csObj => e.objs.toList.map .obj
  | .csCallSite => e.sites.toList.map .site
  | .csMethod => e.methods.toList.map .method
  | .pointer => e.pointers.toList.map .pointer
  | _ => []

section
variable {e : Entities}

theorem content?_eq (h : Handle) : e.content? h = (e.listing h.kind)[h.idx]? := by
  cases h with
  | context i => simp [content?, listing, Handle.kind, Handle.idx, context?, Table.get?_eq]
  | obj i => simp [content?, listing, Handle.kind, Handle.idx, obj?, Table.get?_eq]
  | site i => simp [content?, listing, Handle.kind, Handle.idx, site?, Table.get?_eq]
  | method i => simp [content?, listing, Handle.kind, Handle.idx, method?, Table.get?_eq]
  | pointer i => simp [content?, listing, Handle.kind, Handle.idx, pointer?, Table.get?_eq]

theorem count_eq (k : Entity) : e.count k = (e.listing k).length := by
  cases k <;> simp [count, listing, Table.size_eq]

theorem map_toList_intern {α : Type} [DecidableEq α] [Hashable α] {f : α → Content}
    (hf : Function.Injective f) (t : Table α) (a : α) : (t.intern a).2.toList.map f =
      if f a ∉ t.toList.map f then t.toList.map f ++ [f a] else t.toList.map f := by
  have hmem : f a ∈ t.toList.map f ↔ a ∈ t.toList := List.mem_map_of_injective hf
  rw [Table.toList_intern]
  by_cases ha : a ∈ t.toList
  · rw [if_pos ha, if_neg (not_not.mpr (hmem.mpr ha))]
  · rw [if_neg ha, if_pos (fun h => ha (hmem.mp h)), List.map_append]
    rfl

theorem listing_internPointer (a : Pointer) {k : Entity} (hk : k ≠ .pointer) :
    (e.internPointer a).2.listing k = e.listing k := by
  unfold internPointer
  dsimp only
  split <;> cases k with
    | pointer => exact absurd rfl hk
    | _ => rfl

/-- A content is listed once, among those of its kind. -/
theorem listing_intern (x : Content) (k : Entity) : (e.intern x).2.listing k =
    if x.kind = k ∧ x ∉ e.listing k then e.listing k ++ [x] else e.listing k := by
  by_cases hk : x.kind = k
  · subst hk
    simp only [true_and]
    cases x with
    | context c => exact map_toList_intern (fun _ _ => Content.context.inj) _ c
    | obj o => exact map_toList_intern (fun _ _ => Content.obj.inj) _ o
    | site s => exact map_toList_intern (fun _ _ => Content.site.inj) _ s
    | method m => exact map_toList_intern (fun _ _ => Content.method.inj) _ m
    | pointer a =>
      show (e.internPointer a).2.pointers.toList.map _ = _
      rw [internPointer_pointers]
      exact map_toList_intern (fun _ _ => Content.pointer.inj) _ a
  · rw [if_neg fun h => hk h.1]
    cases x with
    | pointer a => exact listing_internPointer a (Ne.symm hk)
    | context c => cases k with
      | context => exact absurd rfl hk
      | _ => rfl
    | obj o => cases k with
      | csObj => exact absurd rfl hk
      | _ => rfl
    | site s => cases k with
      | csCallSite => exact absurd rfl hk
      | _ => rfl
    | method m => cases k with
      | csMethod => exact absurd rfl hk
      | _ => rfl

theorem exists_findContext? {c : Context} :
    (∃ i, e.findContext? c = some i) ↔ .context c ∈ e.listing .context := by
  rw [listing, List.mem_map_of_injective fun _ _ => Content.context.inj, Table.mem_toList]
  simp only [findContext?_eq_some]
  exact ⟨fun ⟨i, hi⟩ => ⟨i.idx, hi⟩, fun ⟨n, hn⟩ => ⟨⟨n⟩, hn⟩⟩

theorem exists_findPointer? {a : Pointer} :
    (∃ p, e.findPointer? a = some p) ↔ .pointer a ∈ e.listing .pointer := by
  rw [listing, List.mem_map_of_injective fun _ _ => Content.pointer.inj, Table.mem_toList]
  simp only [findPointer?_eq_some]
  exact ⟨fun ⟨p, hp⟩ => ⟨p.idx, hp⟩, fun ⟨n, hn⟩ => ⟨⟨n⟩, hn⟩⟩

theorem content?_intern (x : Content) : (e.intern x).2.content? (e.intern x).1 = some x := by
  cases x with
  | pointer a =>
    show ((e.internPointer a).2.pointers.get? (e.internPointer a).1.idx).map _ = _
    rw [internPointer_pointers, internPointer_fst, Table.get?_intern_self]
    rfl
  | _ => exact congrArg (Option.map _) (Table.get?_intern_self _ _)

theorem nodup_listing (e : Entities) (k : Entity) : (e.listing k).Nodup := by
  cases k with
  | context => exact (Table.nodup_toList _).map fun _ _ => Content.context.inj
  | csObj => exact (Table.nodup_toList _).map fun _ _ => Content.obj.inj
  | csCallSite => exact (Table.nodup_toList _).map fun _ _ => Content.site.inj
  | csMethod => exact (Table.nodup_toList _).map fun _ _ => Content.method.inj
  | pointer => exact (Table.nodup_toList _).map fun _ _ => Content.pointer.inj
  | _ => exact List.nodup_nil

theorem Handle.ext_idx : ∀ {i j : Handle}, i.kind = j.kind → i.idx = j.idx → i = j
  | .context _, .context _, _, h => congrArg _ (Id.ext_idx h)
  | .obj _, .obj _, _, h => congrArg _ (Id.ext_idx h)
  | .site _, .site _, _, h => congrArg _ (Id.ext_idx h)
  | .method _, .method _, _, h => congrArg _ (Id.ext_idx h)
  | .pointer _, .pointer _, _, h => congrArg _ (Id.ext_idx h)

theorem kind_of_content? {i : Handle} {x : Content} (hi : e.content? i = some x) : i.kind = x.kind := by
  cases i <;> (obtain ⟨_, _, rfl⟩ := Option.map_eq_some_iff.mp hi; rfl)

theorem content?_inj {i j : Handle} {x : Content} (hi : e.content? i = some x)
    (hj : e.content? j = some x) : i = j := by
  have hkind : i.kind = j.kind := (kind_of_content? hi).trans (kind_of_content? hj).symm
  rw [content?_eq] at hi hj
  rw [hkind] at hi
  obtain ⟨hlt, _⟩ := List.getElem?_eq_some_iff.mp hi
  exact Handle.ext_idx hkind ((List.getElem?_inj hlt (e.nodup_listing _)).mp (hi.trans hj.symm))

end

/-! ## Requests -/

/-- Puts another set in the place of the one that `p` has; an unknown pointer has none. -/
def write (e : Entities) (p : PointerId) (set : ObjSet) : Entities :=
  { e with sets := e.sets.setIfInBounds p.idx set }

inductive Request
  | intern (x : Content)
  | extend (p : PointerId) (set : ObjSet)
  | write (p : PointerId) (set : ObjSet)

def Request.content? : Request → Option Content
  | .intern x => some x
  | _ => none

def perform (e : Entities) : Request → Entities
  | .intern x => (e.intern x).2
  | .extend p set => (e.extend p set).2
  | .write p set => e.write p set

def replay (reqs : List Request) : Entities := reqs.foldl perform empty

/-- What was asked for so far. The empty context is there from the start. -/
def asked (reqs : List Request) : List Content := .context .empty :: reqs.filterMap Request.content?

def firsts (k : Entity) (reqs : List Request) : List Content :=
  ((asked reqs).filter (·.kind = k)).eraseDups

def Answered (reqs : List Request) (x : Content) (h : Handle) : Prop :=
  ∃ before after, reqs = before ++ .intern x :: after ∧ ((replay before).intern x).1 = h

/-! ## What requests keep -/

section
variable {e : Entities}

theorem prefix_listing_perform (e : Entities) (r : Request) (k : Entity) :
    e.listing k <+: (e.perform r).listing k := by
  cases r with
  | intern x =>
    rw [perform, listing_intern]
    split
    · exact List.prefix_append _ _
    · exact List.prefix_rfl
  | extend p set =>
    rw [perform, extend_snd]
    exact List.prefix_rfl
  | write p set => exact List.prefix_rfl

structure InStep (e : Entities) : Prop where
  sets : e.sets.size = e.pointers.size
  indexed : e.Indexed

theorem InStep.write (h : e.InStep) (p : PointerId) (set : ObjSet) : (e.write p set).InStep :=
  ⟨Array.size_setIfInBounds.trans h.sets, h.indexed⟩

theorem InStep.exists_pointsTo? (h : e.InStep) {p : PointerId} :
    (∃ set, e.pointsTo? p = some set) ↔ ∃ a, e.pointer? p = some a := by
  unfold pointsTo? pointer? Table.get?
  simp only [← Option.isSome_iff_exists, isSome_getElem?]
  rw [h.sets]
  rfl

theorem InStep.perform (h : e.InStep) : ∀ r, (e.perform r).InStep
  | .intern (.context _) => ⟨h.sets, h.indexed⟩
  | .intern (.obj _) => ⟨h.sets, h.indexed⟩
  | .intern (.site _) => ⟨h.sets, h.indexed⟩
  | .intern (.method _) => ⟨h.sets, h.indexed⟩
  | .intern (.pointer a) => ⟨size_sets_internPointer a h.sets, h.indexed.internPointer a⟩
  | .extend p set => by
    rw [Entities.perform, extend_snd]
    exact h.write p _
  | .write p set => h.write p set

end

/-! ## What runs of requests lead to -/

theorem replay_concat (reqs : List Request) (r : Request) : replay (reqs ++ [r]) = (replay reqs).perform r :=
  List.foldl_concat ..

theorem inStep_replay (reqs : List Request) : (replay reqs).InStep := by
  induction reqs using List.reverseRecOn with
  | nil => exact ⟨rfl, indexed_empty⟩
  | append_singleton reqs r ih =>
    rw [replay_concat]
    exact ih.perform r

theorem prefix_listing_replay (reqs rest : List Request) (k : Entity) :
    (replay reqs).listing k <+: (replay (reqs ++ rest)).listing k := by
  induction rest using List.reverseRecOn with
  | nil => simp
  | append_singleton rest r ih =>
    rw [← List.append_assoc, replay_concat]
    exact ih.trans (prefix_listing_perform _ r k)

theorem firsts_concat (k : Entity) (reqs : List Request) (x : Content) : firsts k (reqs ++ [.intern x]) =
    if x.kind = k ∧ x ∉ firsts k reqs then firsts k reqs ++ [x] else firsts k reqs := by
  have hasked : asked (reqs ++ [.intern x]) = asked reqs ++ [x] := by simp [asked, Request.content?]
  unfold firsts
  rw [hasked, List.filter_append]
  by_cases hk : x.kind = k
  · have hfilter : [x].filter (·.kind = k) = [x] := by simp [hk]
    rw [hfilter, eraseDups_concat]
    by_cases hx : x ∈ ((asked reqs).filter (·.kind = k)).eraseDups <;> simp [hk, hx]
  · simp [hk]

theorem firsts_update {r : Request} (hr : r.content? = none) (k : Entity) (reqs : List Request) :
    firsts k (reqs ++ [r]) = firsts k reqs := by
  simp [firsts, asked, hr]

theorem listing_replay (reqs : List Request) (k : Entity) : (replay reqs).listing k = firsts k reqs := by
  induction reqs using List.reverseRecOn with
  | nil => cases k with
    | context => simp [replay, empty, listing, Table.toList_intern, firsts, asked, Content.kind,
        List.eraseDups_cons]
    | _ => rfl
  | append_singleton reqs r ih =>
    rw [replay_concat]
    cases r with
    | intern x => rw [perform, listing_intern, firsts_concat, ih]
    | extend p set =>
      rw [perform, extend_snd, firsts_update rfl, ← ih]
      rfl
    | write p set =>
      rw [perform, firsts_update rfl, ← ih]
      rfl

theorem mem_firsts {reqs : List Request} {x : Content} : x ∈ firsts x.kind reqs ↔ x ∈ asked reqs := by
  simp [firsts]

/-- An answer keeps its meaning to the end. -/
theorem Answered.content? {reqs : List Request} {x : Content} {i : Handle} (h : Answered reqs x i) :
    (replay reqs).content? i = some x := by
  obtain ⟨before, after, rfl, rfl⟩ := h
  have hnow := content?_intern (e := replay before) x
  rw [content?_eq] at hnow ⊢
  obtain ⟨rest, hrest⟩ := prefix_listing_replay (before ++ [.intern x]) after
    ((replay before).intern x).1.kind
  rw [replay_concat, List.append_assoc] at hrest
  rw [show before ++ .intern x :: after = before ++ ([.intern x] ++ after) from rfl, ← hrest]
  exact (List.getElem?_append_left (List.getElem?_eq_some_iff.mp hnow).1).trans hnow

/-- With at most `2 ^ 32` contents of its kind, an answer is the same in 32 bits. -/
theorem Answered.toNat_toUInt32 {reqs : List Request} {x : Content} {i : Handle} (h : Answered reqs x i)
    (hcount : (firsts i.kind reqs).length ≤ UInt32.size) : i.idx.toUInt32.toNat = i.idx := by
  have hi := h.content?
  rw [content?_eq, listing_replay] at hi
  have hfits : FitsWord i.idx := Nat.lt_of_lt_of_le (List.getElem?_eq_some_iff.mp hi).1 hcount
  exact hfits.toNat_toUInt32

theorem pairwise_pointersOf {e : Entities} (h : e.Indexed) (v : VarId) :
    (e.pointersOf v).Pairwise (· < ·) := by
  rw [h v]
  refine List.Pairwise.filter _ (List.pairwise_map.mpr ?_)
  exact List.pairwise_lt_range

/-- **Canonical handles.** The handles of a kind are the places of its contents in the order in which they
were first asked for, and they are looked up, found and answered accordingly. Every pointer has one set,
and the pointers of a variable are listed in ascending order. -/
theorem handles_canonical (reqs : List Request) :
    (∀ k, (replay reqs).count k = (firsts k reqs).length) ∧
    (∀ i, (replay reqs).content? i = (firsts i.kind reqs)[i.idx]?) ∧
    (∀ x i, Answered reqs x i → (replay reqs).content? i = some x) ∧
    (∀ x y i j, Answered reqs x i → Answered reqs y j → (i = j ↔ x = y)) ∧
    (∀ c i, (replay reqs).findContext? c = some i ↔
      (replay reqs).content? (.context i) = some (.context c)) ∧
    (∀ c, (∃ i, (replay reqs).findContext? c = some i) ↔ .context c ∈ asked reqs) ∧
    (∀ a p, (replay reqs).findPointer? a = some p ↔
      (replay reqs).content? (.pointer p) = some (.pointer a)) ∧
    (∀ a, (∃ p, (replay reqs).findPointer? a = some p) ↔ .pointer a ∈ asked reqs) ∧
    (∀ p, (∃ set, (replay reqs).pointsTo? p = some set) ↔ ∃ a, (replay reqs).pointer? p = some a) ∧
    ∀ v, ((replay reqs).pointersOf v).Pairwise (· < ·) ∧
      ∀ p, p ∈ (replay reqs).pointersOf v ↔ ∃ c, (replay reqs).pointer? p = some (.var c v) := by
  have hstep := inStep_replay reqs
  have hlist := listing_replay reqs
  refine ⟨fun k => by rw [count_eq, hlist], fun i => by rw [content?_eq, hlist],
    fun x i h => h.content?, fun x y i j hx hy => ⟨?_, ?_⟩, fun c i => ?_, fun c => ?_, fun a p => ?_,
    fun a => ?_, fun p => ?_, fun v => ⟨pairwise_pointersOf hstep.indexed v, fun p =>
      hstep.indexed.mem_pointersOf⟩⟩
  · rintro rfl
    exact Option.some.inj (hx.content?.symm.trans hy.content?)
  · rintro rfl
    exact content?_inj hx.content? hy.content?
  · simp [findContext?_eq_some, content?]
  · rw [exists_findContext?, hlist]
    exact mem_firsts
  · simp [findPointer?_eq_some, content?]
  · rw [exists_findPointer?, hlist]
    exact mem_firsts
  · exact hstep.exists_pointsTo?

/-- A variable under two contexts, and a static field with the number of the variable. -/
def sample : List Request :=
  [.intern (.context ⟨[.object ⟨1⟩]⟩), .intern (.pointer (.var ⟨0⟩ ⟨4⟩)), .extend ⟨0⟩ (.singleton ⟨7⟩),
    .intern (.pointer (.staticField ⟨4⟩)), .intern (.pointer (.var ⟨1⟩ ⟨4⟩)), .intern (.pointer (.var ⟨0⟩ ⟨4⟩))]

/-- The second pointer of the variable is the third of all. -/
theorem handles_canonical_sample : Answered sample (.pointer (.var ⟨1⟩ ⟨4⟩)) (.pointer ⟨2⟩) ∧
    (replay sample).content? (.pointer ⟨2⟩) = some (.pointer (.var ⟨1⟩ ⟨4⟩)) := by
  obtain ⟨_, hlookup, hanswer, _⟩ := handles_canonical sample
  have hthird : (replay sample).content? (.pointer ⟨2⟩) = some (.pointer (.var ⟨1⟩ ⟨4⟩)) :=
    (hlookup _).trans (by decide +kernel)
  obtain ⟨i, hi⟩ : ∃ i, Answered sample (.pointer (.var ⟨1⟩ ⟨4⟩)) i :=
    ⟨_, sample.take 4, sample.drop 5, rfl, rfl⟩
  rw [content?_inj (hanswer _ i hi) hthird] at hi
  exact ⟨hi, hanswer _ _ hi⟩

end PointsTo.Entities
