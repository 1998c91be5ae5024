import PointsTo.Proofs.Safety

/-!
# What a report shows

A report names a variable by its method and its own name, without a class. Of
the variables that share a text it shows the last one that points to something.
What the others point to may be lost.
-/

namespace PointsTo

/-! ## Ascending entries -/

section
variable {α : Type}

def Keyed (entries : List (String × α)) : Prop := entries.Pairwise fun x y => x.1 < y.1

variable {key : String} {value : α} {x : String × α}

theorem mem_insertEntry : ∀ {entries : List (String × α)}, Keyed entries →
    (x ∈ insertEntry entries key value ↔ x = (key, value) ∨ x ∈ entries ∧ x.1 ≠ key)
  | [], _ => by simp [insertEntry]
  | (k, v) :: rest, h => by
    obtain ⟨hfirst, hrest⟩ := List.pairwise_cons.mp h
    have hlater : ∀ y ∈ rest, k < y.1 := fun y hy => hfirst y hy
    unfold insertEntry
    by_cases hlt : key < k
    · have hne : ∀ y ∈ (k, v) :: rest, y.1 ≠ key := by grind
      rw [if_pos hlt, List.mem_cons]
      grind
    · rw [if_neg hlt]
      by_cases heq : key = k
      · have hne : ∀ y ∈ rest, y.1 ≠ key := by grind
        rw [if_pos heq, List.mem_cons, List.mem_cons]
        grind
      · rw [if_neg heq, List.mem_cons, mem_insertEntry hrest, List.mem_cons]
        grind

theorem Keyed.insertEntry : ∀ {entries : List (String × α)}, Keyed entries →
    Keyed (insertEntry entries key value)
  | [], _ => List.pairwise_singleton _ _
  | (k, v) :: rest, h => by
    obtain ⟨hfirst, hrest⟩ := List.pairwise_cons.mp h
    have hlater : ∀ y ∈ rest, k < y.1 := fun y hy => hfirst y hy
    unfold PointsTo.insertEntry
    by_cases hlt : key < k
    · rw [if_pos hlt]
      refine List.pairwise_cons.mpr ⟨fun y hy => ?_, h⟩
      grind
    · rw [if_neg hlt]
      by_cases heq : key = k
      · rw [if_pos heq]
        exact List.pairwise_cons.mpr ⟨fun y hy => heq ▸ hlater y hy, hrest⟩
      · rw [if_neg heq]
        refine List.pairwise_cons.mpr ⟨fun y hy => ?_, Keyed.insertEntry hrest⟩
        rw [mem_insertEntry hrest] at hy
        grind

end

/-! ## The variable that is shown -/

structure Outcome.Holds (w : World) (r : Outcome) (key : String) (v : VarId) : Prop where
  text : w.program.varText? v = some key
  nonempty : r.pointsTo v ≠ []

/-- Of the first `n` variables the last that holds something under `key`. -/
structure Outcome.Shows (w : World) (r : Outcome) (n : Nat) (key : String) (v : VarId) : Prop where
  below : v.idx < n
  holds : r.Holds w key v
  last : ∀ u, u.idx < n → r.Holds w key u → u.idx ≤ v.idx

def Outcome.texts? (w : World) (r : Outcome) (v : VarId) : Option (List String) := (r.pointsTo v).mapM w.objText?

namespace Outcome
variable {w : World} {r : Outcome} {n : Nat} {key : String} {u v : VarId}

theorem Holds.shows (h : r.Holds w key ⟨n⟩) : r.Shows w (n + 1) key v ↔ v = ⟨n⟩ := by
  constructor
  · intro hv
    have hle := hv.last ⟨n⟩ (Nat.lt_succ_self n) h
    have heq : v.idx = n := Nat.le_antisymm (Nat.le_of_lt_succ hv.below) hle
    cases v; cases heq; rfl
  · rintro rfl
    exact ⟨Nat.lt_succ_self n, h, fun u hu _ => Nat.le_of_lt_succ hu⟩

theorem shows_succ (h : ¬ r.Holds w key ⟨n⟩) : r.Shows w (n + 1) key v ↔ r.Shows w n key v := by
  have hne : ∀ u : VarId, r.Holds w key u → u.idx < n + 1 → u.idx < n := by
    intro u hu hlt
    refine Nat.lt_of_le_of_ne (Nat.le_of_lt_succ hlt) fun heq => h ?_
    cases u; cases heq; exact hu
  constructor
  · intro hv
    exact ⟨hne v hv.holds hv.below, hv.holds, fun u hu => hv.last u (Nat.lt_succ_of_lt hu)⟩
  · intro hv
    exact ⟨Nat.lt_succ_of_lt hv.below, hv.holds, fun u hu hk => hv.last u (hne u hk hu) hk⟩

theorem Holds.exists_shows (h : r.Holds w key v) : ∀ {n : Nat}, v.idx < n → ∃ u, r.Shows w n key u
  | n + 1, hlt => by
    by_cases hn : r.Holds w key ⟨n⟩
    · exact ⟨⟨n⟩, hn.shows.mpr rfl⟩
    · have hv : v.idx < n := by
        refine Nat.lt_of_le_of_ne (Nat.le_of_lt_succ hlt) fun heq => hn ?_
        cases v; cases heq; exact h
      obtain ⟨u, hu⟩ := h.exists_shows hv
      exact ⟨u, (shows_succ hn).mpr hu⟩

theorem Holds.lt (h : r.Holds w key v) : v.idx < w.program.vars.size := by
  obtain ⟨var, hvar, _⟩ := Option.bind_eq_some_iff.mp h.text
  exact (Array.getElem?_eq_some_iff.mp hvar).1

/-! ## The entries of a report -/

structure Lists (w : World) (r : Outcome) (n : Nat) (entries : List (String × List String)) : Prop where
  keyed : Keyed entries
  mem_iff : ∀ key texts, (key, texts) ∈ entries ↔ ∃ v, r.Shows w n key v ∧ r.texts? w v = some texts

theorem lists_zero : r.Lists w 0 [] where
  keyed := List.Pairwise.nil
  mem_iff := by
    intro key texts
    constructor
    · intro h; cases h
    · rintro ⟨v, hv, _⟩
      exact absurd hv.below (Nat.not_lt_zero _)

theorem Lists.skip {entries : List (String × List String)} (h : r.Lists w n entries)
    (hn : r.pointsTo ⟨n⟩ = []) : r.Lists w (n + 1) entries where
  keyed := h.keyed
  mem_iff := by
    intro key texts
    have hno : ¬ r.Holds w key ⟨n⟩ := fun hk => hk.nonempty hn
    simp only [h.mem_iff, shows_succ hno]

theorem Lists.insert {entries : List (String × List String)} (h : r.Lists w n entries) {texts : List String}
    (hk : r.Holds w key ⟨n⟩) (htexts : r.texts? w ⟨n⟩ = some texts) :
    r.Lists w (n + 1) (insertEntry entries key texts) where
  keyed := h.keyed.insertEntry
  mem_iff := by
    intro k ts
    rw [mem_insertEntry h.keyed, h.mem_iff]
    by_cases hkey : k = key
    · subst hkey
      simp [hk.shows, htexts, eq_comm]
    · have hno : ¬ r.Holds w k ⟨n⟩ := fun hn => hkey (Option.some.inj (hn.text.symm.trans hk.text))
      simp [hkey, shows_succ hno]

theorem lists_foldlM : ∀ (n : Nat) {entries : List (String × List String)},
    ((List.range n).map Id.mk).foldlM (fun entries v =>
      match r.pointsTo v with
      | [] => some entries
      | objs => do return insertEntry entries (← w.program.varText? v) (← objs.mapM w.objText?)) [] =
        some entries → r.Lists w n entries
  | 0, entries, h => by
    cases Option.some.inj h
    exact lists_zero
  | n + 1, entries, h => by
    rw [List.range_succ, List.map_append, List.foldlM_append] at h
    obtain ⟨entries', h', h⟩ := Option.bind_eq_some_iff.mp h
    have hlists := lists_foldlM n h'
    simp only [List.map_cons, List.map_nil, List.foldlM_cons, List.foldlM_nil, bind_pure] at h
    cases hobjs : r.pointsTo ⟨n⟩ with
    | nil =>
      rw [hobjs] at h
      cases Option.some.inj h
      exact hlists.skip hobjs
    | cons o objs =>
      rw [hobjs] at h
      obtain ⟨key, hkey, h⟩ := Option.bind_eq_some_iff.mp h
      obtain ⟨texts, htexts, h⟩ := Option.bind_eq_some_iff.mp h
      cases Option.some.inj h
      refine hlists.insert ⟨hkey, by simp [hobjs]⟩ ?_
      rw [texts?, hobjs]
      exact htexts

theorem lists_of_report {report : Report} (h : r.report? w = some report) :
    r.Lists w w.program.vars.size report.pointsTo := by
  obtain ⟨methods, _, h⟩ := Option.bind_eq_some_iff.mp h
  obtain ⟨edges, _, h⟩ := Option.bind_eq_some_iff.mp h
  obtain ⟨entries, hentries, h⟩ := Option.bind_eq_some_iff.mp h
  cases Option.some.inj h
  exact lists_foldlM _ hentries

end Outcome

theorem map_of_mapM {α β : Type} {f : α → Option β} : ∀ {l : List α} {ys : List β},
    l.mapM f = some ys → l.map f = ys.map some
  | [], ys, h => by
    cases Option.some.inj h
    rfl
  | x :: l, ys, h => by
    rw [List.mapM_cons] at h
    obtain ⟨y, hy, h⟩ := Option.bind_eq_some_iff.mp h
    obtain ⟨ys', hys, h⟩ := Option.bind_eq_some_iff.mp h
    cases Option.some.inj h
    rw [List.map_cons, List.map_cons, hy, map_of_mapM hys]

theorem Outcome.mem_of_texts? {w : World} {r : Outcome} {v : VarId} {texts : List String}
    (h : r.texts? w v = some texts) {text : String} :
    text ∈ texts ↔ ∃ o ∈ r.pointsTo v, w.objText? o = some text := by
  have hmap := map_of_mapM h
  have hmem : some text ∈ (r.pointsTo v).map w.objText? ↔ some text ∈ texts.map some := by rw [hmap]
  simpa using hmem.symm

section
variable {p : Program} {w : World} {c : Config} {sel : Selector} {limit : Nat} {r : Outcome}
  (hw : World.ofProgram p = .ok w) (hr : analyzeWith w c sel limit = .ok r)
include hw hr

/-- An analysis ends in a state whose handles lead somewhere, and the outcome is about that state. -/
theorem exists_inRange : ∃ s, s.InRange w ∧
    (r = .ofState sel.name s ∨ r = (Outcome.ofState sel.name s).withAliasIndex) := by
  obtain ⟨t, s, ht, hs, hr⟩ := analyzeWith_ok hr
  have hvalid := Task.valid_of_new ht (World.valid_of_withHeap hw)
  have hentered := (Task.evolves_of_solve hvalid hs).entered (State.entered_initial t c.order)
  exact ⟨s, (Task.new_eq ht).1 ▸ (Task.final_of_solve hvalid hs).invariant.inRange hvalid hentered, hr⟩

theorem exists_report : ∃ report, r.report? w = some report := by
  obtain ⟨s, hs, hr⟩ := exists_inRange hw hr
  have hreport := hs.report hw sel.name
  obtain rfl | rfl := hr
  · exact Option.isSome_iff_exists.mp hreport
  · exact Option.isSome_iff_exists.mp hreport

theorem texts_of_mem_pointsTo {v : VarId} {o : ObjId} (ho : o ∈ r.pointsTo v) :
    (∃ key, w.program.varText? v = some key) ∧ ∃ text, w.objText? o = some text := by
  obtain ⟨s, hs, hr⟩ := exists_inRange hw hr
  have ho : o ∈ (Outcome.ofState sel.name s).pointsTo v := by
    obtain rfl | rfl := hr
    · exact ho
    · exact ho
  obtain ⟨hkey, hobj⟩ := hs.mem_pointsTo sel.name ho
  exact ⟨Option.isSome_iff_exists.mp hkey, Option.isSome_iff_exists.mp (World.objText_known hw hobj)⟩

theorem exists_texts (v : VarId) : ∃ texts, r.texts? w v = some texts := by
  refine Option.isSome_iff_exists.mp (isSome_mapM fun o ho => ?_)
  exact Option.isSome_iff_exists.mpr (texts_of_mem_pointsTo hw hr ho).2

end

/-- Every outcome in the world of a valid program has a report. Under the text of a variable it has one
entry: what the last variable with this text that points to something points to. So what a variable
points to is shown, unless a later variable with the same text points to something too. -/
theorem report_shows_last {p : Program} {w : World} {c : Config} {sel : Selector} {limit : Nat}
    {r : Outcome} (hw : World.ofProgram p = .ok w) (hr : analyzeWith w c sel limit = .ok r) :
    ∃ report, r.report? w = some report ∧ r.Lists w w.program.vars.size report.pointsTo ∧
      ∀ v, ∀ o ∈ r.pointsTo v, ∃ key u texts text, w.program.varText? v = some key ∧
        r.Shows w w.program.vars.size key u ∧ (key, texts) ∈ report.pointsTo ∧
        w.objText? o = some text ∧
        (text ∈ texts ↔ ∃ o' ∈ r.pointsTo u, w.objText? o' = some text) ∧
        (text ∈ texts ∨ v.idx < u.idx) := by
  obtain ⟨report, hreport⟩ := exists_report hw hr
  have hlists := Outcome.lists_of_report hreport
  refine ⟨report, hreport, hlists, fun v o ho => ?_⟩
  obtain ⟨⟨key, hkey⟩, text, htext⟩ := texts_of_mem_pointsTo hw hr ho
  have hholds : r.Holds w key v := ⟨hkey, List.ne_nil_of_mem ho⟩
  obtain ⟨u, hu⟩ := hholds.exists_shows hholds.lt
  obtain ⟨texts, htexts⟩ := exists_texts hw hr u
  have hiff : text ∈ texts ↔ ∃ o' ∈ r.pointsTo u, w.objText? o' = some text := Outcome.mem_of_texts? htexts
  refine ⟨key, u, texts, text, hkey, hu, (hlists.mem_iff _ _).mpr ⟨u, hu, htexts⟩, htext, hiff, ?_⟩
  obtain hlt | heq := Nat.lt_or_eq_of_le (hu.last v hholds.lt hholds)
  · exact Or.inr hlt
  · have huv : v = u := by cases u; cases v; cases heq; rfl
    exact Or.inl (hiff.mpr ⟨o, huv ▸ ho, htext⟩)

/-! ## Two makers of one name -/

namespace Makers

def makeCall (cls : ClassId) : Call := ⟨.static, ⟨cls, "make()"⟩, none, [], none⟩

/-- Apples and pears are made by methods of the same name, in variables of the same name. -/
def program : Program where
  classes := #[
    ⟨"Main", none, [], false, false, [⟨0⟩], []⟩,
    ⟨"Apple", none, [], false, false, [⟨1⟩], []⟩,
    ⟨"Pear", none, [], false, false, [⟨2⟩], []⟩]
  methods := #[
    ⟨"main", ⟨0⟩, "main()", true, false, none, [], #[.invoke (makeCall ⟨1⟩), .invoke (makeCall ⟨2⟩)]⟩,
    ⟨"make", ⟨1⟩, "make()", true, false, none, [], #[.alloc ⟨0⟩ ⟨1⟩]⟩,
    ⟨"make", ⟨2⟩, "make()", true, false, none, [], #[.alloc ⟨1⟩ ⟨2⟩]⟩]
  fields := #[]
  vars := #[⟨"x", ⟨1⟩⟩, ⟨"x", ⟨2⟩⟩]
  entry := some ⟨0⟩

def world : World := ⟨.ofProgram program, .perSite program, ⟨0⟩⟩

theorem world_eq : World.ofProgram program = .ok world := World.withHeap_of_check rfl _

theorem exists_outcome (c : Config) (sens : Sensitivity) : ∃ r, analyzeAt world c sens = .ok r := by
  have hno : ∀ x ∈ program.stmts, AccessIndex.access? x.2 = none := by decide
  have hfit : program.CallsFit := by decide
  exact exists_outcome_of_callsFit world_eq hno hfit c sens

theorem objText_eq : world.objText? ⟨0⟩ = some "new Apple @ <Apple: make()>[0]" ∧
    world.objText? ⟨1⟩ = some "new Pear @ <Pear: make()>[0]" := by
  constructor <;> cbv

/-- Each allocation makes the object with the number of its variable. -/
theorem object_of_alloc {site : StmtId} {v : VarId} {cls : ClassId} {o : ObjId}
    (hs : world.program.stmt? site = some (.alloc v cls)) (ho : world.heap.objAt? site = some o) :
    o.idx = v.idx := by
  obtain ⟨o', obj, ho', hobj, hsite⟩ := Heap.perSite_object hs
  cases Option.some.inj (ho.symm.trans ho')
  have hvar : ∀ x ∈ program.stmts, ∀ v ∈ x.2.defined, x.1 = ⟨⟨v.idx + 1⟩, 0⟩ := by decide
  have hobject : ∀ x ∈ (Heap.allocations program).zipIdx, x.1.site = ⟨⟨x.2 + 1⟩, 0⟩ := by decide
  have hget : (Heap.allocations program)[o.idx]? = some obj := by
    rw [← List.getElem?_toArray]
    exact hobj
  have hnumber := hobject (obj, o.idx) (List.mem_zipIdx_iff_getElem?.mpr hget)
  have heq := hnumber.symm.trans (hsite.trans (hvar _ (Program.mem_stmts.mpr hs) v rfl))
  simpa using heq

variable {sel : Selector}

theorem no_flow {a b : Cell} : ¬ Derives world sel (.flows a b) := by
  intro hd
  have hstmts : ∀ x ∈ program.stmts, x.2 ∈ [.invoke (makeCall ⟨1⟩), .invoke (makeCall ⟨2⟩),
      .alloc ⟨0⟩ ⟨1⟩, .alloc ⟨1⟩ ⟨2⟩] := by decide
  have hstmt : ∀ {site st}, world.program.stmt? site = some st →
      (∃ cls, st = .invoke (makeCall cls)) ∨ ∃ v cls, st = .alloc v cls := by
    intro site st hs
    have hmem := hstmts _ (Program.mem_stmts.mpr hs)
    simp only [List.mem_cons, List.not_mem_nil, or_false] at hmem
    obtain h | h | h | h := hmem
    · exact Or.inl ⟨_, h⟩
    · exact Or.inl ⟨_, h⟩
    · exact Or.inr ⟨_, _, h⟩
    · exact Or.inr ⟨_, _, h⟩
  cases hd.cases with
  | arg _ hj _ hzip =>
    obtain ⟨cls, hcall⟩ | ⟨_, _, hcall⟩ := hstmt hj.stmt
    · cases hcall; cases hzip
    · cases hcall
  | result _ hj _ hr _ =>
    obtain ⟨cls, hcall⟩ | ⟨_, _, hcall⟩ := hstmt hj.stmt
    · cases hcall; cases hr
    · cases hcall
  | copy _ hs | loadStatic _ hs _ | storeStatic _ hs _ | loadField _ hs _ _ | storeField _ hs _ _
  | loadArray _ hs _ | storeArray _ hs _ =>
    obtain ⟨_, hcall⟩ | ⟨_, _, hcall⟩ := hstmt hs <;> cases hcall

/-- A variable points to the object of its number, and to nothing else. -/
theorem obj_eq {c : Context} {v : VarId} {x : Instance} (hd : Derives world sel (.points (.var c v) x)) :
    x.obj.idx = v.idx := by
  cases hd.cases with
  | alloc _ hs ho _ => exact object_of_alloc hs ho
  | this d _ _ =>
    obtain ⟨r, hr, _⟩ := d.receiver
    have hcalls : ∀ x ∈ program.stmts, ∀ call ∈ x.2.call?, call.receiver = none := by decide
    rw [hcalls _ (Program.mem_stmts.mpr d.stmt) _ rfl] at hr
    cases hr
  | flow hf _ => exact absurd hf no_flow

theorem exists_points {i : Nat} {v : VarId} {cls : ClassId} {m : MethodId}
    (hs : world.program.stmt? ⟨⟨0⟩, i⟩ = some (.invoke (makeCall cls)))
    (hc : world.hierarchy.callee? none (makeCall cls) = .ok (some m))
    (ha : world.program.stmt? ⟨m, 0⟩ = some (.alloc v cls)) :
    ∃ c h, Derives world sel (.points (.var c v) ⟨h, ⟨v.idx⟩⟩) := by
  have hmain : Derives world sel (.reaches ⟨sel.entry, ⟨0⟩⟩) := .rule .entry
  have hcall : Derives world sel (.calls ⟨.static, ⟨sel.entry, ⟨0⟩⟩, ⟨sel.entry, ⟨⟨0⟩, i⟩⟩, ⟨_, m⟩⟩) :=
    .rule (.staticCall hmain hs rfl hc)
  obtain ⟨o, obj, ho, hobj, _⟩ := Heap.perSite_object ha
  have hpoints : Derives world sel (.points (.var _ v) ⟨_, o⟩) := .rule (.alloc hcall.callee ha ho hobj)
  have heq : o = ⟨v.idx⟩ := by
    have hidx := object_of_alloc ha ho
    cases o; cases hidx; rfl
  exact ⟨_, _, heq ▸ hpoints⟩

theorem mem_pointsTo {c : Config} {limit : Nat} {r : Outcome} (hr : analyzeWith world c sel limit = .ok r) :
    (⟨0⟩ : ObjId) ∈ r.pointsTo ⟨0⟩ ∧ ∀ o, o ∈ r.pointsTo ⟨1⟩ ↔ o = ⟨1⟩ := by
  have hproj := projects_of_analyzeWith (World.valid_of_withHeap world_eq) hr
  have hfirst : world.hierarchy.callee? none (makeCall ⟨1⟩) = .ok (some ⟨1⟩) := by cbv
  have hsecond : world.hierarchy.callee? none (makeCall ⟨2⟩) = .ok (some ⟨2⟩) := by cbv
  refine ⟨(hproj.pointsTo _ _).mpr (exists_points (i := 0) rfl hfirst rfl), fun o => ?_⟩
  constructor
  · intro ho
    obtain ⟨_, _, hd⟩ := (hproj.pointsTo _ _).mp ho
    have hidx := obj_eq hd
    cases o; cases hidx; rfl
  · rintro rfl
    exact (hproj.pointsTo _ _).mpr (exists_points (i := 1) rfl hsecond rfl)

theorem eq_of_shows {c : Config} {limit : Nat} {r : Outcome} (hr : analyzeWith world c sel limit = .ok r)
    {v : VarId} (hv : r.Shows world 2 "make/x" v) : v = ⟨1⟩ := by
  have hpear : r.Holds world "make/x" ⟨1⟩ :=
    ⟨by cbv, List.ne_nil_of_mem (((mem_pointsTo hr).2 _).mpr rfl)⟩
  exact hpear.shows.mp hv

end Makers

/-- The pear is shown. -/
theorem report_shows_last_makers : ∃ r report texts, analyze Makers.world .standard = .ok r ∧
    r.report? Makers.world = some report ∧ ("make/x", texts) ∈ report.pointsTo ∧
    "new Pear @ <Pear: make()>[0]" ∈ texts := by
  obtain ⟨r, hr⟩ := Makers.exists_outcome .standard .insensitive
  have hpear := ((Makers.mem_pointsTo hr).2 ⟨1⟩).mpr rfl
  obtain ⟨report, hreport, _, hfacts⟩ := report_shows_last Makers.world_eq hr
  obtain ⟨key, u, texts, text, hkey, hu, hmem, htext, _, hshown⟩ := hfacts ⟨1⟩ ⟨1⟩ hpear
  have hmake : Makers.world.program.varText? ⟨1⟩ = some "make/x" := by cbv
  cases Option.some.inj (hmake.symm.trans hkey)
  cases Option.some.inj (Makers.objText_eq.2.symm.trans htext)
  cases Makers.eq_of_shows hr hu
  exact ⟨r, report, texts, hr, hreport, hmem, hshown.resolve_right (Nat.lt_irrefl 1)⟩

/-- The apple is lost. -/
theorem report_loses_apple : ∃ w r report, World.ofProgram Makers.program = .ok w ∧
    analyze w .standard = .ok r ∧ r.report? w = some report ∧ (⟨0⟩ : ObjId) ∈ r.pointsTo ⟨0⟩ ∧
    w.program.varText? ⟨0⟩ = some "make/x" ∧ w.objText? ⟨0⟩ = some "new Apple @ <Apple: make()>[0]" ∧
    ∀ texts, ("make/x", texts) ∈ report.pointsTo → "new Apple @ <Apple: make()>[0]" ∉ texts := by
  obtain ⟨r, hr⟩ := Makers.exists_outcome .standard .insensitive
  obtain ⟨report, hreport⟩ := exists_report Makers.world_eq hr
  refine ⟨_, r, report, Makers.world_eq, hr, hreport, (Makers.mem_pointsTo hr).1, by cbv,
    Makers.objText_eq.1, fun texts hmem happle => ?_⟩
  obtain ⟨v, hv, htexts⟩ := ((Outcome.lists_of_report hreport).mem_iff _ _).mp hmem
  cases Makers.eq_of_shows hr hv
  obtain ⟨o, ho, htext⟩ := (Outcome.mem_of_texts? htexts).mp happle
  cases ((Makers.mem_pointsTo hr).2 o).mp ho
  rw [Makers.objText_eq.2] at htext
  exact absurd (Option.some.inj htext) (by decide)

end PointsTo
