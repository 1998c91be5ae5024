import PointsTo.Solver.State

/-!
# How actions end

`Ends a s ok bad` says of an action started in `s` that it leaves a value and a
state with `ok`, or a failure and a state with `bad`. A failed action leaves
the state it had reached, so both cases speak of a state.
-/

namespace PointsTo.Solve
variable {α β : Type}

def Ends (a : Solve α) (s : State) (ok : α → State → Prop) (bad : Error → State → Prop) : Prop :=
  match a.apply s with
  | (.ok r, s') => ok r s'
  | (.error e, s') => bad e s'

section
variable {a : Solve α} {s : State} {ok ok' : α → State → Prop} {bad bad' : Error → State → Prop}

theorem Ends.mono (h : Ends a s ok bad) (hok : ∀ r s', ok r s' → ok' r s')
    (hbad : ∀ e s', bad e s' → bad' e s') : Ends a s ok' bad' := by
  unfold Ends at *
  split at h
  · exact hok _ _ h
  · exact hbad _ _ h

theorem Ends.of_ok {r : α} {s' : State} (h : Ends a s ok bad) (he : a.apply s = (.ok r, s')) :
    ok r s' := by
  unfold Ends at h
  rw [he] at h; exact h

theorem Ends.of_error {e : Error} {s' : State} (h : Ends a s ok bad)
    (he : a.apply s = (.error e, s')) : bad e s' := by
  unfold Ends at h
  rw [he] at h; exact h

/-- What holds of the state in either case. -/
theorem Ends.state {P : State → Prop} (h : Ends a s (fun _ s' => P s') fun _ s' => P s') :
    P (a.apply s).2 := by
  unfold Ends at h
  split at h
  · rename_i he; rw [he]; exact h
  · rename_i he; rw [he]; exact h

end

section
variable {s : State} {ok : α → State → Prop} {bad : Error → State → Prop}

theorem apply_pure (r : α) (s : State) : (pure r : Solve α).apply s = (.ok r, s) := rfl

theorem apply_bind (a : Solve β) (f : β → Solve α) (s : State) :
    (a >>= f).apply s = match a.apply s with
      | (.ok r, s') => (f r).apply s'
      | (.error e, s') => (.error e, s') := by
  show (ExceptT.bindCont f (a.apply s).1).run (a.apply s).2 = _
  rcases a.apply s with ⟨_ | _, s'⟩ <;> rfl

theorem ends_bind {a : Solve β} {f : β → Solve α} :
    Ends (a >>= f) s ok bad ↔ Ends a s (fun r s' => Ends (f r) s' ok bad) bad := by
  unfold Ends
  rw [apply_bind]
  rcases a.apply s with ⟨_ | _, s'⟩ <;> rfl

theorem ends_get {ok : State → State → Prop} : Ends get s ok bad ↔ ok s s := Iff.rfl

end

/-! ## The parts of a state -/

section
variable {s : State}

theorem apply_onEntities (f : Entities → α × Entities) :
    (onEntities f).apply s = (.ok (f s.entities).1, { s with entities := (f s.entities).2 }) := rfl

theorem apply_onFlow (f : FlowGraph → α × FlowGraph) :
    (onFlow f).apply s = (.ok (f s.flow).1, { s with flow := (f s.flow).2 }) := rfl

theorem apply_onCalls
    (f : CallGraph CSCallSiteId CSMethodId → α × CallGraph CSCallSiteId CSMethodId) :
    (onCalls f).apply s = (.ok (f s.calls).1, { s with calls := (f s.calls).2 }) := rfl

theorem apply_push (p : PointerId) (set : ObjSet) :
    (push p set).apply s = (.ok (), { s with work := s.work.push p set }) := rfl

theorem apply_enqueue (m : CSMethodId) :
    (enqueue m).apply s = (.ok (), { s with pending := s.pending.push m }) := rfl

theorem apply_modifyGet (f : State → α × State) :
    (modifyGet f : Solve α).apply s = (.ok (f s).1, (f s).2) := rfl

theorem apply_pop? : pop?.apply s = match s.work.pop? with
    | none => (.ok none, s)
    | some (entry, work) => (.ok (some entry), { s with work := work, popped := s.popped + 1 }) := by
  unfold pop?
  rw [apply_modifyGet]
  cases h : s.work.pop? with
  | none => simp only [h]
  | some r => simp only [h]

theorem apply_dequeue? : dequeue?.apply s = match s.pending.popOldest? with
    | none => (.ok none, s)
    | some (m, pending) => (.ok (some m), { s with pending := pending }) := by
  unfold dequeue?
  rw [apply_modifyGet]
  cases h : s.pending.popOldest? with
  | none => simp only [h]
  | some r => simp only [h]

theorem apply_countEffective :
    countEffective.apply s = (.ok (), { s with effective := s.effective + 1 }) := rfl

theorem apply_start : start.apply s = (.ok s.started, { s with started := true }) := rfl

end

end PointsTo.Solve
