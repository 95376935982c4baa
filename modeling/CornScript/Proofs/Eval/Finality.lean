import CornScript.Proofs.Eval.Discipline

/-! # Failure is final

The last thing that happens in an evaluation that fails is the creation of the error with which it
fails. So there is at most one error in an evaluation, and after it nothing is evaluated, bound,
written, counted, created or collected. After the value of a return statement, nothing happens but
the end of the call that the return is in.
-/

namespace CornScript

def Event.isFailure : Event → Bool
  | .create _ (.error _) => true
  | _ => false

/-- An evaluation runs on, or gives the value of a return, or fails; and a return ends a call. -/
inductive Mode.Goes : Mode → Event → Mode → Prop where
  | on {scope scope' : ScopeId} {callers callers' : List ScopeId} {event : Event} :
    event.isFailure = false → (∀ inner r, event ≠ .give inner r) →
    Goes (.running scope callers) event (.running scope' callers')
  | give {scope : ScopeId} {callers : List ScopeId} {r : Ref} :
    Goes (.running scope callers) (.give scope r) (.returning scope callers r)
  | fail {scope : ScopeId} {callers : List ScopeId} {r : Ref} {cause : RuntimeError} :
    Goes (.running scope callers) (.create r (.error cause)) (.failed r)
  | leave {scope caller : ScopeId} {callers : List ScopeId} {r : Ref} :
    Goes (.returning scope (caller :: callers) r) (.leave scope r) (.running caller callers)

namespace Mode

variable {mode mode' final : Mode} {event : Event} {ms before after : List Moment} {m : Moment}
  {scope : ScopeId} {callers : List ScopeId} {r : Ref}

theorem goes_of_step (h : mode.step event = some mode') : Goes mode event mode' := by
  cases mode with
  | running scope callers =>
    cases event with
    | create r o =>
      cases o <;> cases h <;> first | exact .fail | exact .on rfl nofun
    | give inner r =>
      obtain ⟨rfl, hnext⟩ := Option.ite_none_right_eq_some.mp h
      cases hnext
      exact .give
    | leave inner r =>
      cases callers with
      | nil => cases h
      | cons caller callers =>
        obtain ⟨-, hnext⟩ := Option.ite_none_right_eq_some.mp h
        cases hnext
        exact .on rfl nofun
    | _ =>
      cases h
      exact .on rfl nofun
  | returning scope callers r =>
    cases callers with
    | nil => cases h
    | cons caller callers =>
      cases event with
      | leave inner r' =>
        obtain ⟨⟨rfl, rfl⟩, hnext⟩ := Option.ite_none_right_eq_some.mp h
        cases hnext
        exact .leave
      | _ => cases h
  | failed r => cases h

theorem run_split (h : mode.run (before ++ m :: after) = some final) :
    ∃ mid next, Goes mid m.event next ∧ next.run after = some final := by
  rw [run_append, Option.bind_eq_some_iff] at h
  obtain ⟨mid, -, h⟩ := h
  rw [run_cons, Option.bind_eq_some_iff] at h
  obtain ⟨next, hnext, hrest⟩ := h
  exact ⟨mid, next, goes_of_step hnext, hrest⟩

theorem eq_nil_of_run_failed (h : (failed r).run ms = some final) : ms = [] := by
  cases ms with
  | nil => rfl
  | cons m ms => cases h

theorem leave_of_run_returning (h : (returning scope callers r).run ms = some final) :
    ms = [] ∨ ∃ t rest, ms = ⟨.leave scope r, t⟩ :: rest := by
  cases ms with
  | nil => exact .inl rfl
  | cons m ms =>
    obtain ⟨mid, hstep, -⟩ := Option.bind_eq_some_iff.mp (run_cons _ m ms ▸ h)
    obtain ⟨event, t⟩ := m
    cases goes_of_step hstep
    exact .inr ⟨t, ms, rfl⟩

/-- The last event of a run that does not just run on. -/
theorem exists_last (h : (running scope callers).run ms = some final)
    (hfinal : ∀ scope callers, final ≠ running scope callers) :
    ∃ before m, ms = before ++ [m] ∧ ∃ mid, Goes mid m.event final := by
  rcases ms.eq_nil_or_concat with rfl | ⟨before, m, rfl⟩
  · cases h
    exact absurd rfl (hfinal scope callers)
  · rw [List.concat_eq_append] at h ⊢
    obtain ⟨mid, next, hgoes, hnext⟩ := run_split h
    cases hnext
    exact ⟨before, m, rfl, mid, hgoes⟩

end Mode

/-- With the first error everything comes to an end, and with the first return its call does: no
element, argument, pair, operand or statement after it is evaluated. -/
structure Stops (ms : List Moment) : Prop where
  failure : ∀ {before m after}, ms = before ++ m :: after → m.event.isFailure = true → after = []
  give : ∀ {before scope r t after}, ms = before ++ ⟨.give scope r, t⟩ :: after →
    after = [] ∨ ∃ u rest, after = ⟨.leave scope r, u⟩ :: rest

theorem Mode.stops_of_run {mode final : Mode} {ms : List Moment} (h : mode.run ms = some final) :
    Stops ms where
  failure := by
    rintro before ⟨event, t⟩ after rfl hevent
    obtain ⟨mid, next, hgoes, hrest⟩ := run_split h
    cases hgoes with
    | fail => exact eq_nil_of_run_failed hrest
    | on hno _ => exact absurd hevent (by rw [hno]; nofun)
    | give => cases hevent
    | leave => cases hevent
  give := by
    rintro before scope r t after rfl
    obtain ⟨mid, next, hgoes, hrest⟩ := run_split h
    cases hgoes with
    | give => exact leave_of_run_returning hrest
    | on _ hno => exact absurd rfl (hno scope r)

theorem Stops.countP_le_one {ms : List Moment} (h : Stops ms) :
    ms.countP (fun m => m.event.isFailure) ≤ 1 := by
  rcases ms.eq_nil_or_concat with rfl | ⟨before, m, rfl⟩
  · exact Nat.zero_le 1
  · rw [List.concat_eq_append] at h ⊢
    -- A failure before the last event would have the last event after it.
    have hbefore : before.countP (fun m => m.event.isFailure) = 0 := by
      rw [List.countP_eq_zero]
      intro m' hm' hfail
      obtain ⟨before', after, rfl⟩ := List.append_of_mem hm'
      have hnil : after ++ [m] = [] := h.failure (by rw [List.append_assoc, List.cons_append]) hfail
      exact List.append_ne_nil_of_right_ne_nil after (List.cons_ne_nil m []) hnil
    rw [List.countP_append, hbefore, Nat.zero_add]
    exact List.countP_le_length

theorem Accounted.exists_follows {s t : State} {ms : List Moment} {m : Moment}
    (h : Accounted s (ms ++ [m]) t) : ∃ u, m.Follows u := by
  induction ms generalizing s with
  | nil => exact ⟨s, h.1⟩
  | cons m' ms ih => exact ih h.2

theorem Moment.Follows.get_create {s t : State} {r : Ref} {o : Object}
    (h : (⟨.create r o, t⟩ : Moment).Follows s) : t.store.get r = o := by
  obtain ⟨rfl, hstate⟩ := h
  rw [State.store_of_muted_eq hstate]
  exact State.get_alloc_self

namespace Node

variable {fuel : Nat} {scope : ScopeId} {node : Node} {s t : State} {r : Ref}

/-- The evaluation of a tree has no effect after the creation of the error with which it fails, or
after the value of the return with which it ends. -/
structure Final (node : Node) (fuel : Nat) (scope : ScopeId) (s : State) : Prop where
  erases : (node.record fuel scope s).2 = node.run fuel scope s
  accounted : Accounted s (node.record fuel scope s).1 (node.eval fuel scope s).2
  failed : ∀ {r t}, node.eval fuel scope s = (.value r, t) → (t.store.get r).kind = .error →
    ∃ before cause u, (node.record fuel scope s).1 = before ++ [⟨.create r (.error cause), u⟩] ∧
      t.muted = u.muted ∧ t.store.get r = .error cause
  returned : ∀ {r t}, node.run fuel scope s = .error (.returning r) t →
    node.eval fuel scope s = (.value r, t) ∧
      ∃ before u, (node.record fuel scope s).1 = before ++ [⟨.give scope r, u⟩] ∧
        t.muted = u.muted
  stops : Stops (node.record fuel scope s).1
  once : (node.record fuel scope s).1.countP (fun m => m.event.isFailure) ≤ 1

theorem run_eq_failed (hs : discipline.holds s) (h : node.eval fuel scope s = (.value r, t))
    (hr : (t.store.get r).kind = .error) : node.run fuel scope s = .error (.failed r) t := by
  have hends := (discipline.recounts hs fuel scope node).ends
  unfold Node.eval at h
  cases hx : node.run fuel scope s with
  | ok r' t' =>
    rw [hx] at h hends
    cases h
    exact absurd hr hends.2.2
  | error e t' =>
    rw [hx] at h hends
    cases e with
    | returning r' =>
      cases h
      exact absurd hr hends.2.2
    | failed r' =>
      cases h
      rfl
    | defect d => cases h
    | outOfFuel => cases h

theorem exists_run_record (hs : discipline.holds s) :
    ∃ final, Mode.run (.running scope []) (node.record fuel scope s).1 = some final := by
  have h := (discipline.recounts hs fuel scope node).monitored []
  cases hx : node.run fuel scope s with
  | ok r t =>
    rw [hx] at h
    exact ⟨_, h⟩
  | error e t =>
    rw [hx] at h
    cases e with
    | returning r => exact ⟨_, h⟩
    | failed r => exact ⟨_, h⟩
    | defect d =>
      obtain ⟨scope', callers', h⟩ := h
      exact ⟨_, h⟩
    | outOfFuel =>
      obtain ⟨scope', callers', h⟩ := h
      exact ⟨_, h⟩

theorem record_of_failed (hs : discipline.holds s)
    (hx : node.run fuel scope s = .error (.failed r) t) :
    ∃ before cause u, (node.record fuel scope s).1 = before ++ [⟨.create r (.error cause), u⟩] ∧
      t.muted = u.muted ∧ t.store.get r = .error cause := by
  obtain ⟨-, -, haccounted, hmonitored, -⟩ := discipline.recounts hs fuel scope node
  have hrun := hmonitored []
  rw [hx] at haccounted hrun
  obtain ⟨before, ⟨event, u⟩, hms, mid, hgoes⟩ := Mode.exists_last hrun nofun
  cases hgoes with
  | @fail _ _ _ cause =>
    rw [hms] at haccounted
    have hlast : t.muted = u.muted := haccounted.last
    obtain ⟨v, hv⟩ := haccounted.exists_follows
    refine ⟨before, cause, u, hms, hlast, ?_⟩
    rw [State.store_of_muted_eq hlast]
    exact hv.get_create

theorem record_of_returning (hs : discipline.holds s)
    (hx : node.run fuel scope s = .error (.returning r) t) :
    ∃ before u, (node.record fuel scope s).1 = before ++ [⟨.give scope r, u⟩] ∧
      t.muted = u.muted := by
  obtain ⟨-, -, haccounted, hmonitored, -⟩ := discipline.recounts hs fuel scope node
  have hrun := hmonitored []
  rw [hx] at haccounted hrun
  obtain ⟨before, ⟨event, u⟩, hms, mid, hgoes⟩ := Mode.exists_last hrun nofun
  cases hgoes with
  | give =>
    rw [hms] at haccounted
    exact ⟨before, u, hms, haccounted.last⟩

end Node

namespace Session

variable {threshold : Nat} {output : Output} {log : Log} {s : State}

/-- In every state that a session goes through, an evaluation that fails or returns does nothing
any more. -/
theorem Passes.final (h : Passes threshold output log s) (fuel : Nat) (scope : ScopeId)
    (node : Node) : node.Final fuel scope s := by
  have hs := discipline_passes h
  obtain ⟨herases, -, haccounted, -, -⟩ := discipline.recounts hs fuel scope node
  obtain ⟨final, hrun⟩ := Node.exists_run_record hs
  have hstops := Mode.stops_of_run hrun
  constructor
  case erases => exact herases
  case accounted =>
    rw [Node.stateOf_run]
    exact haccounted
  case failed =>
    intro r t heval hr
    exact Node.record_of_failed hs (Node.run_eq_failed hs heval hr)
  case returned =>
    intro r t hx
    have heval : node.eval fuel scope s = (.value r, t) := by
      rw [Node.eval, hx]
      rfl
    exact ⟨heval, Node.record_of_returning hs hx⟩
  case stops => exact hstops
  case once => exact hstops.countP_le_one

def failMidway : Bytes := text "let a = [print('x'), f(y), print('z')]; 'w'"

theorem answer_failMidway : (early.exec 20 failMidway).1 = .finished (.value ⟨9⟩) := by
  cbv

theorem error_failMidway :
    (early.exec 20 failMidway).2.state.store.get ⟨9⟩ = .error (.undefined (text "y")) := by
  cbv

theorem Passes.final_midway :
    Passes 1 .unlimited (.start .info) early.state ∧ ∃ p t before u,
      Program.parse failMidway = .ok p ∧
      (Node.program p).eval 20 early.scope early.state = (.value ⟨9⟩, t) ∧
      ((Node.program p).record 20 early.scope early.state).1 =
        before ++ [⟨.create ⟨9⟩ (.error (.undefined (text "y"))), u⟩] ∧ t.muted = u.muted := by
  have h : Passes 1 .unlimited (.start .info) early.state := .reached (.perform _ .new)
  obtain ⟨p, hp, hv⟩ := exists_parse_of_exec answer_failMidway
  have hkind : ((early.exec 20 failMidway).2.state.store.get ⟨9⟩).kind = .error := by
    rw [error_failMidway]
    rfl
  obtain ⟨before, cause, u, hms, hu, hget⟩ :=
    (h.final 20 early.scope (.program p)).failed hv hkind
  rw [error_failMidway] at hget
  cases hget
  exact ⟨h, p, _, before, u, hp, hv, hms, hu⟩

end Session

end CornScript
