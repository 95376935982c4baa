import CornScript.Proofs.Eval.Invariant
import CornScript.Proofs.Eval.Record

/-! # What a record tells

The record of an evaluation accounts for the whole change of the state, apart from the log: every
state in it is the one before it with the effect of the event, and at the end nothing else has
happened. Besides, the record is one that a monitor accepts which knows the open calls: an error is
followed by nothing at all, and the value of a return statement by nothing but the end of the
innermost open call. In every state on the way, each stable invariant holds.
-/

namespace CornScript

theorem Output.eq_append_of_write? {o o' : Output} {b : Bytes} (h : o.write? b = some o') :
    o' = o.append b := by
  unfold Output.write? at h
  split at h
  · split at h
    · exact (Option.some.inj h).symm
    · cases h
  · exact (Option.some.inj h).symm

def State.muted (s : State) : State :=
  { s with log := .start .info }

theorem State.store_of_muted_eq {s t : State} (h : t.muted = s.muted) : t.store = s.store := by
  simpa only [muted] using congrArg State.store h

theorem State.output_of_muted_eq {s t : State} (h : t.muted = s.muted) : t.output = s.output := by
  simpa only [muted] using congrArg State.output h

namespace Event

def effect (s : State) : Event → State
  | .evaluate _ _ | .pass _ | .give _ _ | .leave _ _ => s
  | .count => { s with statements := s.statements + 1 }
  | .create _ o => (s.alloc o).2
  | .write line => { s with output := s.output.append line }
  | .bind scope name r => { s with store := s.store.bind scope name r }
  | .enter scope closure params =>
    { s with store := Eval.bindParams (s.store.newScope closure).2 scope params }
  | .collect root r => { (s.collect root [r]).2 with statements := 0 }

def Fresh (s : State) : Event → Prop
  | .create r _ => r = ⟨s.store.objects.size⟩
  | .enter scope _ _ => scope = ⟨s.store.scopes.size⟩
  | _ => True

def values : Event → List Ref
  | .bind _ _ r | .give _ r | .leave _ r | .collect _ r => [r]
  | .pass args => args
  | .enter _ _ params => params.map Prod.snd
  | .evaluate _ _ | .count | .create _ _ | .write _ => []

end Event

structure Moment.Follows (m : Moment) (s : State) : Prop where
  fresh : m.event.Fresh s.muted
  state : m.state.muted = (m.event.effect s.muted).muted

/-- Moments that lead from `s` to `t`, with nothing in between them but log lines. -/
def Accounted (s : State) : List Moment → State → Prop
  | [], t => t.muted = s.muted
  | m :: ms, t => m.Follows s ∧ Accounted m.state ms t

section Accounted

variable {s s' t u : State} {ms ms' : List Moment}

theorem Accounted.congr_start (hs : s'.muted = s.muted) (h : Accounted s ms t) :
    Accounted s' ms t := by
  cases ms with
  | nil => exact h.trans hs.symm
  | cons m ms =>
    obtain ⟨⟨hfresh, hstate⟩, h⟩ := h
    rw [← hs] at hfresh hstate
    exact ⟨⟨hfresh, hstate⟩, h⟩

theorem Accounted.congr_end (h : Accounted s ms t) (ht : u.muted = t.muted) :
    Accounted s ms u := by
  induction ms generalizing s with
  | nil => exact ht.trans h
  | cons m ms ih => exact ⟨h.1, ih h.2⟩

theorem Accounted.append (h : Accounted s ms t) (h' : Accounted t ms' u) :
    Accounted s (ms ++ ms') u := by
  induction ms generalizing s with
  | nil => exact h'.congr_start h.symm
  | cons m ms ih => exact ⟨h.1, ih h.2⟩

theorem Accounted.last {m : Moment} (h : Accounted s (ms ++ [m]) t) : t.muted = m.state.muted := by
  induction ms generalizing s with
  | nil => exact h.2
  | cons m' ms ih => exact ih h.2

theorem Accounted.until_moment {m : Moment} (h : Accounted s (ms ++ m :: ms') t) :
    Accounted s (ms ++ [m]) m.state := by
  induction ms generalizing s with
  | nil => exact ⟨h.1, rfl⟩
  | cons m' ms ih => exact ⟨h.1, ih h.2⟩

theorem Accounted.rest (h : Accounted s (ms ++ ms') u) (h' : Accounted s ms t) :
    Accounted t ms' u := by
  induction ms generalizing s with
  | nil => exact h.congr_start h'
  | cons m ms ih => exact ih h.2 h'.2

/-- What holds at the beginning and is kept by every event holds throughout, and what every event
relates is related throughout. Log lines do not matter. -/
theorem Accounted.chain {P : State → Prop} {R : State → State → Prop}
    (htrans : ∀ {s t u}, R s t → R t u → R s u)
    (hquiet : ∀ {s t}, P s → t.muted = s.muted → P t ∧ R s t) (h : Accounted s ms t) (hs : P s)
    (hevent : ∀ m ∈ ms, ∀ {u}, P u → m.Follows u →
      P (m.event.effect u) ∧ R u (m.event.effect u)) :
    (∀ u ∈ (s :: ms.map Moment.state) ++ [t], P u) ∧
      ((s :: ms.map Moment.state) ++ [t]).Pairwise R := by
  induction ms generalizing s with
  | nil =>
    obtain ⟨ht, hst⟩ := hquiet hs h
    simpa using ⟨⟨hs, ht⟩, hst⟩
  | cons m ms ih =>
    rw [List.forall_mem_cons] at hevent
    obtain ⟨hm, hsm⟩ := hquiet (t := s.muted) hs rfl
    obtain ⟨he, hme⟩ := hevent.1 hm ⟨h.1.fresh, h.1.state⟩
    obtain ⟨hnext, hen⟩ := hquiet he h.1.state
    have hstep : R s m.state := htrans hsm (htrans hme hen)
    obtain ⟨hall, hrest⟩ := ih h.2 hnext hevent.2
    rw [List.map_cons, List.cons_append, List.forall_mem_cons, List.pairwise_cons]
    refine ⟨⟨hs, hall⟩, fun v hv => ?_, hrest⟩
    rcases List.mem_cons.mp hv with rfl | hv
    · exact hstep
    · exact htrans hstep ((List.pairwise_cons.mp hrest).1 v hv)

end Accounted

/-- Where an evaluation stands: it runs in a scope, with calls open that began in the given scopes,
the last one first; or a return or an error is on its way. -/
inductive Mode where
  | running (scope : ScopeId) (callers : List ScopeId)
  | returning (scope : ScopeId) (callers : List ScopeId) (r : Ref)
  | failed (r : Ref)
  deriving DecidableEq

namespace Mode

def step : Mode → Event → Option Mode
  | running scope callers, .enter inner _ _ => some (running inner (scope :: callers))
  | running scope (caller :: callers), .leave inner _ =>
    if inner = scope then some (running caller callers) else none
  | running _ [], .leave _ _ => none
  | running scope callers, .give inner r =>
    if inner = scope then some (returning scope callers r) else none
  | running _ _, .create r (.error _) => some (failed r)
  | running scope callers, _ => some (running scope callers)
  | returning scope (caller :: callers) r, .leave inner r' =>
    if inner = scope ∧ r' = r then some (running caller callers) else none
  | returning _ _ _, _ => none
  | failed _, _ => none

def run (mode : Mode) (ms : List Moment) : Option Mode :=
  ms.foldlM (fun mode m => mode.step m.event) mode

def Suits {α : Type} (scope : ScopeId) (callers : List ScopeId) (mode : Option Mode) :
    EStateM.Result Abrupt State α → Prop
  | .ok _ _ => mode = some (running scope callers)
  | .error (.returning r) _ => mode = some (returning scope callers r)
  | .error (.failed r) _ => mode = some (failed r)
  | .error (.defect _) _ | .error .outOfFuel _ =>
    ∃ scope' callers', mode = some (running scope' callers')

theorem run_append (mode : Mode) (ms ms' : List Moment) :
    mode.run (ms ++ ms') = (mode.run ms).bind fun mode => mode.run ms' :=
  List.foldlM_append

theorem run_cons (mode : Mode) (m : Moment) (ms : List Moment) :
    mode.run (m :: ms) = (mode.step m.event).bind fun mode => mode.run ms :=
  List.foldlM_cons

end Mode

/-- An event that leaves open which calls are open. -/
def Event.Neutral (event : Event) : Prop :=
  ∀ scope callers, Mode.step (.running scope callers) event = some (.running scope callers)

section Catch

variable {x : Recorded Ref} {y : Eval Ref} {s t : State} {r : Ref} {e : Abrupt} {scope : ScopeId}

theorem Eval.catchReturn_eq_ok (h : Eval.catchReturn y s = .ok r t) :
    y s = .ok r t ∨ y s = .error (.returning r) t := by
  unfold Eval.catchReturn at h
  split at h
  · next hy =>
    cases h
    exact .inr hy
  · exact .inl h

theorem Eval.catchReturn_eq_error (h : Eval.catchReturn y s = .error e t) :
    y s = .error e t ∧ ∀ r, e ≠ .returning r := by
  unfold Eval.catchReturn at h
  split at h
  · cases h
  · next hy =>
    refine ⟨h, fun r he => ?_⟩
    rw [he] at h
    exact hy r t h

theorem Recorded.inCall_of_ok (hx : (x s).2 = y s) (h : Eval.catchReturn y s = .ok r t) :
    inCall scope x s = ((x s).1 ++ [⟨.leave scope r, t⟩], .ok r t) := by
  have hcatch : Recorded.catchReturn x s = ((x s).1, .ok r t) := by
    rw [← h]
    simp only [Recorded.catchReturn, Eval.catchReturn, hx]
  simp only [inCall, Bind.bind, hcatch]
  rfl

theorem Recorded.inCall_of_error (hx : (x s).2 = y s) (h : Eval.catchReturn y s = .error e t) :
    inCall scope x s = ((x s).1, .error e t) := by
  have hcatch : Recorded.catchReturn x s = ((x s).1, .error e t) := by
    rw [← h]
    simp only [Recorded.catchReturn, Eval.catchReturn, hx]
  simp only [inCall, Bind.bind, hcatch]

end Catch

namespace Invariant

variable {I : Invariant} {α β : Type} {scope : ScopeId} {s t : State}
  {P : State → α → Prop} {Q : State → β → Prop}

/-- The invariant holds at a moment, and the values of its event are in good order. If the
evaluation of an expression begins then it may be run there. -/
structure Proper (I : Invariant) (m : Moment) : Prop where
  holds : I.holds m.state
  values : I.Values m.state m.event.values
  evaluated : ∀ id e, m.event = .evaluate id e →
    I.home m.state id ∧ (I.strict → e.WellFormed)

theorem proper_nil (I : Invariant) : ∀ m ∈ ([] : List Moment), I.Proper m :=
  fun _ hm => absurd hm List.not_mem_nil

/-- A record belongs to a result: with the result forgotten, it accounts for the change of the
state, the monitor accepts it, and the invariant holds at each of its moments. -/
structure Recounts (I : Invariant) (scope : ScopeId) (s : State) (P : State → α → Prop)
    (w : List Moment × EStateM.Result Abrupt State α) (x : EStateM.Result Abrupt State α) :
    Prop where
  erases : w.2 = x
  ends : I.Ends s P x
  accounted : Accounted s w.1 (Eval.stateOf x)
  monitored : ∀ callers, Mode.Suits scope callers (Mode.run (.running scope callers) w.1) x
  proper : ∀ m ∈ w.1, I.Proper m

namespace Recounts

variable {w : List Moment × EStateM.Result Abrupt State α} {x : EStateM.Result Abrupt State α}

theorem before (h : I.Recounts scope t P w x) (hl : I.Later s t) (hm : t.muted = s.muted) :
    I.Recounts scope s P w x :=
  ⟨h.erases, h.ends.before hl, h.accounted.congr_start hm.symm, h.monitored, h.proper⟩

theorem pure {a : α} (hs : I.holds s) (ha : P s a) :
    I.Recounts scope s P ((Pure.pure a : Recorded α) s) ((Pure.pure a : Eval α) s) :=
  ⟨rfl, .pure hs ha, rfl, fun _ => rfl, I.proper_nil⟩

theorem defect {d : Defect} (hs : I.holds s) (hd : ¬ I.strict) :
    I.Recounts scope s P ((Recorded.silently (throw (.defect d)) : Recorded α) s)
      ((throw (.defect d) : Eval α) s) :=
  ⟨rfl, .throw hs hd, rfl, fun callers => ⟨scope, callers, rfl⟩, I.proper_nil⟩

theorem outOfFuel (hs : I.holds s) :
    I.Recounts scope s P ((Recorded.silently (throw .outOfFuel) : Recorded α) s)
      ((throw .outOfFuel : Eval α) s) :=
  ⟨rfl, .throw hs trivial, rfl, fun callers => ⟨scope, callers, rfl⟩, I.proper_nil⟩

theorem bind {x : Recorded α} {f : α → Recorded β} {y : Eval α} {g : α → Eval β}
    (hx : I.Recounts scope s P (x s) (y s))
    (hf : ∀ a t, I.Later s t → P t a → I.Recounts scope t Q (f a t) (g a t)) :
    I.Recounts scope s Q ((x >>= f) s) ((y >>= g) s) := by
  obtain ⟨herases, hends, haccounted, hmonitored, hproper⟩ := hx
  rcases hr : x s with ⟨ms, res⟩
  rw [hr] at herases haccounted hmonitored hproper
  cases res with
  | ok a t =>
    have hx : (x >>= f) s = (ms ++ (f a t).1, (f a t).2) := by simp only [Bind.bind, hr]
    have hy : (y >>= g) s = g a t := by simp only [Bind.bind, EStateM.bind, ← herases]
    rw [← herases] at hends haccounted hmonitored
    have ht := hf a t hends.1 hends.2
    rw [hx, hy]
    refine ⟨ht.erases, ht.ends.before hends.1, haccounted.append ht.accounted, ?_, ?_⟩
    · -- All calls of the first part are closed again, so the monitor reads on in the same mode.
      intro callers
      have hrun : Mode.run (.running scope callers) ms = some (.running scope callers) :=
        hmonitored callers
      rw [Mode.run_append, hrun]
      exact ht.monitored callers
    · intro m hm
      rcases List.mem_append.mp hm with hm | hm
      · exact hproper m hm
      · exact ht.proper m hm
  | error e t =>
    have hx : (x >>= f) s = (ms, .error e t) := by simp only [Bind.bind, hr]
    have hy : (y >>= g) s = .error e t := by simp only [Bind.bind, EStateM.bind, ← herases]
    rw [← herases] at hends haccounted hmonitored
    rw [hx, hy]
    exact ⟨rfl, hends, haccounted, fun callers => by cases e <;> exact hmonitored callers, hproper⟩

theorem read {r : Ref} {f : Object → Recorded α} {g : Object → Eval α}
    (hf : ∀ o, s.store.get r = o → I.Recounts scope s P (f o s) (g o s)) :
    I.Recounts scope s P ((Recorded.silently (Eval.read r) >>= f) s) ((Eval.read r >>= g) s) :=
  hf _ rfl

theorem trace {message : Unit → Bytes} {f : Unit → Recorded α} {g : Unit → Eval α} (hI : I.Stable)
    (hs : I.holds s) (hf : ∀ t, I.Later s t → I.Recounts scope t P (f () t) (g () t)) :
    I.Recounts scope s P ((Recorded.silently (Eval.trace message) >>= f) s)
      ((Eval.trace message >>= g) s) :=
  (hf _ (hI.trace message hs)).before (hI.trace message hs) rfl

theorem traceFailure {x : Recorded Ref} {y : Eval Ref} (hI : I.Stable) (message : Bytes → Bytes)
    (h : I.Recounts scope s I.Value (x s) (y s)) :
    I.Recounts scope s I.Value (Recorded.traceFailure message x s)
      (Eval.traceFailure message y s) := by
  have hends := hI.ends_traceFailure message h.ends
  obtain ⟨herases, -, haccounted, hmonitored, hproper⟩ := h
  have herases' : (Recorded.traceFailure message x s).2 = Eval.traceFailure message y s := by
    simp only [Recorded.traceFailure, Eval.traceFailure, herases]
  refine ⟨herases', hends, ?_, fun callers => ?_, hproper⟩
  · apply haccounted.congr_end
    unfold Eval.traceFailure
    rcases y s with _ | _ | _ | _ | _ <;> rfl
  · have hrun := hmonitored callers
    unfold Eval.traceFailure
    rcases hy : y s with _ | _ | _ | _ | _ <;> rw [hy] at hrun <;> exact hrun

theorem give {r : Ref} (hs : I.holds s) (hr : I.good s (.object r)) :
    I.Recounts scope s I.Value
      ((do Recorded.note (.give scope r); Recorded.silently (throw (.returning r)) :
        Recorded Ref) s)
      ((throw (.returning r) : Eval Ref) s) := by
  have hproper : I.Proper ⟨.give scope r, s⟩ :=
    ⟨hs, fun r' hr' => List.mem_singleton.mp hr' ▸ hr, nofun⟩
  refine ⟨rfl, .throw hs hr, ⟨⟨trivial, rfl⟩, rfl⟩, fun callers => ?_, ?_⟩
  · change Mode.run (.running scope callers) [⟨.give scope r, s⟩] = _
    rw [Mode.run_cons, Mode.step, if_pos rfl]
    rfl
  · intro m hm
    rw [List.mem_singleton.mp hm]
    exact hproper

theorem note {event : Event} {f : Unit → Recorded α} {g : Eval α} (hevent : event.Neutral)
    (hfollows : (⟨event, s⟩ : Moment).Follows s) (hproper : I.Proper ⟨event, s⟩)
    (hf : I.Recounts scope s P (f () s) (g s)) :
    I.Recounts scope s P ((Recorded.note event >>= f) s) (g s) := by
  change I.Recounts scope s P (⟨event, s⟩ :: (f () s).1, (f () s).2) (g s)
  refine ⟨hf.erases, hf.ends, ⟨hfollows, hf.accounted⟩, fun callers => ?_, ?_⟩
  · rw [Mode.run_cons, hevent scope callers]
    exact hf.monitored callers
  · simpa only [List.mem_cons, forall_eq_or_imp] using ⟨hproper, hf.proper⟩

section Call

variable {inner : ScopeId} {closure : Option ScopeId} {params : List (Bytes × Ref)} {u : State}
  {ms : List Moment} {r : Ref}
  (henter : (⟨.enter inner closure params, t⟩ : Moment).Follows s)
  (hproper : I.Proper ⟨.enter inner closure params, t⟩) (hl : I.Later s t)

include henter hproper hl

theorem left (hends : I.Ends t I.Value (.ok r u)) (haccounted : Accounted t ms u)
    (hrun : ∀ callers, ∃ mode, Mode.run (.running inner (scope :: callers)) ms = some mode ∧
      mode.step (.leave inner r) = some (.running scope callers))
    (hms : ∀ m ∈ ms, I.Proper m) :
    I.Recounts scope s I.Value
      (⟨.enter inner closure params, t⟩ :: (ms ++ [⟨.leave inner r, u⟩]), .ok r u) (.ok r u) := by
  have hleave : I.Proper ⟨.leave inner r, u⟩ :=
    ⟨hends.1.holds, fun r' hr' => List.mem_singleton.mp hr' ▸ hends.2, nofun⟩
  refine ⟨rfl, hends.before hl, ⟨henter, haccounted.append ⟨⟨trivial, rfl⟩, rfl⟩⟩, ?_, ?_⟩
  · intro callers
    obtain ⟨mode, hmode, hstep⟩ := hrun callers
    rw [Mode.run_cons, Mode.step, Option.bind_some, Mode.run_append, hmode, Option.bind_some,
      Mode.run_cons, hstep]
    rfl
  · intro m hm
    rcases List.mem_cons.mp hm with rfl | hm
    · exact hproper
    · rcases List.mem_append.mp hm with hm | hm
      · exact hms m hm
      · rw [List.mem_singleton.mp hm]
        exact hleave

theorem called {x : Recorded Ref} {y : Eval Ref} (h : I.Recounts inner t I.Value (x t) (y t)) :
    I.Recounts scope s I.Value
      (⟨.enter inner closure params, t⟩ :: (Recorded.inCall inner x t).1,
        (Recorded.inCall inner x t).2) (Eval.catchReturn y t) := by
  obtain ⟨herases, hends, haccounted, hmonitored, hms⟩ := h
  cases hr : Eval.catchReturn y t with
  | ok r u =>
    rw [Recorded.inCall_of_ok herases hr]
    rcases Eval.catchReturn_eq_ok hr with hy | hy
    · rw [hy] at hends haccounted hmonitored
      exact left henter hproper hl hends haccounted
        (fun callers => ⟨_, hmonitored (scope :: callers), if_pos rfl⟩) hms
    · rw [hy] at hends haccounted hmonitored
      exact left henter hproper hl hends haccounted
        (fun callers => ⟨_, hmonitored (scope :: callers), if_pos ⟨rfl, rfl⟩⟩) hms
  | error e u =>
    rw [Recorded.inCall_of_error herases hr]
    obtain ⟨hy, hne⟩ := Eval.catchReturn_eq_error hr
    rw [hy] at hends haccounted hmonitored
    refine ⟨rfl, hends.before hl, ⟨henter, haccounted⟩, fun callers => ?_, ?_⟩
    · -- An error leaves the call open, and the monitor does not ask how many calls are open then.
      have hrun := hmonitored (scope :: callers)
      rw [Mode.run_cons, Mode.step, Option.bind_some]
      cases e with
      | returning r => exact absurd rfl (hne r)
      | _ => exact hrun
    · simpa only [List.mem_cons, forall_eq_or_imp] using ⟨hproper, hms⟩

end Call

theorem single {event : Event} {a : α} (hevent : event.Neutral)
    (hfollows : (⟨event, t⟩ : Moment).Follows s) (hproper : I.Proper ⟨event, t⟩)
    (hends : I.Ends s P (.ok a t)) :
    I.Recounts scope s P ([⟨event, t⟩], .ok a t) (.ok a t) := by
  refine ⟨rfl, hends, ⟨hfollows, rfl⟩, fun callers => ?_, ?_⟩
  · rw [Mode.run_cons, hevent scope callers]
    rfl
  · simpa only [List.mem_singleton, forall_eq] using hproper

end Recounts

end Invariant

/-- What a step that evaluates no expression can do: nothing, one creation, one write, or a
failure. -/
inductive Eval.Brief {α : Type} (s : State) : EStateM.Result Abrupt State α → Prop where
  | quiet {a : α} {t : State} : t.muted = s.muted → Brief s (.ok a t)
  | created {a : α} {t : State} (o : Object) : o.kind ≠ .error → t.muted = (s.alloc o).2.muted →
    Brief s (.ok a t)
  | written {a : α} {t : State} (line : Bytes) :
    t.muted = State.muted { s with output := s.output.append line } → Brief s (.ok a t)
  | failed {t : State} (e : RuntimeError) : t.muted = (s.alloc (.error e)).2.muted →
    Brief s (.error (.failed (s.alloc (.error e)).1) t)

namespace Recorded

variable {s t : State}

theorem changes_of_muted_eq (h : t.muted = s.muted) : changes s t = [] := by
  simp [changes, State.store_of_muted_eq h, State.output_of_muted_eq h]

theorem changes_of_created {o : Object} (h : t.muted = (s.alloc o).2.muted) :
    changes s t = [⟨.create (s.alloc o).1 o, t⟩] := by
  simp [changes, State.store_of_muted_eq h, State.alloc, Store.alloc, Store.get]

theorem changes_of_written {line : Bytes}
    (h : t.muted = State.muted { s with output := s.output.append line }) :
    changes s t = [⟨.write line, t⟩] := by
  simp [changes, State.store_of_muted_eq h, State.output_of_muted_eq h, Output.append]

end Recorded

namespace Invariant

variable {I : Invariant} {α : Type} {scope : ScopeId} {s : State} {P : State → α → Prop}

theorem Recounts.leaf {y : Eval α} (hends : I.Ends s P (y s)) (hb : Eval.Brief s (y s)) :
    I.Recounts scope s P (Recorded.leaf y s) (y s) := by
  change I.Recounts scope s P (Recorded.changes s (Eval.stateOf (y s)), y s) (y s)
  generalize y s = x at hends hb
  cases hb with
  | quiet h =>
    rw [Eval.stateOf, Recorded.changes_of_muted_eq h]
    exact ⟨rfl, hends, h, fun _ => rfl, I.proper_nil⟩
  | created o ho h =>
    rw [Eval.stateOf, Recorded.changes_of_created h]
    have hneutral : Event.Neutral (.create (s.alloc o).1 o) := by
      intro scope callers
      cases o <;> first | rfl | exact absurd rfl ho
    exact .single hneutral ⟨rfl, h⟩ ⟨hends.1.holds, nofun, nofun⟩ hends
  | written line h =>
    rw [Eval.stateOf, Recorded.changes_of_written h]
    exact .single (fun _ _ => rfl) ⟨trivial, h⟩ ⟨hends.1.holds, nofun, nofun⟩ hends
  | @failed t e h =>
    rw [Eval.stateOf, Recorded.changes_of_created h]
    refine ⟨rfl, hends, ⟨⟨rfl, h⟩, rfl⟩, fun _ => rfl, ?_⟩
    simp only [List.mem_singleton, forall_eq]
    exact ⟨hends.1.holds, nofun, nofun⟩

theorem Recounts.doing {y : Eval α} {event : α → Event} (hends : I.Ends s P (y s))
    (hneutral : ∀ a, (event a).Neutral)
    (hok : ∀ a t, y s = .ok a t → (⟨event a, t⟩ : Moment).Follows s ∧ I.Proper ⟨event a, t⟩)
    (herror : ∀ e t, y s = .error e t → Eval.Brief s (y s)) :
    I.Recounts scope s P (Recorded.doing event y s) (y s) := by
  cases hy : y s with
  | ok a t =>
    have hrun : Recorded.doing event y s = ([⟨event a, t⟩], .ok a t) := by
      simp only [Recorded.doing, hy]
    rw [hy] at hends
    rw [hrun]
    exact .single (hneutral a) (hok a t hy).1 (hok a t hy).2 hends
  | error e t =>
    have hrun : Recorded.doing event y s = Recorded.leaf y s := by
      simp only [Recorded.doing, Recorded.leaf, hy, Eval.stateOf]
    rw [hrun, ← hy]
    exact .leaf hends (herror e t hy)

end Invariant

namespace Eval.Brief

variable {s : State}

theorem pure {α : Type} {a : α} : Brief s ((Pure.pure a : Eval α) s) := .quiet rfl

theorem alloc {o : Object} (h : o.kind ≠ .error) : Brief s (Eval.alloc o s) := .created o h rfl

theorem fail {α : Type} (e : RuntimeError) : Brief s ((Eval.fail e : Eval α) s) := .failed e rfl

theorem read {α : Type} {r : Ref} {f : Object → Eval α}
    (h : ∀ o, s.store.get r = o → Brief s (f o s)) : Brief s ((Eval.read r >>= f) s) :=
  h _ rfl

theorem yield {o : Object} (h : o.kind ≠ .error) : Brief s (Eval.yield o s) := by
  cases o with
  | boolean b => exact .pure
  | null => exact .pure
  | builtin b => exact .pure
  | _ => exact .alloc h

theorem ofResult {x : Except RuntimeError Object} (h : ∀ o, x = .ok o → o.kind ≠ .error) :
    Brief s (Eval.ofResult x s) := by
  cases x with
  | ok o => exact .yield (h o rfl)
  | error e => exact .fail e

theorem identifier (scope : ScopeId) (name : Bytes) :
    Brief s (Eval.identifier scope name s) := by
  have run {f : State → Eval Ref} (h : Brief s (f s s)) : Brief s ((get >>= f) s) := h
  apply run
  cases s.store.lookup scope name with
  | some r => exact .pure
  | none =>
    cases Builtin.ofName? name with
    | some b => exact .pure
    | none => exact .fail _

theorem bind {scope : ScopeId} {name : Bytes} {r : Ref} (h : (Builtin.ofName? name).isSome) :
    Brief s (Eval.bind scope name r s) := by
  rw [Eval.bind, if_pos h]
  exact .fail _

theorem printLine (args : List Ref) : Brief s (Builtin.printLine args s) := by
  have run {f : State → Eval Ref} (h : Brief s (f s s)) : Brief s ((get >>= f) s) := h
  apply run
  cases hw : s.output.write? _ with
  | some output =>
    have happend := Output.eq_append_of_write? hw
    exact .written _ (by rw [← happend])
  | none => exact .fail _

theorem builtin (b : Builtin) (args : List Ref) : Brief s (b.run args s) := by
  unfold Builtin.run
  split
  · exact .read fun o _ => .ofResult fun o' ho' => (Builtin.plain_of_sizeOf? ho').not_error
  · refine .read fun o _ => .ofResult fun o' ho' => ?_
    cases ho'
    nofun
  · refine .read fun o _ => .ofResult fun o' ho' => ?_
    obtain ⟨es, -, rfl⟩ := Builtin.eq_of_pushed ho'
    nofun
  · exact .printLine _
  · exact .fail _

theorem element (elements args : List Ref) : Brief s (Eval.element elements args s) := by
  unfold Eval.element
  split
  · refine .read fun o _ => ?_
    cases o.offset elements.length with
    | ok i => exact .pure
    | error e => exact .fail e
  · exact .fail _

theorem byteAt (b : Bytes) (args : List Ref) : Brief s (Eval.byteAt b args s) := by
  unfold Eval.byteAt
  split
  · refine .read fun o _ => ?_
    cases o.offset b.length with
    | ok i => exact .alloc nofun
    | error e => exact .fail e
  · exact .fail _

theorem entry (pairs : Dict Ref) (args : List Ref) : Brief s (Eval.entry pairs args s) := by
  unfold Eval.entry
  split
  · refine .read fun o _ => ?_
    cases o with
    | string k => exact .pure
    | _ => exact .fail _
  · exact .fail _

end Eval.Brief

end CornScript
