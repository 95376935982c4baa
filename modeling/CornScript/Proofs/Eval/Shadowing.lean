import CornScript.Proofs.Eval.Events
import CornScript.Proofs.Eval.Frame

/-! # Where the names of builtins are bound

Only a parameter can have the name of a builtin. So the global scope binds no such name, and any
other scope binds one only if it was opened by a call of a function with such a parameter, with the
argument of that call as its value. This holds in every state that a session goes through: each
event keeps it, and a session is one long sequence of events.
-/

namespace CornScript

/-- Among these moments is the beginning of a call that opens the scope and binds the name in it to
the value, as a parameter. Up to then there is no such scope. -/
def Opened (ms : List Moment) (id : ScopeId) (name : Bytes) (r : Ref) : Prop :=
  ∃ before closure params t after, ms = before ++ ⟨.enter id closure params, t⟩ :: after ∧
    (∀ m ∈ before, m.state.store.IsNew id) ∧ ¬ t.store.IsNew id ∧ (name, r) ∈ params

/-- After these moments, the global scope binds no name of a builtin, and other scopes bind such
names as parameters only. -/
structure Parametric (ms : List Moment) (global : ScopeId) (s : Store) : Prop where
  rooted : ¬ s.IsNew global
  older : ∀ m ∈ ms, m.state.store.scopes.size ≤ s.scopes.size
  global : ∀ {sc} (b : Builtin), s.scope? global = some sc → sc.bindings.get? b.name = none
  opened : ∀ {id sc r} (b : Builtin), s.scope? id = some sc → sc.bindings.get? b.name = some r →
    Opened ms id b.name r

theorem Builtin.ofName?_name (b : Builtin) : ofName? b.name = some b := by
  cases b <;> decide

section Parametric

variable {ms ms' : List Moment} {global id : ScopeId} {s t : Store} {name : Bytes} {r : Ref}
  {m : Moment} {params : List (Bytes × Ref)}

theorem Opened.append (h : Opened ms id name r) (ms' : List Moment) :
    Opened (ms ++ ms') id name r := by
  obtain ⟨before, closure, params, t, after, rfl, hopen⟩ := h
  exact ⟨before, closure, params, t, after ++ ms', by simp, hopen⟩

namespace Store

/-- What a scope binds after its parameters have been bound is a parameter or was bound before. -/
theorem get?_bindParams {sc : Scope} (h : (Eval.bindParams s id params).scope? id = some sc)
    (hr : sc.bindings.get? name = some r) :
    (name, r) ∈ params ∨ ∃ sc', s.scope? id = some sc' ∧ sc'.bindings.get? name = some r := by
  induction params generalizing s with
  | nil => exact .inr ⟨sc, h, hr⟩
  | cons p rest ih =>
    obtain ⟨name', r'⟩ := p
    rcases ih h with hmem | ⟨sc', hsc', hr'⟩
    · exact .inl (List.mem_cons_of_mem _ hmem)
    · rw [scope?_bind, if_pos rfl] at hsc'
      obtain ⟨sc'', hsc'', rfl⟩ := Option.map_eq_some_iff.mp hsc'
      rw [Dict.get?_insert] at hr'
      split at hr'
      · next hname =>
        cases hr'
        rw [hname]
        exact .inl List.mem_cons_self
      · exact .inr ⟨sc'', hsc'', hr'⟩

theorem scope?_bindParams_of_ne {id' : ScopeId} (h : id ≠ id') :
    (Eval.bindParams s id params).scope? id' = s.scope? id' := by
  induction params generalizing s with
  | nil => rfl
  | cons p rest ih => exact ih.trans ((scope?_bind ..).trans (if_neg h))

end Store

namespace Parametric

theorem congr (h : Parametric ms global s) (hsize : t.scopes.size = s.scopes.size)
    (hsame : ∀ {id sc} (b : Builtin), t.scope? id = some sc →
      ∃ sc', s.scope? id = some sc' ∧ sc'.bindings.get? b.name = sc.bindings.get? b.name) :
    Parametric ms global t where
  rooted := by
    rw [Store.IsNew, hsize]
    exact h.rooted
  older := by
    rw [hsize]
    exact h.older
  global b hsc := by
    obtain ⟨sc', hsc', heq⟩ := hsame b hsc
    exact heq ▸ h.global b hsc'
  opened b hsc hr := by
    obtain ⟨sc', hsc', heq⟩ := hsame b hsc
    exact h.opened b hsc' (heq.trans hr)

theorem of_scopes_eq (h : Parametric ms global s) (hscopes : t.scopes = s.scopes) :
    Parametric ms global t := by
  apply h.congr
  · rw [hscopes]
  · intro id sc b hsc
    rw [Store.scope?, hscopes] at hsc
    exact ⟨sc, hsc, rfl⟩

theorem snoc (h : Parametric ms global s) (hm : m.state.store.scopes.size ≤ s.scopes.size) :
    Parametric (ms ++ [m]) global s where
  rooted := h.rooted
  older := by
    simp only [List.mem_append, List.mem_singleton]
    rintro m' (hm' | rfl)
    · exact h.older m' hm'
    · exact hm
  global := h.global
  opened b hsc hr := (h.opened b hsc hr).append [m]

theorem bind (h : Parametric ms global s) (hname : Builtin.ofName? name = none) :
    Parametric ms global (s.bind id name r) := by
  apply h.congr
  · exact Store.size_scopes_bind ..
  · intro id' sc b hsc
    rw [Store.scope?_bind] at hsc
    split at hsc
    · obtain ⟨sc', hsc', rfl⟩ := Option.map_eq_some_iff.mp hsc
      refine ⟨sc', hsc', ?_⟩
      rw [Dict.get?_insert, if_neg]
      rintro rfl
      rw [b.ofName?_name] at hname
      cases hname
    · exact ⟨sc, hsc, rfl⟩

theorem enter (h : Parametric ms global s) (closure : Option ScopeId) (u : State)
    (hu : u.store = Eval.bindParams (s.newScope closure).2 ⟨s.scopes.size⟩ params) :
    Parametric (ms ++ [⟨.enter ⟨s.scopes.size⟩ closure params, u⟩]) global u.store := by
  have hparams := Store.Grows.bindParams (s.newScope closure).2 ⟨s.scopes.size⟩ params
  have hgrows : s.Grows u.store := by
    rw [hu]
    exact (Store.Grows.newScope s closure).trans hparams
  have hthere : ¬ u.store.IsNew ⟨s.scopes.size⟩ := by
    rw [hu, Store.IsNew, Nat.not_le]
    refine Nat.lt_of_lt_of_le ?_ hparams.scopes
    simp
  have hother {id : ScopeId} (hid : id.index ≠ s.scopes.size) :
      u.store.scope? id = s.scope? id := by
    have hne : (⟨s.scopes.size⟩ : ScopeId) ≠ id := fun he => hid (congrArg ScopeId.index he).symm
    rw [hu, Store.scope?_bindParams_of_ne hne, Store.scope?_newScope, if_neg hid]
  constructor
  case rooted => exact fun hnew => h.rooted (hgrows.scopes.trans hnew)
  case older =>
    simp only [List.mem_append, List.mem_singleton]
    rintro m (hm | rfl)
    · exact (h.older m hm).trans hgrows.scopes
    · exact Nat.le_refl _
  case global =>
    intro sc b hsc
    rw [hother (Nat.ne_of_lt (Nat.not_le.mp h.rooted))] at hsc
    exact h.global b hsc
  case opened =>
    intro id sc r b hsc hr
    by_cases hid : id.index = s.scopes.size
    · obtain rfl : id = ⟨s.scopes.size⟩ := congrArg ScopeId.mk hid
      rw [hu] at hsc
      rcases Store.get?_bindParams hsc hr with hmem | ⟨sc', hsc', hr'⟩
      · exact ⟨ms, closure, params, u, [], rfl, h.older, hthere, hmem⟩
      · rw [Store.scope?_newScope, if_pos rfl] at hsc'
        cases hsc'
        cases hr'
    · rw [hother hid] at hsc
      exact (h.opened b hsc hr).append _

theorem step {s : State} (h : Parametric ms global s.store) (hm : m.Follows s)
    (hevent : m.event.Permitted) : Parametric (ms ++ [m]) global m.state.store := by
  have hstore : m.state.store = (m.event.effect s.muted).store := State.store_of_muted_eq hm.state
  obtain ⟨event, u⟩ := m
  have hscopes : u.store.scopes = (event.effect s.muted).store.scopes :=
    congrArg Store.scopes hstore
  -- Most events leave the scopes as they are.
  have kept (hscopes : u.store.scopes = s.store.scopes) :
      Parametric (ms ++ [⟨event, u⟩]) global u.store :=
    (h.of_scopes_eq hscopes).snoc (Nat.le_refl _)
  cases event with
  | bind id name r =>
    have hname : Builtin.ofName? name = none := by
      rcases hevent with hevent | ⟨root, r, hevent⟩
      · exact hevent
      · cases hevent
    have hbind : Parametric ms global u.store := by
      rw [hstore]
      exact h.bind hname
    exact hbind.snoc (Nat.le_refl _)
  | enter id closure params =>
    obtain rfl : id = ⟨s.store.scopes.size⟩ := hm.fresh
    exact h.enter closure u hstore
  | _ => exact kept hscopes

theorem run {s t : State} (h : Parametric ms global s.store) (hms : Accounted s ms' t)
    (hevents : ∀ m ∈ ms', m.event.Permitted) : Parametric (ms ++ ms') global t.store := by
  induction ms' generalizing ms s with
  | nil =>
    have hst : t.store = s.store := State.store_of_muted_eq hms
    rwa [hst, List.append_nil]
  | cons m rest ih =>
    rw [List.forall_mem_cons] at hevents
    have hrest := ih (h.step hms.1 hevents.1) hms.2 hevents.2
    rwa [List.append_assoc, List.singleton_append] at hrest

theorem eval {s : State} (h : Parametric ms global s.store)
    (hs : discipline.holds s) (fuel : Nat) (scope : ScopeId) (node : Node) :
    Parametric (ms ++ (node.record fuel scope s).1) global (node.eval fuel scope s).2.store := by
  rw [Node.stateOf_run]
  exact h.run (discipline.recounts hs fuel scope node).accounted
    (node.tells_record fuel scope s)

end Parametric

end Parametric

namespace Session

variable {threshold : Nat} {output : Output} {log : Log} {ms : List Moment} {s : Session}

def moments (s : Session) : Act → List Moment
  | .exec fuel source => match Program.parse source with
    | .ok p => ((Node.program p).record fuel s.scope s.state).1
    | .error _ => []
  | .collect => []

/-- A new session has come to this, with all that happened: by acts, by the evaluation of trees in
some scopes, or to a moment in the course of an evaluation. -/
inductive Journal (threshold : Nat) (output : Output) (log : Log) :
    List Moment → Session → Prop where
  | new : Journal threshold output log [] (.new threshold output log)
  | perform {ms : List Moment} {s : Session} (act : Act) : Journal threshold output log ms s →
    Journal threshold output log (ms ++ s.moments act) (s.perform act).2
  | eval {ms : List Moment} {s : Session} (fuel : Nat) (scope : ScopeId) (node : Node) :
    Journal threshold output log ms s →
    Journal threshold output log (ms ++ (node.record fuel scope s.state).1)
      { s with state := (node.eval fuel scope s.state).2 }
  | within {ms before after : List Moment} {s : Session} {fuel : Nat} {scope : ScopeId}
    {node : Node} {m : Moment} : Journal threshold output log ms s →
    (node.record fuel scope s.state).1 = before ++ m :: after →
    Journal threshold output log (ms ++ (before ++ [m])) { s with state := m.state }

theorem Journal.holds {I : Invariant} (hI : I.Universal)
    (hnew : I.holds (Session.new threshold output log).state)
    (h : Journal threshold output log ms s) : I.holds s.state := by
  induction h with
  | new => exact hnew
  | perform act _ ih => exact hI.holds_perform ih act
  | eval fuel scope node _ ih => exact hI.holds_eval ih fuel scope node
  | within _ hrecord ih =>
    apply Invariant.Proper.holds
    apply (hI.recounts ih _ _ _).proper
    rw [hrecord]
    simp

theorem Journal.holds_discipline (h : Journal threshold output log ms s) :
    discipline.holds s.state :=
  h.holds discipline.universal discipline_new

theorem parametric_new : Parametric [] ⟨0⟩ (Store.initial.newScope none).2 := by
  have hempty {id : ScopeId} {sc : Scope}
      (hsc : (Store.initial.newScope none).2.scope? id = some sc) : sc.bindings = .empty := by
    rw [Store.scope?_newScope] at hsc
    split at hsc
    · cases hsc
      rfl
    · cases hsc
  constructor
  case rooted =>
    rw [Store.IsNew]
    decide
  case older => exact fun _ hm => absurd hm List.not_mem_nil
  case global =>
    intro sc b hsc
    rw [hempty hsc]
    rfl
  case opened =>
    intro id sc r b hsc hr
    rw [hempty hsc] at hr
    cases hr

theorem Journal.parametric (h : Journal threshold output log ms s) :
    Parametric ms s.scope s.state.store := by
  induction h with
  | new => exact parametric_new
  | @perform ms s act h ih =>
    rw [scope_perform]
    cases act with
    | exec fuel source =>
      simp only [Session.perform, Session.exec, moments]
      cases Program.parse source with
      | ok p => exact ih.eval h.holds_discipline fuel s.scope (.program p)
      | error e =>
        rw [List.append_nil]
        exact ih
    | collect =>
      rw [moments, List.append_nil]
      exact ih
  | eval fuel scope node h ih => exact ih.eval h.holds_discipline fuel scope node
  | @within ms before after s fuel scope node m h hrecord ih =>
    have haccounted := (discipline.recounts h.holds_discipline fuel scope node).accounted
    rw [hrecord] at haccounted
    refine ih.run haccounted.until_moment fun m' hm' => ?_
    apply node.tells_record fuel scope s.state
    rw [hrecord]
    simp only [List.mem_append, List.mem_cons, List.not_mem_nil, or_false] at hm' ⊢
    exact hm'.imp_right .inl

end Session

end CornScript
