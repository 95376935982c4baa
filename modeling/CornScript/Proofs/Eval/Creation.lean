import CornScript.Proofs.Eval.Frame

/-! # The order of creation

Functions and scopes may refer to one another in circles, but the elements of an array and the
values of a hash are there before it, and so is the scope around a scope. So containment has no
circles, and from every scope one comes outwards to the global one. An object never changes once it
is there.
-/

namespace CornScript

open Heap (Item Part Edge)

open Relation (TransGen)

namespace Store

def Holds (s : Store) (a r : Ref) : Prop :=
  Part (s.get a) (.object r)

/-- The scopes from one scope outwards, each created before the one inside it, up to the global
scope, which is inside no other. -/
inductive Outward (s : Store) (global : ScopeId) : ScopeId → List ScopeId → Prop where
  | global {sc : Scope} : s.scope? global = some sc → sc.outer = none →
    Outward s global global [global]
  | step {id outer : ScopeId} {sc : Scope} {ids : List ScopeId} : s.scope? id = some sc →
    sc.outer = some outer → outer.index < id.index → Outward s global outer ids →
    Outward s global id (id :: ids)

/-- Whatever there is refers to what was there before, except that functions keep scopes and scopes
bind names to any object. -/
structure Ordered (global : ScopeId) (s : Store) : Prop where
  furnished : initial.objects.size ≤ s.objects.size
  rooted : ¬ s.IsNew global
  held : ∀ {a r}, s.Holds a r → r.index < a.index
  closure : ∀ {f params body c}, s.get f = .function params body c →
    ∃ id, c = some id ∧ id.index < s.scopes.size
  binding : ∀ {id sc name r}, s.scope? id = some sc → sc.bindings.get? name = some r →
    r.index < s.objects.size
  outer : ∀ {id sc}, s.scope? id = some sc →
    id = global ∧ sc.outer = none ∨ ∃ outer, sc.outer = some outer ∧ outer.index < id.index

def Exists (s : Store) : Item → Prop
  | .object r => r.index < s.objects.size
  | .scope id => id.index < s.scopes.size

def BodiesWellFormed (s : Store) : Prop :=
  ∀ {f params body c}, s.get f = .function params body c → body.WellFormed

variable {s : Store} {global : ScopeId} {o : Object}

theorem get_of_size_le {r : Ref} (h : s.objects.size ≤ r.index) : s.get r = .null := by
  rw [get, Array.getD_eq_getD_getElem?, Array.getElem?_eq_none h]
  rfl

theorem Holds.index_lt {a r : Ref} (h : s.Holds a r) : a.index < s.objects.size := by
  by_contra hge
  rw [Holds, get_of_size_le (Nat.not_lt.mp hge)] at h
  cases h

theorem Grows.exists {t : Store} (h : s.Grows t) {item : Item} (hitem : s.Exists item) :
    t.Exists item := by
  cases item with
  | object r => exact Nat.lt_of_lt_of_le hitem h.objects
  | scope id => exact Nat.lt_of_lt_of_le hitem h.scopes

theorem BodiesWellFormed.alloc (h : s.BodiesWellFormed)
    (ho : ∀ {params body c}, o = .function params body c → body.WellFormed) :
    (s.alloc o).2.BodiesWellFormed := by
  intro f params body c hf
  rw [get_alloc] at hf
  split at hf
  · exact ho hf
  · exact h hf

namespace Ordered

theorem alloc (h : s.Ordered global) (hheld : ∀ r, Part o (.object r) → r.index < s.objects.size)
    (hclosure : ∀ {params body c}, o = .function params body c →
      ∃ id, c = some id ∧ id.index < s.scopes.size) :
    (s.alloc o).2.Ordered global where
  furnished := h.furnished.trans (Grows.alloc s o).objects
  rooted := h.rooted
  held {a r} hr := by
    rw [Holds, get_alloc] at hr
    split at hr
    · next ha =>
      rw [ha]
      exact hheld r hr
    · exact h.held hr
  closure {f params body c} hf := by
    rw [get_alloc] at hf
    split at hf
    · exact hclosure hf
    · exact h.closure hf
  binding hsc hr := (h.binding hsc hr).trans_le (Grows.alloc s o).objects
  outer hsc := h.outer hsc

theorem bind {r : Ref} (h : s.Ordered global) (id : ScopeId) (name : Bytes)
    (hr : r.index < s.objects.size) : (s.bind id name r).Ordered global where
  furnished := h.furnished
  rooted := by
    rw [IsNew, size_scopes_bind]
    exact h.rooted
  held hr := h.held hr
  closure hf := by
    rw [size_scopes_bind]
    exact h.closure hf
  binding {id' sc name' r'} hsc hr' := by
    rw [scope?_bind] at hsc
    split at hsc
    · obtain ⟨sc', hsc', rfl⟩ := Option.map_eq_some_iff.mp hsc
      rw [Dict.get?_insert] at hr'
      split at hr'
      · cases hr'
        exact hr
      · exact h.binding hsc' hr'
    · exact h.binding hsc hr'
  outer {id' sc} hsc := by
    rw [scope?_bind] at hsc
    split at hsc
    · obtain ⟨sc', hsc', rfl⟩ := Option.map_eq_some_iff.mp hsc
      have houter := h.outer hsc'
      exact houter
    · exact h.outer hsc

theorem newScope {id : ScopeId} (h : s.Ordered global) (hid : id.index < s.scopes.size) :
    (s.newScope (some id)).2.Ordered global where
  furnished := h.furnished
  rooted hnew := h.rooted ((Grows.newScope s _).scopes.trans hnew)
  held hr := h.held hr
  closure hf := by
    obtain ⟨id', hc, hid'⟩ := h.closure hf
    refine ⟨id', hc, ?_⟩
    rw [size_scopes_newScope]
    exact Nat.lt_succ_of_lt hid'
  binding {id' sc name r} hsc hr := by
    rw [scope?_newScope] at hsc
    split at hsc
    · cases hsc
      cases hr
    · exact h.binding hsc hr
  outer {id' sc} hsc := by
    rw [scope?_newScope] at hsc
    split at hsc
    · next hnew =>
      cases hsc
      refine .inr ⟨id, ?_, hnew ▸ hid⟩
      simp [hid]
    · exact h.outer hsc

theorem exists_of_edge (h : s.Ordered global) {i j : Item} (hi : s.Exists i) (he : Edge s i j) :
    s.Exists j := by
  cases he with
  | @part r j hp =>
    cases j with
    | object r' => exact Nat.lt_trans (h.held hp) hi
    | scope id =>
      cases ho : s.get r <;> rw [ho] at hp <;> cases hp
      obtain ⟨id', hc, hid'⟩ := h.closure ho
      cases hc
      exact hid'
  | binding hsc hr => exact h.binding hsc hr
  | outer hsc ho =>
    rcases h.outer hsc with ⟨-, hnone⟩ | ⟨outer, houter, hlt⟩
    · rw [ho] at hnone
      cases hnone
    · rw [ho] at houter
      cases houter
      exact Nat.lt_trans hlt hi

theorem exists_outward (h : s.Ordered global) {id : ScopeId} (hid : id.index < s.scopes.size) :
    ∃ ids, s.Outward global id ids := by
  obtain ⟨sc, hsc⟩ : ∃ sc, s.scope? id = some sc := ⟨_, Array.getElem?_eq_getElem hid⟩
  rcases h.outer hsc with ⟨rfl, ho⟩ | ⟨outer, ho, hlt⟩
  · exact ⟨_, .global hsc ho⟩
  · obtain ⟨ids, hids⟩ := h.exists_outward (hlt.trans hid)
    exact ⟨_, .step hsc ho hlt hids⟩
termination_by id.index

theorem index_lt_of_transGen (h : s.Ordered global) {a r : Ref} (hr : TransGen s.Holds a r) :
    r.index < a.index := by
  induction hr with
  | single hr => exact h.held hr
  | tail _ hr ih => exact (h.held hr).trans ih

end Ordered

/-- Containment goes back in the order of creation, so it has no circles, and every chain of scopes
leads to the global one. -/
structure Founded (global : ScopeId) (s : Store) : Prop where
  earlier : ∀ {a r}, s.Holds a r → r.index < a.index ∧ a.index < s.objects.size
  acyclic : ∀ a, ¬ TransGen s.Holds a a
  wellFounded : WellFounded fun r a => s.Holds a r
  outward : ∀ {id}, id.index < s.scopes.size → ∃ ids, s.Outward global id ids

theorem Ordered.founded (h : s.Ordered global) : s.Founded global where
  earlier hr := ⟨h.held hr, hr.index_lt⟩
  acyclic _ ha := Nat.lt_irrefl _ (h.index_lt_of_transGen ha)
  wellFounded := Subrelation.wf h.held (measure Ref.index).wf
  outward := h.exists_outward

end Store

/-- What is there is in order. If only well-formed trees are run, no other is kept. -/
def ordering (global : ScopeId) (strict : Prop) : Invariant where
  holds s := s.store.Ordered global ∧ (strict → s.store.BodiesWellFormed)
  good s item := s.store.Exists item
  home s id := s.store.Exists (.scope id)
  failed s r := s.store.Exists (.object r)
  strict := strict

namespace ordering

variable {global : ScopeId} {strict : Prop} {s t : State} {o : Object}

theorem later (h : (ordering global strict).holds t) (hgrows : s.store.Grows t.store) :
    (ordering global strict).Later s t where
  holds := h
  good := hgrows.exists
  home {id} hid := by
    have hscope : s.store.Exists (.scope id) := hid
    exact hgrows.exists hscope

theorem later_of_store_eq (h : (ordering global strict).holds s) (hst : t.store = s.store) :
    (ordering global strict).Later s t := by
  apply later
  · change t.store.Ordered global ∧ (strict → t.store.BodiesWellFormed)
    rw [hst]
    exact h
  · rw [hst]
    exact .refl _

theorem holds_alloc (h : (ordering global strict).holds s) (ho : (ordering global strict).Fit s o) :
    (ordering global strict).holds (s.alloc o).2 := by
  refine ⟨h.1.alloc (fun r hr => ho.part hr) fun {params body c} hf => ?_, fun hstrict => ?_⟩
  · obtain ⟨id, rfl⟩ := Option.isSome_iff_exists.mp (ho.closed hf).1
    have hpart : Part o (.scope id) := hf ▸ .closure
    exact ⟨id, rfl, ho.part hpart⟩
  · exact Store.BodiesWellFormed.alloc (h.2 hstrict) fun hf => (ho.closed hf).2 hstrict

theorem holds_fail (h : (ordering global strict).holds s) (e : RuntimeError) :
    (ordering global strict).holds (s.alloc (.error e)).2 := by
  refine ⟨h.1.alloc nofun nofun, fun hstrict => Store.BodiesWellFormed.alloc (h.2 hstrict) ?_⟩
  rintro _ _ _ ⟨⟩

theorem exists_alloc : (s.alloc o).2.store.Exists (.object (s.alloc o).1) := by
  simp [Store.Exists, State.alloc, Store.alloc]

theorem stable : (ordering global strict).Stable where
  boolean h b := Nat.lt_of_lt_of_le (by cases b <;> decide) h.1.furnished
  null h := Nat.lt_of_lt_of_le (by decide) h.1.furnished
  builtin h b := Nat.lt_of_lt_of_le (by cases b <;> decide) h.1.furnished
  edge h := h.1.exists_of_edge
  scope h := h
  body h _ hf hstrict := h.2 hstrict hf
  alloc h ho := ⟨later (holds_alloc h ho) (.alloc _ _), exists_alloc⟩
  fail e h := ⟨later (holds_fail h e) (.alloc _ _), exists_alloc⟩
  bind name h _ hr := later ⟨h.1.bind _ name hr, h.2⟩ (.bind _ _ _ _)
  newScope h _ hf := by
    obtain ⟨id, rfl, hid⟩ := h.1.closure hf
    refine ⟨later ⟨h.1.newScope hid, h.2⟩ (.newScope _ _), ?_⟩
    simp [ordering, Store.Exists, Store.newScope]
  count h := later_of_store_eq h rfl
  trace _ h := later_of_store_eq h rfl
  failed_trace _ h := h
  write h _ := later_of_store_eq h rfl

theorem undisturbed : (ordering global strict).Undisturbed :=
  fun _ _ h => later_of_store_eq h (State.store_collectIfDue _ _ _)

theorem recounts {scope : ScopeId} (h : (ordering global strict).holds s)
    (hscope : ¬ s.store.IsNew scope) (fuel : Nat) (node : Node) (hw : strict → node.WellFormed) :
    (ordering global strict).Recounts scope s (ordering global strict).Value
      (node.record fuel scope s) (node.run fuel scope s) :=
  Invariant.recounts_node stable undisturbed fuel node h (Nat.not_le.mp hscope) hw

end ordering

theorem Store.get_initial_ne_function {f : Ref} {params : List Bytes} {body : Block}
    {c : Option ScopeId} : initial.get f ≠ .function params body c := by
  intro hf
  have hmanaged : (initial.get f).isManaged = true := congrArg Object.isManaged hf
  rw [State.isManaged_get_initial] at hmanaged
  cases hmanaged

theorem Store.ordered_new : (initial.newScope none).2.Ordered ⟨0⟩ where
  furnished := Nat.le_refl _
  rooted := by
    rw [IsNew]
    decide
  held {a r} hr := by
    have hmanaged : (initial.get a).isManaged = true := Heap.isManaged_of_part hr
    rw [State.isManaged_get_initial] at hmanaged
    cases hmanaged
  closure hf := absurd hf get_initial_ne_function
  binding hsc hr := by
    rw [scope?_newScope] at hsc
    split at hsc
    · cases hsc
      cases hr
    · cases hsc
  outer {id sc} hsc := by
    rw [scope?_newScope] at hsc
    split at hsc
    · next hid =>
      cases hsc
      exact .inl ⟨congrArg ScopeId.mk hid, rfl⟩
    · cases hsc

structure Settled (global : ScopeId) (states : List State) : Prop where
  kept : states.Pairwise fun u v => ∀ {r : Ref}, r.index < u.store.objects.size →
    r.index < v.store.objects.size ∧ v.store.get r = u.store.get r
  founded : ∀ u ∈ states, u.store.Founded global

/-- States that came one after the other up to `now`, each in order. -/
structure Lasting (global : ScopeId) (states : List State) (now : State) : Prop where
  grows : states.Pairwise fun u v => u.store.Grows v.store
  since : ∀ u ∈ states, u.store.Grows now.store
  ordered : ∀ u ∈ states, u.store.Ordered global
  now : now.store.Ordered global

namespace Lasting

variable {global : ScopeId} {states later : List State} {s t : State}

theorem append (h : Lasting global states s)
    (hgrows : ((s :: later) ++ [t]).Pairwise fun u v => u.store.Grows v.store)
    (hordered : ∀ u ∈ later, u.store.Ordered global) (ht : t.store.Ordered global) :
    Lasting global (states ++ later ++ [t]) t := by
  rw [List.cons_append, List.pairwise_cons] at hgrows
  obtain ⟨hfrom, hlater⟩ := hgrows
  have hst : s.store.Grows t.store := hfrom t (by simp)
  constructor
  case grows =>
    rw [List.append_assoc, List.pairwise_append]
    exact ⟨h.grows, hlater, fun u hu v hv => (h.since u hu).trans (hfrom v hv)⟩
  case since =>
    intro u hu
    rcases List.mem_append.mp hu with hu | hu
    · rcases List.mem_append.mp hu with hu | hu
      · exact (h.since u hu).trans hst
      · exact (List.pairwise_append.mp hlater).2.2 u hu t (List.mem_singleton_self t)
    · rw [List.mem_singleton.mp hu]
      exact .refl _
  case ordered =>
    intro u hu
    rcases List.mem_append.mp hu with hu | hu
    · exact (List.mem_append.mp hu).elim (h.ordered u) (hordered u)
    · rw [List.mem_singleton.mp hu]
      exact ht
  case now => exact ht

theorem append_of_store_eq (h : Lasting global states s) (hst : t.store = s.store) :
    Lasting global (states ++ [] ++ [t]) t := by
  apply h.append
  · simpa [hst] using Store.Grows.refl s.store
  · nofun
  · rw [hst]
    exact h.now

theorem eval (h : Lasting global states s) (fuel : Nat) {scope : ScopeId}
    (hscope : ¬ s.store.IsNew scope) (node : Node) :
    Lasting global (states ++ (node.record fuel scope s).1.map Moment.state ++
      [(node.eval fuel scope s).2]) (node.eval fuel scope s).2 := by
  have hs : (ordering global False).holds s := ⟨h.now, False.elim⟩
  have hrecounts := ordering.recounts hs hscope fuel node False.elim
  apply h.append
  · rw [Node.stateOf_run]
    exact hrecounts.accounted.pairwise .trans .refl Event.grows
  · intro u hu
    obtain ⟨m, hm, rfl⟩ := List.mem_map.mp hu
    exact (hrecounts.proper m hm).holds.1
  · rw [Node.stateOf_run]
    exact hrecounts.ends.later.holds.1

theorem isSettled (h : Lasting global states s) : Settled global states where
  kept := h.grows.imp fun huv _ hr => ⟨hr.trans_le huv.objects, huv.get hr⟩
  founded u hu := (h.ordered u hu).founded

end Lasting

namespace Session

variable {threshold : Nat} {output : Output} {log : Log} {states : List State} {s : Session}

def course (s : Session) : Act → List State
  | .exec fuel source => match Program.parse source with
    | .ok p => ((Node.program p).record fuel s.scope s.state).1.map Moment.state
    | .error _ => []
  | .collect => []

/-- A new session has come to this through these states, one after the other, by acts and by the
evaluation of trees in scopes that were there. -/
inductive History (threshold : Nat) (output : Output) (log : Log) :
    List State → Session → Prop where
  | new : History threshold output log [(Session.new threshold output log).state]
    (.new threshold output log)
  | perform {states : List State} {s : Session} (act : Act) :
    History threshold output log states s →
    History threshold output log (states ++ s.course act ++ [(s.perform act).2.state])
      (s.perform act).2
  | eval {states : List State} {s : Session} (fuel : Nat) (scope : ScopeId) (node : Node) :
    History threshold output log states s → ¬ s.state.store.IsNew scope →
    History threshold output log
      (states ++ (node.record fuel scope s.state).1.map Moment.state ++
        [(node.eval fuel scope s.state).2])
      { s with state := (node.eval fuel scope s.state).2 }

theorem lasting_perform (h : Lasting s.scope states s.state) (act : Act) :
    Lasting s.scope (states ++ s.course act ++ [(s.perform act).2.state])
      (s.perform act).2.state := by
  cases act with
  | exec fuel source =>
    simp only [perform, exec, course]
    cases Program.parse source with
    | ok p => exact h.eval fuel h.now.rooted (.program p)
    | error e => exact h.append_of_store_eq rfl
  | collect => exact h.append_of_store_eq rfl

theorem History.lasting (h : History threshold output log states s) :
    Lasting s.scope states s.state := by
  induction h with
  | new =>
    refine ⟨List.pairwise_singleton _ _, ?_, ?_, Store.ordered_new⟩
    · intro u hu
      rw [List.mem_singleton.mp hu]
      exact .refl _
    · intro u hu
      rw [List.mem_singleton.mp hu]
      exact Store.ordered_new
  | perform act _ ih =>
    rw [scope_perform]
    exact lasting_perform ih act
  | eval fuel scope node _ hscope ih => exact ih.eval fuel hscope node

/-- Whatever a session goes through, no object changes once it is there, arrays and hashes hold only
what was there before them, and every scope leads outwards to the global one. -/
theorem History.settled (h : History threshold output log states s) : Settled s.scope states :=
  h.lasting.isSettled

def pushText : Bytes := text "let a = []; let b = push(a, a); fn() \x7b b \x7d"

def pushing : Session :=
  ((Session.new 1 .unlimited (.start .info)).perform (.exec 20 pushText)).2

theorem get_pushing : pushing.state.store.get ⟨8⟩ = .array [⟨7⟩] := by
  cbv

def pushingStates : List State :=
  let s := Session.new 1 .unlimited (.start .info)
  [s.state] ++ s.course (.exec 20 pushText) ++ [pushing.state]

theorem History.settled_pushing :
    History 1 .unlimited (.start .info) pushingStates pushing ∧
      Settled pushing.scope pushingStates ∧ pushing.state.store.Holds ⟨8⟩ ⟨7⟩ := by
  have h : History 1 .unlimited (.start .info) pushingStates pushing := .perform _ .new
  refine ⟨h, h.settled, ?_⟩
  rw [Store.Holds, get_pushing]
  exact .element (List.mem_singleton_self _)

end Session

end CornScript
