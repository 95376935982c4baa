import CornScript.Proofs.Eval.Backlog
import CornScript.Proofs.Eval.Retention

/-! # Intermediate values are owned

While a statement is in progress, its operands and arguments, the elements of an array or a hash
that is not built yet and what the open calls have bound need not be reachable from the global
scope. Nothing is collected before the statement ends, so the heap owns all of them from the moment
they are there to the end of the statement.

The record of an evaluation shows where each of these values comes from: it contains the records of
the expressions that are evaluated on the way, one within the other.
-/

namespace CornScript

open Heap (Item Part Edge)

open Relation (ReflTransGen)

namespace Recorded

variable {α β : Type}

def Exhausted (x : EStateM.Result Abrupt State α) : Prop :=
  ∃ t, x = .error .outOfFuel t

/-- Where a record tells that the evaluation of an expression begins, it goes on with the record of
this evaluation. -/
def Nests (x : Recorded α) : Prop :=
  ∀ s before m after inner e, (x s).1 = before ++ m :: after → m.event = .evaluate inner e →
    ∃ fuel rest, m :: after = (eval fuel inner e m.state).1 ++ rest ∧
      (Exhausted (eval fuel inner e m.state).2 → Exhausted (x s).2)

namespace Nests

variable {x : Recorded α}

theorem bind {f : α → Recorded β} (hx : Nests x) (hf : ∀ a, Nests (f a)) : Nests (x >>= f) := by
  intro s before m after inner e heq hm
  rcases hr : x s with ⟨ms, res⟩
  cases res with
  | ok a t =>
    have hrun : (x >>= f) s = (ms ++ (f a t).1, (f a t).2) := by simp only [Bind.bind, hr]
    rw [hrun] at heq ⊢
    rcases List.append_eq_append_iff.mp heq with ⟨mid, -, hmid⟩ | ⟨mid, hms, hmid⟩
    · exact hf a t mid m after inner e hmid hm
    · cases mid with
      | nil => exact hf a t [] m after inner e hmid.symm hm
      | cons m' mid =>
        cases hmid
        -- The expression belongs to the first part, which has come to an end with a value.
        obtain ⟨fuel, rest, hrest, hfuel⟩ := hx s before m mid inner e (by rw [hr]; exact hms) hm
        refine ⟨fuel, rest ++ (f a t).1, ?_, fun hout => ?_⟩
        · rw [← List.append_assoc, ← hrest]
          rfl
        · rw [hr] at hfuel
          obtain ⟨u, hu⟩ := hfuel hout
          cases hu
  | error err t =>
    have hrun : (x >>= f) s = (ms, .error err t) := by simp only [Bind.bind, hr]
    rw [hrun] at heq ⊢
    obtain ⟨fuel, rest, hrest, hfuel⟩ := hx s before m after inner e (by rw [hr]; exact heq) hm
    refine ⟨fuel, rest, hrest, fun hout => ?_⟩
    rw [hr] at hfuel
    obtain ⟨u, hu⟩ := hfuel hout
    cases hu
    exact ⟨t, rfl⟩

end Nests

end Recorded

namespace State

variable {s t : State} {i j item : Item}

theorem edge_of_edge_bindParams {store : Store} {id : ScopeId} {params : List (Bytes × Ref)}
    (he : Edge (Eval.bindParams store id params) i j) :
    Edge store i j ∨ ∃ r ∈ params.map Prod.snd, j = .object r := by
  induction params generalizing store with
  | nil => exact .inl he
  | cons p rest ih =>
    rcases ih he with he | ⟨r, hr, rfl⟩
    · exact (edge_of_edge_bind he).imp_right fun hj => ⟨p.2, List.mem_cons_self, hj⟩
    · exact .inr ⟨r, List.mem_cons_of_mem _ hr, rfl⟩

theorem sound_bindParams {id : ScopeId} {params : List (Bytes × Ref)} (h : s.Sound i) :
    Sound { s with store := Eval.bindParams s.store id params } i := by
  induction params generalizing s with
  | nil => exact h
  | cons p rest ih => exact ih (s := { s with store := s.store.bind id p.1 p.2 }) (sound_bind h)

theorem Safe.of_edges (hedge : ∀ i j, s.Sound i → Edge t.store i j → Edge s.store i j ∨ t.Safe j)
    (hsound : ∀ i, s.Sound i → t.Sound i) (h : s.Safe item) : t.Safe item := by
  refine safe_of_closed (fun i => s.Safe i ∨ t.Safe i) ?_ ?_ (.inl h)
  · rintro i j (hi | hi) he
    · exact (hedge i j hi.sound he).imp_left hi.edge
    · exact .inr (hi.edge he)
  · rintro i (hi | hi)
    · exact hsound i hi.sound
    · exact hi.sound

end State

theorem Event.muted_effect (event : Event) (s : State) :
    (event.effect s.muted).muted = (event.effect s).muted := by
  cases event <;> rfl

namespace ownership

variable {s t : State} {ms : List Moment}

theorem later_of_eq (hs : s.Orderly) (hst : t.store = s.store) (hh : t.heap = s.heap)
    (hhs : t.handles = s.handles) : ownership.Later s t where
  holds := hs.of_eq (hst ▸ rfl) hh hhs
  good h hf := (h (hh ▸ hf)).of_eq hst hh hhs
  home h hf := (h (hh ▸ hf)).of_eq hst hh hhs

theorem later_of_muted_eq (hs : s.Orderly) (hst : t.muted = s.muted) : ownership.Later s t :=
  later_of_eq hs (State.store_of_muted_eq hst) (congrArg (·.heap) hst) (congrArg (·.handles) hst)

theorem later_effect (hs : s.Orderly) {event : Event} (hevent : event.Ordinary)
    (hvalues : ownership.Values (event.effect s) event.values) :
    ownership.Later s (event.effect s) := by
  have later {t : State} (ho : t.store.objects = s.store.objects) (hh : t.heap = s.heap)
      (hhs : t.handles = s.handles)
      (hsafe : t.heap.Fits → ∀ {item}, s.Safe item → t.Safe item) : ownership.Later s t :=
    ⟨hs.of_eq ho hh hhs, fun h hf => hsafe hf (h (hh ▸ hf)), fun h hf => hsafe hf (h (hh ▸ hf))⟩
  cases event with
  | collect root r => cases hevent
  | create r o => exact ownership_later_alloc hs
  | bind id name r =>
    refine later rfl rfl rfl fun hf item h =>
      h.of_edges (fun i j _ he => ?_) fun _ => State.sound_bind
    rcases State.edge_of_edge_bind he with he | rfl
    · exact .inl he
    · exact .inr (hvalues r List.mem_cons_self hf)
  | enter id closure params =>
    refine later (Store.objects_bindParams _ _ _) rfl rfl fun hf item h =>
      h.of_edges (fun i j hi he => ?_) fun i hi => ?_
    · rcases State.edge_of_edge_bindParams he with he | ⟨r, hr, rfl⟩
      · exact .inl (State.edge_of_edge_newScope hi he)
      · exact .inr (hvalues r hr hf)
    · exact State.sound_bindParams (State.sound_newScope hi)
  | _ => exact later_of_eq hs rfl rfl rfl

structure Runs (s : State) (ms : List Moment) (t : State) : Prop where
  accounted : Accounted s ms t
  ordinary : ∀ m ∈ ms, m.event.Ordinary
  proper : ∀ m ∈ ms, ownership.Proper m

theorem Runs.rest {ms' : List Moment} {u : State} (h : Runs s (ms ++ ms') u)
    (hms : Accounted s ms t) : Runs t ms' u where
  accounted := h.accounted.rest hms
  ordinary m hm := h.ordinary m (List.mem_append_right _ hm)
  proper m hm := h.proper m (List.mem_append_right _ hm)

theorem Runs.after {before after : List Moment} {m : Moment} (h : Runs s (before ++ m :: after) t) :
    Runs m.state after t := by
  have huntil := h.accounted.until_moment
  rw [List.append_cons] at h
  exact h.rest huntil

theorem Runs.course (h : Runs s ms t) (hs : s.Orderly) :
    ((s :: ms.map Moment.state) ++ [t]).Pairwise ownership.Later := by
  have hchain := h.accounted.chain (P := State.Orderly) (R := ownership.Later) .trans
    (fun hs hst => ⟨(later_of_muted_eq hs hst).holds, later_of_muted_eq hs hst⟩) hs
    fun m hm u hu hfollows => ?_
  · exact hchain.2
  · have hproper := h.proper m hm
    have hst : (m.event.effect u).muted = m.state.muted := by
      rw [hfollows.state, Event.muted_effect]
    have hvalues : ownership.Values (m.event.effect u) m.event.values :=
      hproper.values.later (later_of_muted_eq hproper.holds hst)
    have hlater := later_effect hu (h.ordinary m hm) hvalues
    exact ⟨hlater.holds, hlater⟩

theorem Runs.safe {item : Item} (h : Runs s ms t) (hs : s.Orderly)
    (hgood : ownership.good s item) :
    ∀ u ∈ s :: (ms.map Moment.state ++ [t]), u.heap.Fits → u.Safe item := by
  intro u hu
  rcases List.mem_cons.mp hu with rfl | hu
  · exact hgood
  · exact ((List.pairwise_cons.mp (h.course hs)).1 u hu).good hgood

section Parts

variable {node : Node} (hnode : node.IsPart) (fuel : Nat) {scope : ScopeId} (hs : s.Orderly)
  (hid : ownership.home s scope)

include hnode hs hid

theorem recounts_part : ownership.Recounts scope s ownership.Value (node.record fuel scope s)
    (node.run fuel scope s) := by
  have hmirrors := Invariant.mirrors_eval ownership_stable fuel scope
  cases node with
  | program p => cases hnode
  | stmt st => exact hmirrors.stmt ownership_stable st hs hid False.elim
  | expr e => exact hmirrors e s hs hid False.elim

theorem runs_part : Runs s (node.record fuel scope s).1 (node.eval fuel scope s).2 where
  accounted := by
    rw [Node.stateOf_run]
    exact (recounts_part hnode fuel hs hid).accounted
  ordinary := node.tells_ordinary hnode fuel scope s
  proper := (recounts_part hnode fuel hs hid).proper

end Parts

structure Guards (scope : ScopeId) (m : Moment) : Prop where
  proper : ownership.Proper m
  home : ownership.home m.state scope

theorem guards_part {node : Node} (hnode : node.IsPart) (fuel : Nat) {scope : ScopeId}
    (hs : s.Orderly) (hid : ownership.home s scope) :
    ∀ m ∈ (node.record fuel scope s).1, Guards scope m := by
  intro m hm
  have hruns := runs_part hnode fuel hs hid
  have hlater := (List.pairwise_cons.mp (hruns.course hs)).1 m.state
    (List.mem_append_left _ (List.mem_map_of_mem hm))
  exact ⟨hruns.proper m hm, hlater.home hid⟩

theorem guards_statements (fuel : Nat) {scope : ScopeId} (body : List Stmt) (last : Ref)
    (hs : s.Orderly) (hid : ownership.home s scope) :
    ∀ m ∈ (Recorded.statements (Recorded.eval fuel scope) scope last body s).1,
      Guards scope m := by
  induction body generalizing s last with
  | nil => exact fun _ hm => absurd hm List.not_mem_nil
  | cons st rest ih =>
    have hcount := ownership_stable.count hs
    have hstmt := recounts_part (Node.isPart_stmt st) fuel hcount.holds (hcount.home hid)
    apply Recorded.forall_mem_bind
    · intro m hm
      rw [List.mem_singleton.mp hm]
      exact ⟨⟨hcount.holds, nofun, nofun⟩, hcount.home hid⟩
    rintro _ _ ⟨⟩
    apply Recorded.forall_mem_bind
    · exact guards_part (Node.isPart_stmt st) fuel hcount.holds (hcount.home hid)
    intro r u hu
    have hends := hstmt.ends
    rw [← hstmt.erases] at hends
    change ownership.Ends _ _ (Recorded.stmt _ _ _ _).2 at hends
    rw [hu] at hends
    obtain ⟨hu', hid', hr⟩ := ownership_survivesCollection hends.1.holds
      (hends.1.home (hcount.home hid)) hends.2
    apply Recorded.forall_mem_bind
    · intro m hm
      unfold Recorded.collectIfDue at hm
      dsimp only at hm
      split at hm
      · cases hm
      · rw [List.mem_singleton.mp hm]
        exact ⟨⟨hu', fun r' hr' => List.mem_singleton.mp hr' ▸ hr, nofun⟩, hid'⟩
    rintro _ _ ⟨⟩
    exact ih r hu' hid'

theorem guards_record (fuel : Nat) (node : Node) {scope : ScopeId} (hs : s.Orderly)
    (hid : ownership.home s scope) : ∀ m ∈ (node.record fuel scope s).1, Guards scope m := by
  cases node with
  | program p =>
    have htrace {message : Unit → Bytes} := ownership_stable.trace message hs
    apply Recorded.forall_mem_bind
    · exact fun _ hm => absurd hm List.not_mem_nil
    rintro _ _ ⟨⟩
    exact guards_statements fuel p.body .null htrace.holds (htrace.home hid)
  | stmt st => exact guards_part (Node.isPart_stmt st) fuel hs hid
  | expr e => exact guards_part (Node.isPart_expr e) fuel hs hid

theorem home_eval (fuel : Nat) (node : Node) {scope : ScopeId} (hs : s.Orderly)
    (hid : ownership.home s scope) : ownership.home (node.eval fuel scope s).2 scope := by
  have part (hnode : node.IsPart) : ownership.home (node.eval fuel scope s).2 scope := by
    rw [Node.stateOf_run]
    exact (recounts_part hnode fuel hs hid).ends.later.home hid
  cases node with
  | program p =>
    have hfinishes := ownership_stable.finishes_program ownership_survivesCollection fuel p hs hid
      False.elim
    exact (ownership_ofResult hfinishes).2.1
  | stmt st => exact part (Node.isPart_stmt st)
  | expr e => exact part (Node.isPart_expr e)

theorem good_of_ends {r : Ref} {x : EStateM.Result Abrupt State Ref}
    (h : ownership.Ends s ownership.Value x) (hx : Outcome.ofResult x = (.value r, t)) :
    t.Orderly ∧ ownership.good t (.object r) := by
  rcases x with ⟨r, t⟩ | ⟨_ | _ | _ | _, t⟩ <;> cases hx <;> exact ⟨h.1.holds, h.2⟩

/-- After the evaluation of an expression on the way, its value is in good order, and the rest of
the moments leads on from there. -/
theorem Runs.inner {before after rest : List Moment} {m : Moment} {scope : ScopeId} {e : Expr}
    {fuel : Nat} {r : Ref} {u : State} (h : Runs s (before ++ m :: after) t)
    (hm : m.event = .evaluate scope e)
    (hrest : m :: after = ((Node.expr e).record fuel scope m.state).1 ++ rest)
    (hv : (Node.expr e).eval fuel scope m.state = (.value r, u)) :
    Runs u rest t ∧ u.Orderly ∧ ownership.good u (.object r) := by
  have hproper := h.proper m (List.mem_append_right _ List.mem_cons_self)
  have hinner := recounts_part (Node.isPart_expr e) fuel hproper.holds
    (hproper.evaluated scope e hm).1
  have hfollows : m.Follows m.state := by
    constructor <;> rw [hm]
    · trivial
    · rfl
  have hstart : Runs m.state (m :: after) t :=
    ⟨⟨hfollows, h.after.accounted⟩, fun m' hm' => h.ordinary m' (List.mem_append_right _ hm'),
      fun m' hm' => h.proper m' (List.mem_append_right _ hm')⟩
  have hstate : Eval.stateOf ((Node.expr e).run fuel scope m.state) = u := by
    rw [← Node.stateOf_run, hv]
  have haccounted := hinner.accounted
  rw [hstate] at haccounted
  rw [hrest] at hstart
  exact ⟨hstart.rest haccounted, good_of_ends hinner.ends hv⟩

end ownership

/-- The items that are in use from an event on: the values that it binds, passes or gives, and the
scope of an evaluation that begins. -/
def Event.items (event : Event) : List Item :=
  event.values.map .object ++ match event with
    | .evaluate scope _ => [.scope scope]
    | _ => []

namespace Node

end Node

namespace Session

variable {threshold n : Nat} {output : Output} {log : Log} {session : Session} {s : State}
  {scope : ScopeId}

/-- A scope that is in use in a state that a session goes through: the global scope, that of an
evaluation in progress, and every scope that these lead to. -/
inductive InUse (threshold : Nat) (output : Output) (log : Log) : State → ScopeId → Prop where
  | global {v : Option Ref} {session : Session} :
    Reached threshold output log v session →
    InUse threshold output log session.state session.scope
  | moment {s : State} {scope : ScopeId} {fuel : Nat} {node : Node} {m : Moment} :
    InUse threshold output log s scope → m ∈ (node.record fuel scope s).1 →
    InUse threshold output log m.state scope
  | evaluated {s : State} {scope inner : ScopeId} {fuel : Nat} {node : Node} {m : Moment}
    {e : Expr} : InUse threshold output log s scope → m ∈ (node.record fuel scope s).1 →
    m.event = .evaluate inner e → InUse threshold output log m.state inner
  | ended {s : State} {scope : ScopeId} (fuel : Nat) (node : Node) :
    InUse threshold output log s scope →
    InUse threshold output log (node.eval fuel scope s).2 scope
  | reachable {s : State} {scope inner : ScopeId} : InUse threshold output log s scope →
    ReflTransGen (Edge s.store) (.scope scope) (.scope inner) →
    InUse threshold output log s inner

theorem InUse.passes (h : InUse threshold output log s scope) : Passes threshold output log s := by
  induction h with
  | global h => exact .reached h
  | moment _ hm ih => exact .moment ih hm
  | evaluated _ hm _ ih => exact .moment ih hm
  | ended fuel node _ ih => exact .ended fuel _ node ih
  | reachable _ _ ih => exact ih

theorem InUse.home (h : InUse threshold output log s scope) : ownership.home s scope := by
  induction h with
  | global h => exact h.owning.scope
  | @moment s scope fuel node m h hm ih =>
    exact (ownership.guards_record fuel node h.passes.tidy.toOrderly ih m hm).home
  | @evaluated s scope inner fuel node m e h hm he ih =>
    have hguards := ownership.guards_record fuel node h.passes.tidy.toOrderly ih m hm
    exact (hguards.proper.evaluated inner e he).1
  | ended fuel node h ih => exact ownership.home_eval fuel node h.passes.tidy.toOrderly ih
  | reachable _ hinner ih =>
    intro hf j hj
    exact ih hf j (hinner.trans hj)

structure Bare (s : Session) : Prop where
  scope : s.scope = ⟨0⟩
  scopes : s.state.store.scopes = #[⟨.empty, none⟩]

theorem Bare.exec (h : session.Bare) :
    (session.perform (.exec 1 lone)).2.Bare ∧
      (session.perform (.exec 1 lone)).2.state.heap =
        (session.state.heap.register session.state.handles
          ⟨session.state.store.objects.size⟩).1 := by
  have hexec : (session.perform (.exec 1 lone)).2 =
      ⟨((enterLone session.state).alloc (.error (.undefined lone))).2, session.scope⟩ := by
    change (session.exec 1 lone).2 = _
    rw [exec_of_parse parse_lone, run_lone h.scope h.scopes]
    rfl
  rw [hexec]
  exact ⟨⟨h.scope, h.scopes⟩, rfl⟩

theorem Bare.collect (h : session.Bare) :
    (session.perform .collect).2.Bare ∧
      (session.perform .collect).2.state.heap = session.state.heap.sweep.2 := by
  have hempty : (Item.scope session.scope).successors session.state.store = [] := by
    simp [Item.successors, Store.scope?, h.scope, h.scopes, Dict.values, Dict.empty]
  exact ⟨⟨h.scope, h.scopes⟩, congrArg Prod.snd (Heap.sweep_trace_scope hempty)⟩

end Session

end CornScript
