import CornScript.Proofs.Eval.Faithful
import CornScript.Proofs.Eval.Ownership

/-! # Errors are no values

An error is created only in order to fail with it, so it is the result of exactly the evaluations
that fail. No scope binds an error, no container holds one and no call is passed one, in any state
that a session goes through. A return ends the innermost open call, or the program if no call is
open.
-/

namespace CornScript

open Heap (Item Part Edge)

namespace Invariant

variable {I : Invariant} {s : State}

theorem Ends.later {α : Type} {P : State → α → Prop} {x : EStateM.Result Abrupt State α}
    (h : I.Ends s P x) : I.Later s (Eval.stateOf x) := by
  cases x with
  | ok a t => exact h.1
  | error e t => exact h.1

/-- An invariant of the store that allows every tree to be run in every scope. -/
structure Universal (I : Invariant) : Prop where
  stable : I.Stable
  store : ∀ {s t}, I.holds s → t.store = s.store → I.Later s t
  home : ∀ {s} id, I.holds s → I.home s id
  lax : ¬ I.strict

theorem Universal.recounts (hI : I.Universal) (hs : I.holds s) (fuel : Nat) (scope : ScopeId)
    (node : Node) :
    I.Recounts scope s I.Value (node.record fuel scope s) (node.run fuel scope s) :=
  recounts_node hI.stable (fun _ _ hs => hI.store hs (State.store_collectIfDue _ _ _)) fuel node hs
    (hI.home scope hs) fun h => absurd h hI.lax

end Invariant

namespace State

variable {s s' : State} {i : Item} {r r' : Ref} {o : Object}

def IsValue (s : State) (r : Ref) : Prop :=
  r.index < s.store.objects.size ∧ (s.store.get r).kind ≠ .error

def Sane (s : State) : Prop :=
  ∀ i r, Edge s.store i (.object r) → s.IsValue r

theorem kind_initial :
    ∀ i : Fin Store.initial.objects.size, (Store.initial.get ⟨i⟩).kind ≠ .error := by
  decide

theorem Furnished.isValue (h : s.Furnished) (hr : r.index < Store.initial.objects.size) :
    s.IsValue r := by
  refine ⟨hr.trans_le h.size_le, ?_⟩
  rw [h.get_eq r hr]
  exact kind_initial ⟨r.index, hr⟩

theorem Furnished.alloc (h : s.Furnished) : (s.alloc o).2.Furnished := by
  refine ⟨?_, fun r hr => ?_⟩
  · change _ ≤ (s.store.objects.push o).size
    rw [Array.size_push]
    exact Nat.le_succ_of_le h.size_le
  · rw [← h.get_eq r hr]
    exact (s.store.get_alloc o r).trans (if_neg (Nat.ne_of_lt (hr.trans_le h.size_le)))

theorem get_alloc_self : (s.alloc o).2.store.get (s.alloc o).1 = o :=
  (s.store.get_alloc o _).trans (if_pos rfl)

theorem IsValue.alloc (h : s.IsValue r) : (s.alloc o).2.IsValue r := by
  obtain ⟨hlt, hkind⟩ := h
  refine ⟨?_, ?_⟩
  · change r.index < (s.store.objects.push o).size
    rw [Array.size_push]
    exact Nat.lt_succ_of_lt hlt
  · have hget : (s.alloc o).2.store.get r = s.store.get r :=
      (s.store.get_alloc o r).trans (if_neg (Nat.ne_of_lt hlt))
    rwa [hget]

theorem Sane.alloc (h : s.Sane) (hp : ∀ r, Part o (.object r) → s.IsValue r) :
    (s.alloc o).2.Sane := by
  intro i r he
  apply IsValue.alloc
  cases he with
  | @part r₀ _ hpart =>
    have hget := s.store.get_alloc o r₀
    change Part ((s.store.alloc o).2.get r₀) (.object r) at hpart
    rw [hget] at hpart
    split at hpart
    · exact hp r hpart
    · exact h _ _ (.part hpart)
  | binding hsc hk => exact h _ _ (.binding hsc hk)

theorem Sane.bind {id : ScopeId} {name : Bytes} (h : s.Sane) (hr : s.IsValue r) :
    Sane { s with store := s.store.bind id name r } := by
  intro i r' he
  rcases edge_of_edge_bind he with he | heq
  · exact h i r' he
  · cases heq
    exact hr

theorem sane_initial {threshold : Nat} {output : Output} {log : Log} :
    Sane (.initial threshold output log) := by
  intro i r he
  cases he with
  | @part r₀ _ hp =>
    have hmanaged : (Store.initial.get r₀).isManaged = true := Heap.isManaged_of_part hp
    rw [isManaged_get_initial] at hmanaged
    cases hmanaged
  | binding hsc _ => cases hsc

theorem Sane.newScope {closure : Option ScopeId} (h : s.Sane) :
    Sane { s with store := (s.store.newScope closure).2 } := by
  intro i r he
  have hold : s.IsValue r := by
    cases he with
    | part hpart => exact h _ _ (.part hpart)
    | binding hsc hk =>
      change (s.store.newScope closure).2.scope? _ = _ at hsc
      rw [Store.scope?_newScope] at hsc
      split at hsc
      · cases hsc
        cases hk
      · exact h _ _ (.binding hsc hk)
  exact hold

end State

/-- Values are not errors, and what an evaluation fails with is one. -/
def discipline : Invariant where
  holds s := s.Furnished ∧ s.Sane
  good s
    | .object r => s.IsValue r
    | .scope _ => True
  home _ _ := True
  failed s r := (s.store.get r).kind = .error
  strict := False

namespace discipline

variable {s s' : State} {o : Object}

theorem later_of_store_eq (h : discipline.holds s) (hst : s'.store = s.store) :
    discipline.Later s s' := by
  have hvalue (r : Ref) : s'.IsValue r ↔ s.IsValue r := by rw [State.IsValue, State.IsValue, hst]
  refine ⟨⟨⟨hst ▸ h.1.size_le, fun r hr => hst ▸ h.1.get_eq r hr⟩, fun i r he => ?_⟩, ?_, id⟩
  · exact (hvalue r).mpr (h.2 i r (hst ▸ he))
  · intro item hitem
    cases item with
    | object r => exact (hvalue r).mpr hitem
    | scope id => trivial

theorem later_alloc (h : discipline.holds s) (hp : ∀ r, Part o (.object r) → s.IsValue r) :
    discipline.Later s (s.alloc o).2 := by
  refine ⟨⟨h.1.alloc, h.2.alloc hp⟩, ?_, id⟩
  intro item hitem
  cases item with
  | object r => exact State.IsValue.alloc hitem
  | scope id => trivial

theorem stable : discipline.Stable where
  boolean h b := h.1.isValue (by cases b <;> decide)
  null h := h.1.isValue (by decide)
  builtin h b := h.1.isValue (by cases b <;> decide)
  edge := by
    intro s i j h _ he
    cases j with
    | object r => exact h.2 i r he
    | scope id => trivial
  scope _ := trivial
  body _ _ _ h := h.elim
  alloc := by
    intro s o h ho
    refine ⟨later_alloc h fun r hr => ho.part hr, ?_, ?_⟩
    · change s.store.objects.size < (s.store.objects.push o).size
      rw [Array.size_push]
      exact Nat.lt_succ_self _
    · rw [State.get_alloc_self]
      exact ho.not_error
  fail := by
    intro s e h
    refine ⟨later_alloc h nofun, ?_⟩
    change ((s.alloc (.error e)).2.store.get _).kind = .error
    rw [State.get_alloc_self]
    rfl
  bind := by
    intro s scope r name h _ hr
    refine ⟨⟨⟨h.1.size_le, h.1.get_eq⟩, h.2.bind hr⟩, ?_, id⟩
    intro item hitem
    cases item with
    | object r => exact hitem
    | scope id => trivial
  newScope := by
    intro s r params body closure h _ _
    refine ⟨⟨⟨⟨h.1.size_le, h.1.get_eq⟩, h.2.newScope⟩, ?_, id⟩, trivial⟩
    intro item hitem
    cases item with
    | object r => exact hitem
    | scope id => trivial
  count h := later_of_store_eq h rfl
  trace _ h := later_of_store_eq h rfl
  failed_trace _ h := h
  write h _ := later_of_store_eq h rfl

theorem universal : discipline.Universal where
  stable := stable
  store := later_of_store_eq
  home _ _ := trivial
  lax := id

end discipline

theorem discipline.recounts {s : State} (hs : discipline.holds s) (fuel : Nat) (scope : ScopeId)
    (node : Node) :
    discipline.Recounts scope s discipline.Value (node.record fuel scope s)
      (node.run fuel scope s) :=
  universal.recounts hs fuel scope node

structure State.HoldsNoError (s : State) : Prop where
  binding : ∀ {id sc name r}, s.store.scope? id = some sc → sc.bindings.get? name = some r →
    (s.store.get r).kind ≠ .error
  element : ∀ {a elements r}, s.store.get a = .array elements → r ∈ elements →
    (s.store.get r).kind ≠ .error
  value : ∀ {d pairs name r}, s.store.get d = .hash pairs → pairs.get? name = some r →
    (s.store.get r).kind ≠ .error

theorem State.Sane.holdsNoError {s : State} (h : s.Sane) : s.HoldsNoError where
  binding hsc hk := (h _ _ (.binding hsc hk)).2
  element {a _ _} ha hm := (h (.object a) _ (.part (by rw [ha]; exact .element hm))).2
  value {d _ _ _} hd hk := (h (.object d) _ (.part (by rw [hd]; exact .value hk))).2

section Calls

variable {fuel : Nat} {scope : ScopeId} {s t : State} {r : Ref}

def Eval.Stays {α : Type} (x : EStateM.Result Abrupt State α) : Prop :=
  ∀ r t, x ≠ .error (.returning r) t

theorem Eval.Brief.stays {α : Type} {x : EStateM.Result Abrupt State α} (h : Eval.Brief s x) :
    Eval.Stays x := by
  intro r t hx
  cases h <;> cases hx

theorem Eval.stays_apply (ev : ScopeId → Expr → Eval Ref) (params : List Bytes) (body : Block)
    (closure : Option ScopeId) (args : List Ref) (s : State) :
    Eval.Stays (Eval.apply ev params body closure args s) := by
  unfold Eval.apply
  split
  · exact (Eval.Brief.fail _).stays
  · intro r t h
    exact (Eval.catchReturn_eq_error h).2 r rfl

theorem Eval.stays_call (ev : ScopeId → Expr → Eval Ref) (callee : Ref) (args : List Ref)
    (s : State) : Eval.Stays (Eval.call ev callee args s) := by
  have read {f : Object → Eval Ref} (h : ∀ o, Eval.Stays (f o s)) :
      Eval.Stays ((Eval.read callee >>= f) s) := h _
  apply read
  intro o
  cases o with
  | function params body closure => exact Eval.stays_apply ev params body closure args s
  | builtin b => exact (Eval.Brief.builtin b args).stays
  | array elements => exact (Eval.Brief.element elements args).stays
  | string b => exact (Eval.Brief.byteAt b args).stays
  | hash pairs => exact (Eval.Brief.entry pairs args).stays
  | _ => exact (Eval.Brief.fail _).stays

/-- What has to be evaluated before a call takes place. The callee of a method call is a name. -/
def Expr.operands (token : Token) (callee : Expr) (args : List Expr) : List Expr :=
  if token.kind = .dot then args else callee :: args

theorem Eval.bind_eq_error {α β : Type} {x : Eval α} {f : α → Eval β} {e : Abrupt}
    (h : (x >>= f) s = .error e t) :
    x s = .error e t ∨ ∃ a u, x s = .ok a u ∧ f a u = .error e t := by
  change EStateM.bind x f s = _ at h
  unfold EStateM.bind at h
  split at h
  · next a u hx => exact .inr ⟨a, u, hx, h⟩
  · next e' u hx =>
    cases h
    exact .inl hx

theorem Expr.returning_call {token : Token} {callee : Expr} {args : List Expr}
    (h : Expr.eval (fuel + 1) scope (.call token callee args) s = .error (.returning r) t) :
    Eval.all (Expr.eval fuel scope) (operands token callee args) s =
      .error (.returning r) t := by
  by_cases hdot : token.kind = .dot
  · -- A method call: the builtin is found before the arguments are evaluated.
    rw [operands, if_pos hdot]
    rw [Expr.eval, Expr.step, if_pos hdot] at h
    cases hb : Builtin.ofName? callee.print with
    | none =>
      rw [hb] at h
      exact absurd h ((Eval.Brief.fail _).stays r t)
    | some b =>
      rw [hb] at h
      rcases Eval.bind_eq_error h with h | ⟨rs, u, -, h⟩
      · exact h
      · exact absurd h ((Eval.Brief.builtin b rs).stays r t)
  · rw [operands, if_neg hdot]
    rw [Expr.eval, Expr.step, if_neg hdot] at h
    rcases Eval.bind_eq_error h with h | ⟨c, u, hc, h⟩
    · simp only [Eval.all, Bind.bind, EStateM.bind, h]
    · rcases Eval.bind_eq_error h with h | ⟨rs, v, -, h⟩
      · simp only [Eval.all, Bind.bind, EStateM.bind, hc, h]
      · exact absurd h (Eval.stays_call _ c rs v r t)

structure Eval.Encloses (fuel : Nat) : Prop where
  apply : ∀ params body closure args s,
    Eval.Stays (Eval.apply (Expr.eval fuel) params body closure args s)
  builtin : ∀ (b : Builtin) args s, Eval.Stays (b.run args s)
  call : ∀ scope token callee args s r t,
    Expr.eval (fuel + 1) scope (.call token callee args) s = .error (.returning r) t →
      Eval.all (Expr.eval fuel scope) (Expr.operands token callee args) s =
        .error (.returning r) t

theorem Eval.encloses (fuel : Nat) : Eval.Encloses fuel where
  apply := Eval.stays_apply _
  builtin b args _ := (Eval.Brief.builtin b args).stays
  call _ _ _ _ _ _ _ := Expr.returning_call

end Calls

inductive Finish where
  | normal
  | returning
  | failed
  deriving DecidableEq, Repr

namespace Node

/-- How a tree finishes, and with which object. A program catches a return as a call does. -/
def finish? (node : Node) : EStateM.Result Abrupt State Ref → Option (Finish × Ref)
  | .ok r _ => some (.normal, r)
  | .error (.returning r) _ => match node with
    | .program _ => some (.normal, r)
    | .stmt _ | .expr _ => some (.returning, r)
  | .error (.failed r) _ => some (.failed, r)
  | .error (.defect _) _ | .error .outOfFuel _ => none

variable {fuel : Nat} {scope : ScopeId} {node : Node} {s : State}

theorem stateOf_run : (node.eval fuel scope s).2 = Eval.stateOf (node.run fuel scope s) := by
  unfold Node.eval
  rcases node.run fuel scope s with _ | _ | _ | _ | _ <;> rfl

theorem value?_eval :
    (node.eval fuel scope s).1.value? =
      (node.finish? (node.run fuel scope s)).map Prod.snd := by
  unfold Node.eval
  rcases node.run fuel scope s with _ | _ | _ | _ | _ <;> cases node <;> rfl

/-- A tree is evaluated so that errors and returns are kept apart from values. -/
structure Disciplined (node : Node) (fuel : Nat) (scope : ScopeId) (s : State) : Prop where
  value : (node.eval fuel scope s).1.value? =
    (node.finish? (node.run fuel scope s)).map Prod.snd
  kind : ∀ kind r, node.finish? (node.run fuel scope s) = some (kind, r) →
    (kind = .failed ↔ ((node.eval fuel scope s).2.store.get r).kind = .error)
  before : s.HoldsNoError
  after : (node.eval fuel scope s).2.HoldsNoError
  /-- The moments on the way are those of this very evaluation. -/
  erases : (node.record fuel scope s).2 = node.run fuel scope s
  accounted : Accounted s (node.record fuel scope s).1 (node.eval fuel scope s).2
  between : ∀ m ∈ (node.record fuel scope s).1, m.state.HoldsNoError
  passed : ∀ m ∈ (node.record fuel scope s).1, ∀ r ∈ m.event.values,
    (m.state.store.get r).kind ≠ .error
  encloses : Eval.Encloses fuel
  /-- A return ends the innermost open call, or else the whole evaluation. -/
  unwinds : Mode.Suits scope [] (Mode.run (.running scope []) (node.record fuel scope s).1)
    (node.run fuel scope s)

theorem kind_of_ends {x : EStateM.Result Abrupt State Ref} {kind : Finish} {r : Ref}
    (h : discipline.Ends s discipline.Value x) (hf : node.finish? x = some (kind, r)) :
    kind = .failed ↔ ((Eval.stateOf x).store.get r).kind = .error := by
  have value {k : Finish} {u : State} (hk : k ≠ .failed) (hr : u.IsValue r) :
      k = .failed ↔ (u.store.get r).kind = .error :=
    ⟨fun he => absurd he hk, fun he => absurd he hr.2⟩
  cases x with
  | ok r' t =>
    cases hf
    exact value nofun h.2
  | error e t =>
    cases e with
    | returning r' =>
      cases node <;> cases hf <;> exact value nofun h.2
    | failed r' =>
      cases hf
      exact ⟨fun _ => h.2, fun _ => rfl⟩
    | defect d => cases hf
    | outOfFuel => cases hf

theorem disciplined_of_holds (fuel : Nat) (scope : ScopeId) (node : Node)
    (hs : discipline.holds s) : node.Disciplined fuel scope s := by
  have h := discipline.recounts hs fuel scope node
  constructor
  case value => exact value?_eval
  case kind =>
    intro kind r hf
    rw [stateOf_run]
    exact kind_of_ends h.ends hf
  case before => exact hs.2.holdsNoError
  case after =>
    rw [stateOf_run]
    exact h.ends.later.holds.2.holdsNoError
  case erases => exact h.erases
  case accounted =>
    rw [stateOf_run]
    exact h.accounted
  case between =>
    intro m hm
    exact (h.proper m hm).holds.2.holdsNoError
  case passed =>
    intro m hm r hr
    exact ((h.proper m hm).values r hr).2
  case encloses => exact Eval.encloses fuel
  case unwinds => exact h.monitored []

end Node

namespace Session

variable {threshold : Nat} {output : Output} {log : Log} {v : Option Ref} {s : State}

/-- A state that a session goes through: between its acts, and in the course and at the end of the
evaluation of a tree. -/
inductive Passes (threshold : Nat) (output : Output) (log : Log) : State → Prop where
  | reached {v : Option Ref} {session : Session} :
    Reached threshold output log v session → Passes threshold output log session.state
  | moment {s : State} {fuel : Nat} {scope : ScopeId} {node : Node} {m : Moment} :
    Passes threshold output log s → m ∈ (node.record fuel scope s).1 →
    Passes threshold output log m.state
  | ended {s : State} (fuel : Nat) (scope : ScopeId) (node : Node) :
    Passes threshold output log s → Passes threshold output log (node.eval fuel scope s).2

end Session

namespace Invariant.Universal

open Session (Act Reached Passes)

variable {I : Invariant} (hI : I.Universal) {threshold : Nat} {output : Output} {log : Log}
  {v : Option Ref} {s : State}

include hI

theorem holds_eval (hs : I.holds s) (fuel : Nat) (scope : ScopeId) (node : Node) :
    I.holds (node.eval fuel scope s).2 := by
  rw [Node.stateOf_run]
  exact (hI.recounts hs fuel scope node).ends.later.holds

theorem holds_perform {session : Session} (hs : I.holds session.state) (act : Act) :
    I.holds (session.perform act).2.state := by
  cases act with
  | exec fuel source =>
    change I.holds (session.exec fuel source).2.state
    unfold Session.exec
    cases Program.parse source with
    | error e =>
      apply Later.holds (hI.store hs _)
      rfl
    | ok p => exact hI.holds_eval hs fuel session.scope (.program p)
  | collect =>
    apply Later.holds (hI.store hs _)
    rfl

variable (hnew : I.holds (Session.new threshold output log).state)

include hnew

theorem reached {session : Session} (h : Reached threshold output log v session) :
    I.holds session.state := by
  induction h with
  | new => exact hnew
  | perform act _ ih => exact hI.holds_perform ih act

theorem passes (h : Passes threshold output log s) : I.holds s := by
  induction h with
  | reached h => exact hI.reached hnew h
  | moment _ hm ih => exact ((hI.recounts ih _ _ _).proper _ hm).holds
  | ended fuel scope node _ ih => exact hI.holds_eval ih fuel scope node

end Invariant.Universal

namespace Session

variable {threshold : Nat} {output : Output} {log : Log} {v : Option Ref} {s : State}

theorem discipline_new : discipline.holds (Session.new threshold output log).state :=
  ⟨⟨Nat.le_refl _, fun _ _ => rfl⟩, State.sane_initial.newScope⟩

theorem discipline_passes (h : Passes threshold output log s) : discipline.holds s :=
  discipline.universal.passes discipline_new h

/-- In every state that a session goes through, every tree is evaluated so that errors and returns
are kept apart from values. -/
theorem Passes.disciplined (h : Passes threshold output log s) (fuel : Nat) (scope : ScopeId)
    (node : Node) : node.Disciplined fuel scope s :=
  Node.disciplined_of_holds fuel scope node (discipline_passes h)

theorem exists_parse_of_exec {session : Session} {fuel : Nat} {source : Bytes} {outcome : Outcome}
    (h : (session.exec fuel source).1 = .finished outcome) :
    ∃ p, Program.parse source = .ok p ∧
      (Node.program p).eval fuel session.scope session.state =
        (outcome, (session.exec fuel source).2.state) := by
  unfold Session.exec at h ⊢
  cases hp : Program.parse source with
  | error e =>
    rw [hp] at h
    cases h
  | ok p =>
    rw [hp] at h
    cases h
    exact ⟨p, rfl, rfl⟩

def bindEarly : Bytes := text "let f = fn(x) \x7b if (x) \x7b return [x] \x7d; 'no' \x7d"

def callEarly : Bytes := text "let a = f(true); push(a, f(y))"

def early : Session :=
  ((Session.new 1 .unlimited (.start .info)).perform (.exec 20 bindEarly)).2

theorem answer_callEarly : (early.exec 20 callEarly).1 = .finished (.value ⟨9⟩) := by
  cbv

theorem Passes.disciplined_early :
    Passes 1 .unlimited (.start .info) early.state ∧ ∃ p t, Program.parse callEarly = .ok p ∧
      (Node.program p).eval 20 early.scope early.state = (.value ⟨9⟩, t) ∧
      (Node.program p).Disciplined 20 early.scope early.state := by
  have h : Passes 1 .unlimited (.start .info) early.state := .reached (.perform _ .new)
  obtain ⟨p, hp, hv⟩ := exists_parse_of_exec answer_callEarly
  exact ⟨h, p, _, hp, hv, h.disciplined 20 early.scope (.program p)⟩

end Session

end CornScript
