import CornScript.Proofs.Eval.Record

/-! # What can happen in a statement

Expressions and statements never collect: only a program does, between its statements. And the names
of builtins are never bound by a statement. A property of computations that passes from the parts of
a computation to the whole holds of every evaluation, by induction on its depth, and to have
ordinary events only is such a property.
-/

namespace CornScript

/-- An event that a statement may lead to: no collection, and no binding for the name of a
builtin. -/
def Event.Ordinary : Event → Prop
  | .collect _ _ => False
  | .bind _ name _ => Builtin.ofName? name = none
  | _ => True

def Event.Permitted (event : Event) : Prop :=
  event.Ordinary ∨ ∃ root r, event = .collect root r

namespace Recorded

variable {α β : Type} {P Q : Event → Prop} {x : Recorded α}

theorem forall_mem_bind {f : α → Recorded β} {s : State} {P : Moment → Prop}
    (hx : ∀ m ∈ (x s).1, P m) (hf : ∀ a t, (x s).2 = .ok a t → ∀ m ∈ (f a t).1, P m) :
    ∀ m ∈ ((x >>= f) s).1, P m := by
  intro m hm
  rcases hr : x s with ⟨ms, res⟩
  rw [hr] at hx hf
  cases res with
  | ok a t =>
    have hrun : (x >>= f) s = (ms ++ (f a t).1, (f a t).2) := by simp only [Bind.bind, hr]
    rw [hrun, List.mem_append] at hm
    exact hm.elim (hx m) (hf a t rfl m)
  | error e t =>
    have hrun : (x >>= f) s = (ms, .error e t) := by simp only [Bind.bind, hr]
    rw [hrun] at hm
    exact hx m hm

def Tells (P : Event → Prop) (x : Recorded α) : Prop :=
  ∀ s, ∀ m ∈ (x s).1, P m.event

namespace Tells

theorem mono (h : Tells P x) (hPQ : ∀ event, P event → Q event) : Tells Q x :=
  fun s m hm => hPQ m.event (h s m hm)

theorem silently (x : Eval α) : Tells P (Recorded.silently x) :=
  fun _ _ hm => absurd hm List.not_mem_nil

theorem pure (a : α) : Tells P (Pure.pure a : Recorded α) :=
  fun _ _ hm => absurd hm List.not_mem_nil

theorem bind {f : α → Recorded β} (hx : Tells P x) (hf : ∀ a, Tells P (f a)) :
    Tells P (x >>= f) :=
  fun s => forall_mem_bind (hx s) fun a t _ => hf a t

theorem note {event : Event} (h : P event) : Tells P (Recorded.note event) := by
  intro s m hm
  rw [List.mem_singleton.mp hm]
  exact h

section Changes

variable (hcreate : ∀ r o, P (.create r o)) (hwrite : ∀ line, P (.write line))

include hcreate hwrite

theorem changes {s t : State} {m : Moment} (hm : m ∈ Recorded.changes s t) : P m.event := by
  unfold Recorded.changes at hm
  split at hm
  · rw [List.mem_singleton.mp hm]
    exact hcreate _ _
  · split at hm
    · rw [List.mem_singleton.mp hm]
      exact hwrite _
    · cases hm

theorem leaf (x : Eval α) : Tells P (Recorded.leaf x) :=
  fun _ _ hm => changes hcreate hwrite hm

theorem doing {event : α → Event} {x : Eval α} (h : ∀ s a t, x s = .ok a t → P (event a)) :
    Tells P (Recorded.doing event x) := by
  intro s m hm
  unfold Recorded.doing at hm
  split at hm
  · next a t hx =>
    rw [List.mem_singleton.mp hm]
    exact h s a t hx
  · exact changes hcreate hwrite hm

end Changes

end Tells

/-- A property of recorded computations that holds of the smallest ones and of what is put together
from computations that have it. -/
structure Lawful (J : ∀ {α : Type}, Recorded α → Prop) : Prop where
  pure : ∀ {α : Type} (a : α), J (Pure.pure a : Recorded α)
  silently : ∀ {α : Type} (x : Eval α), J (Recorded.silently x)
  leaf : ∀ {α : Type} (x : Eval α), J (Recorded.leaf x)
  bind : ∀ {α β : Type} {x : Recorded α} {f : α → Recorded β}, J x → (∀ a, J (f a)) → J (x >>= f)
  count : J (doing (fun _ => .count) Eval.count)
  bindName : ∀ scope name r, J (doing (fun _ => .bind scope name r) (Eval.bind scope name r))
  enter : ∀ closure params, J (enter closure params)
  pass : ∀ args, J (note (.pass args))
  give : ∀ scope r, J (note (.give scope r))
  leave : ∀ scope r, J (note (.leave scope r))
  catchReturn : ∀ {x : Recorded Ref}, J x → J (Recorded.catchReturn x)
  traceFailure : ∀ {x : Recorded Ref} message, J x → J (Recorded.traceFailure message x)
  /-- An expression is evaluated by the computation of its kind. -/
  evaluate : ∀ {fuel scope e}, J (step (Recorded.eval fuel) scope e) →
    J (Recorded.eval (fuel + 1) scope e)

namespace Lawful

variable {J : ∀ {α : Type}, Recorded α → Prop} (hJ : Lawful @J)

section Parts

variable {ev : Expr → Recorded Ref} (hev : ∀ e, J (ev e))

include hJ hev

theorem all (es : List Expr) : J (Recorded.all ev es) := by
  induction es with
  | nil => exact hJ.pure []
  | cons e es ih => exact hJ.bind (hev e) fun r => hJ.bind ih fun rs => hJ.pure (r :: rs)

theorem pairs (count index : Nat) (ks vs : List Expr) (d : Dict Ref) :
    J (Recorded.pairs ev count index ks vs d) := by
  induction ks generalizing index vs d with
  | nil => exact hJ.pure d
  | cons k ks ih =>
    refine hJ.bind (hev k) fun key => hJ.bind (hJ.silently _) fun o => ?_
    cases o with
    | string name =>
      cases vs with
      | nil => exact hJ.silently _
      | cons v vs => exact hJ.bind (hev v) fun value => ih _ _ _
    | _ => exact hJ.leaf _

end Parts

mutual

theorem stmt {J : ∀ {α : Type}, Recorded α → Prop} (hJ : Lawful @J) {ev : Expr → Recorded Ref}
    (hev : ∀ e, J (ev e)) (scope : ScopeId) (st : Stmt) : J (Recorded.stmt ev scope st) := by
  cases st with
  | bind token target value =>
    exact hJ.bind (hJ.traceFailure _ (hev value)) fun r => hJ.bindName scope target.name r
  | give token value =>
    exact hJ.bind (hev value) fun r => hJ.bind (hJ.give scope r) fun _ => hJ.silently _
  | expr token value => exact hev value
  | block b => exact hJ.block hev scope b

theorem block {J : ∀ {α : Type}, Recorded α → Prop} (hJ : Lawful @J) {ev : Expr → Recorded Ref}
    (hev : ∀ e, J (ev e)) (scope : ScopeId) (b : Block) : J (Recorded.block ev scope b) := by
  cases b with
  | mk token body => exact hJ.runAll hev scope _ body

theorem runAll {J : ∀ {α : Type}, Recorded α → Prop} (hJ : Lawful @J) {ev : Expr → Recorded Ref}
    (hev : ∀ e, J (ev e)) (scope : ScopeId) (last : Ref) (body : List Stmt) :
    J (Recorded.runAll ev scope last body) := by
  cases body with
  | nil => exact hJ.pure last
  | cons st rest =>
    exact hJ.bind hJ.count fun _ => hJ.bind (hJ.stmt hev scope st) fun r =>
      hJ.runAll hev scope r rest

end

include hJ

section Branches

variable {ev : Expr → Recorded Ref} (hev : ∀ e, J (ev e))

include hev

theorem choose (scope : ScopeId) (condition : Expr) (consequence : Block)
    (alternative : Option Block) :
    J (Recorded.choose ev scope condition consequence alternative) := by
  refine hJ.bind (hev condition) fun r => hJ.bind (hJ.silently _) fun o => ?_
  split
  · exact hJ.bind (hJ.silently _) fun _ => hJ.block hev scope _
  · exact hJ.bind (hJ.silently _) fun _ => hJ.block hev scope _
  · exact hJ.pure _
  · exact hJ.leaf _

theorem shortCircuit (decisive : Bool) (left right : Expr) :
    J (Recorded.shortCircuit ev decisive left right) := by
  refine hJ.bind (hev left) fun l => hJ.bind (hJ.silently _) fun o => ?_
  split
  · split
    · exact hJ.pure _
    · refine hJ.bind (hev right) fun r => hJ.bind (hJ.silently _) fun o' => ?_
      split
      · exact hJ.pure _
      · exact hJ.leaf _
  · exact hJ.leaf _

end Branches

section Calls

variable {ev : ScopeId → Expr → Recorded Ref} (hev : ∀ scope e, J (ev scope e))

include hev

theorem apply (params : List Bytes) (body : Block) (closure : Option ScopeId)
    (args : List Ref) : J (Recorded.apply ev params body closure args) := by
  unfold Recorded.apply
  split
  · exact hJ.leaf _
  · refine hJ.bind (hJ.enter closure (params.zip args)) fun scope => ?_
    have hbody := hJ.catchReturn (hJ.block (hev scope) scope body)
    exact hJ.bind hbody fun r => hJ.bind (hJ.leave scope r) fun _ => hJ.pure r

theorem call (callee : Ref) (args : List Ref) : J (Recorded.call ev callee args) := by
  refine hJ.bind (hJ.pass args) fun _ => hJ.bind (hJ.silently _) fun o => ?_
  split
  · exact hJ.apply hev _ _ _ args
  · exact hJ.bind (hJ.silently _) fun _ => hJ.leaf _
  all_goals exact hJ.leaf _

theorem step (scope : ScopeId) (e : Expr) : J (Recorded.step ev scope e) := by
  cases e with
  | missing => exact hJ.silently _
  | boolean t b => exact hJ.pure _
  | null t => exact hJ.pure _
  | array t es => exact hJ.bind (hJ.all (hev scope) es) fun _ => hJ.leaf _
  | hash t ks vs => exact hJ.bind (hJ.pairs (hev scope) _ _ ks vs _) fun _ => hJ.leaf _
  | unary t op e => exact hJ.bind (hev scope e) fun _ => hJ.bind (hJ.silently _) fun _ => hJ.leaf _
  | binary t l op r =>
    have hboth : J (ev scope l >>= fun a => ev scope r >>= fun b =>
        Recorded.silently (Eval.read a) >>= fun o => Recorded.silently (Eval.read b) >>= fun o' =>
          Recorded.leaf (Eval.ofResult (op.apply o o'))) :=
      hJ.bind (hev scope l) fun _ => hJ.bind (hev scope r) fun _ =>
        hJ.bind (hJ.silently _) fun _ => hJ.bind (hJ.silently _) fun _ => hJ.leaf _
    cases op with
    | and => exact hJ.shortCircuit (hev scope) _ l r
    | or => exact hJ.shortCircuit (hev scope) _ l r
    | _ => exact hboth
  | cond t c b a => exact hJ.choose (hev scope) scope c b a
  | call t f args =>
    rw [Recorded.step]
    split
    · split
      · exact hJ.leaf _
      · exact hJ.bind (hJ.all (hev scope) args) fun _ => hJ.bind (hJ.pass _) fun _ =>
          hJ.bind (hJ.silently _) fun _ => hJ.leaf _
    · exact hJ.bind (hev scope f) fun r => hJ.bind (hJ.all (hev scope) args) fun rs =>
        hJ.call hev r rs
  | _ => exact hJ.leaf _

end Calls

theorem eval (fuel : Nat) (scope : ScopeId) (e : Expr) : J (Recorded.eval fuel scope e) := by
  induction fuel generalizing scope e with
  | zero => exact hJ.silently _
  | succ fuel ih => exact hJ.evaluate (hJ.step ih scope e)

end Lawful

open Event (Ordinary)

theorem tells_count : Tells Ordinary (doing (fun _ => .count) Eval.count) :=
  .doing (fun _ _ => trivial) (fun _ => trivial) fun _ _ _ _ => trivial

theorem tells_bind (scope : ScopeId) (name : Bytes) (r : Ref) :
    Tells Ordinary (doing (fun _ => .bind scope name r) (Eval.bind scope name r)) := by
  refine .doing (fun _ _ => trivial) (fun _ => trivial) fun s a t h => ?_
  change Builtin.ofName? name = none
  cases hname : Builtin.ofName? name with
  | none => rfl
  | some b =>
    rw [Eval.bind, if_pos (by rw [hname]; rfl)] at h
    cases h

theorem lawful_ordinary : Lawful (Tells Ordinary) where
  pure := .pure
  silently := .silently
  leaf := .leaf (fun _ _ => trivial) fun _ => trivial
  bind := .bind
  count := tells_count
  bindName := tells_bind
  enter _ _ := .doing (fun _ _ => trivial) (fun _ => trivial) fun _ _ _ _ => trivial
  pass _ := .note trivial
  give _ _ := .note trivial
  leave _ _ := .note trivial
  catchReturn hx := hx
  traceFailure _ hx := hx
  evaluate h := (Tells.note trivial).bind fun _ => h

theorem tells_statements {ev : Expr → Recorded Ref} (hev : ∀ e, Tells Ordinary (ev e))
    (scope : ScopeId) (last : Ref) (body : List Stmt) :
    Tells Event.Permitted (statements ev scope last body) := by
  have hcollect (r : Ref) : Tells Event.Permitted (collectIfDue scope r) := by
    intro s m hm
    unfold collectIfDue at hm
    dsimp only at hm
    split at hm
    · cases hm
    · rw [List.mem_singleton.mp hm]
      exact .inr ⟨scope, r, rfl⟩
  induction body generalizing last with
  | nil => exact .pure last
  | cons st rest ih =>
    refine (tells_count.mono fun _ => .inl).bind fun _ => ?_
    refine ((lawful_ordinary.stmt hev scope st).mono fun _ => .inl).bind fun r => ?_
    exact (hcollect r).bind fun _ => ih r

end Recorded

/-- A statement or an expression, which is run between two collections at most. -/
def Node.IsPart : Node → Prop
  | .program _ => False
  | .stmt _ | .expr _ => True

@[simp] theorem Node.isPart_stmt (st : Stmt) : (stmt st).IsPart :=
  trivial

@[simp] theorem Node.isPart_expr (e : Expr) : (expr e).IsPart :=
  trivial

theorem Node.tells_ordinary {node : Node} (hnode : node.IsPart) (fuel : Nat) (scope : ScopeId) :
    Recorded.Tells Event.Ordinary (node.record fuel scope) := by
  cases node with
  | program p => cases hnode
  | stmt st =>
    exact Recorded.lawful_ordinary.stmt (Recorded.lawful_ordinary.eval fuel scope) scope st
  | expr e => exact Recorded.lawful_ordinary.eval fuel scope e

/-- Whatever is run, no statement binds the name of a builtin. -/
theorem Node.tells_record (fuel : Nat) (scope : ScopeId) (node : Node) :
    Recorded.Tells Event.Permitted (node.record fuel scope) := by
  cases node with
  | program p =>
    exact (Recorded.Tells.silently _).bind fun _ =>
      Recorded.tells_statements (Recorded.lawful_ordinary.eval fuel scope) scope _ _
  | stmt st => exact (Node.tells_ordinary (isPart_stmt st) fuel scope).mono fun _ => .inl
  | expr e => exact (Node.tells_ordinary (isPart_expr e) fuel scope).mono fun _ => .inl

end CornScript
