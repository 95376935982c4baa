import CornScript.Proofs.Eval.Coupling
import CornScript.Proofs.Eval.Shadowing

/-! # Method calls are calls of builtins

A method call finds its builtin in the table of builtins. A plain call with the name of a builtin
looks for a binding first. Where there is none in view, it comes to the builtin as an object that
is there from the start and stays as it is while the arguments are evaluated. So the two calls
differ in a line of the log and in nothing else.
-/

namespace CornScript

def Coupling.muted : Coupling := .level id True False

theorem Coupling.relates_muted_iff {s t : State} :
    Coupling.muted.Relates s t ↔ t.muted = s.muted := by
  constructor
  · intro h
    have houtput : t.output = s.output := h.output
    have hstore : s.store.moved Coupling.muted.move = s.store := s.store.moved_id
    rw [h.eq_of_strict trivial, houtput, hstore]
    rfl
  · intro h
    have hstore : t.store = s.store.moved Coupling.muted.move :=
      (State.store_of_muted_eq h).trans s.store.moved_id.symm
    have field {β : Type} (f : State → β) : f t.muted = f s.muted := congrArg f h
    exact ⟨hstore, State.output_of_muted_eq h, fun _ => field State.heap,
      fun _ => field State.handles, fun _ => field State.statements,
      fun _ => field State.threshold, fun _ => False.elim⟩

namespace Eval

variable {α : Type}

inductive Alike : EStateM.Result Abrupt State α → EStateM.Result Abrupt State α → Prop where
  | ok {a : α} {s t : State} : t.muted = s.muted → Alike (.ok a s) (.ok a t)
  | error {e : Abrupt} {s t : State} : t.muted = s.muted → Alike (.error e s) (.error e t)

def Exhausted (x : EStateM.Result Abrupt State α) : Prop :=
  ∃ t, x = .error .outOfFuel t

variable {s t : State} {x y : EStateM.Result Abrupt State α}

theorem Alike.of_sameEnd (h : SameEnd Coupling.muted x y) : Alike x y := by
  cases h with
  | ok h => exact .ok (Coupling.relates_muted_iff.mp h)
  | error h => exact .error (Coupling.relates_muted_iff.mp h)
  | outOfFuel hs => exact absurd trivial hs
  | full hr => exact hr.elim

theorem Alike.exhausted_iff (h : Alike x y) : Exhausted x ↔ Exhausted y := by
  cases h with
  | ok => simp [Exhausted]
  | error => simp [Exhausted]

theorem alike_builtin (b : Builtin) (args : List Ref) (h : t.muted = s.muted) :
    Alike (b.run args s) (b.run args t) :=
  .of_sameEnd ((Follows.builtin b args).ends (Coupling.relates_muted_iff.mpr h))

end Eval

open Eval (Alike Exhausted)

/-- Two expressions do the same in a scope: with each bound on the depth they end alike, and either
no bound is large enough for either of them, or both come to an end. -/
structure Expr.Equivalent (e e' : Expr) (scope : ScopeId) (s : State) : Prop where
  bounded : ∀ fuel, Alike (Expr.eval fuel scope e s) (Expr.eval fuel scope e' s)
  unbounded :
    (∀ fuel, Exhausted (Expr.eval fuel scope e s) ∧ Exhausted (Expr.eval fuel scope e' s)) ∨
    ∃ fuel, ¬ Exhausted (Expr.eval fuel scope e s) ∧ ¬ Exhausted (Expr.eval fuel scope e' s)

theorem Expr.Equivalent.of_alike {e e' : Expr} {scope : ScopeId} {s : State}
    (h : ∀ fuel, Alike (Expr.eval fuel scope e s) (Expr.eval fuel scope e' s)) :
    Expr.Equivalent e e' scope s := by
  refine ⟨h, ?_⟩
  by_cases hall : ∀ fuel, Exhausted (Expr.eval fuel scope e s)
  · exact .inl fun fuel => ⟨hall fuel, (h fuel).exhausted_iff.mp (hall fuel)⟩
  · obtain ⟨fuel, hfuel⟩ := not_forall.mp hall
    exact .inr ⟨fuel, hfuel, fun hx => hfuel ((h fuel).exhausted_iff.mpr hx)⟩

section MethodCall

variable {fuel : Nat} {scope : ScopeId} {s : State} {b : Builtin} {dot paren : Token}
  {id id' : Ident} {args : List Expr}

theorem Eval.identifier_builtin (hfree : s.store.lookup scope b.name = none) :
    Eval.identifier scope b.name s = .ok (.ofBuiltin b) s := by
  have hrun (f : State → Eval Ref) : (get >>= f : Eval Ref) s = f s s := rfl
  rw [Eval.identifier, hrun, hfree, b.ofName?_name]
  rfl

theorem Expr.step_method {ev : ScopeId → Expr → Eval Ref} (hdot : dot.kind = .dot)
    (hid : id.name = b.name) : Expr.step ev scope (.call dot (.ident id) args) = (do
      let rs ← Eval.all (ev scope) args
      Eval.trace fun _ => text "call builtin " ++ b.name ++ text " as method with " ++
        Bytes.ofNat rs.length ++ text " args"
      b.run rs) := by
  rw [Expr.step, if_pos hdot, Expr.print, hid, b.ofName?_name]

theorem Expr.step_paren {ev : ScopeId → Expr → Eval Ref} (hparen : paren.kind ≠ .dot) :
    Expr.step ev scope (.call paren (.ident id) args) = (do
      let callee ← ev scope (.ident id)
      let rs ← Eval.all (ev scope) args
      Eval.call ev callee rs) := by
  rw [Expr.step, if_neg hparen]

theorem Store.get_ofBuiltin (hs : s.Furnished) (b : Builtin) :
    s.store.get (.ofBuiltin b) = .builtin b := by
  rw [hs.get_eq (.ofBuiltin b) (by cases b <;> decide)]
  cases b <;> rfl

theorem Eval.call_builtin (hs : s.Furnished) (ev : ScopeId → Expr → Eval Ref) (rs : List Ref) :
    Eval.call ev (.ofBuiltin b) rs s = b.run rs (s.trace fun _ =>
      text "call builtin " ++ b.name ++ text " with " ++ Bytes.ofNat rs.length ++
        text " args") := by
  rw [Eval.call, Eval.bind_read, Store.get_ofBuiltin hs b]
  rfl

/-- Both calls find the builtin, evaluate the same arguments and run it on their values. -/
theorem Expr.alike_method (hs : discipline.holds s) (hfree : s.store.lookup scope b.name = none)
    (hdot : dot.kind = .dot) (hparen : paren.kind ≠ .dot) (hid : id.name = b.name)
    (hid' : id'.name = b.name) (x : Expr) (fuel : Nat) :
    Alike (Expr.eval fuel scope (.call dot (.ident id) (x :: args)) s)
      (Expr.eval fuel scope (.call paren (.ident id') (x :: args)) s) := by
  cases fuel with
  | zero => exact .error rfl
  | succ fuel =>
    rw [Expr.eval, step_method hdot hid, step_paren hparen]
    cases fuel with
    | zero =>
      -- Too deep for the callee is too deep for the receiver, which every call has.
      exact .error rfl
    | succ fuel =>
      have hcallee : Expr.eval (fuel + 1) scope (.ident id') s = .ok (.ofBuiltin b) s := by
        rw [Expr.eval, Expr.step, hid']
        exact Eval.identifier_builtin hfree
      have hends := (discipline.stable.keeps_eval (fuel + 1) scope).ends_all (x :: args) hs trivial
        fun h => h.elim
      simp only [Bind.bind, EStateM.bind, hcallee]
      cases hall : Eval.all (Expr.eval (fuel + 1) scope) (x :: args) s with
      | error e u => exact .error rfl
      | ok rs u =>
        rw [hall] at hends
        dsimp only
        rw [Eval.call_builtin hends.1.holds.1]
        exact Eval.alike_builtin b rs rfl

end MethodCall

namespace Session

variable {threshold : Nat} {output : Output} {log : Log} {ms : List Moment} {s : Session}

structure KeepsBuiltins (ms : List Moment) (s : Session) : Prop where
  /-- They are not bound in the global scope. -/
  global : ∃ sc, s.state.store.scope? s.scope = some sc ∧
    ∀ b : Builtin, sc.bindings.get? b.name = none
  /-- A scope that binds one was opened by a call that it is a parameter of. -/
  parameter : ∀ {id sc r} (b : Builtin), s.state.store.scope? id = some sc →
    sc.bindings.get? b.name = some r → Opened ms id b.name r
  /-- Where no scope around binds it, a method call is a call of the builtin with the receiver as
  the first argument. -/
  method : ∀ {scope : ScopeId} {b : Builtin} {dot paren : Token} {id id' : Ident} (x : Expr)
    (args : List Expr), s.state.store.lookup scope b.name = none → dot.kind = .dot →
    paren.kind = .leftParen → id.name = b.name → id'.name = b.name →
    Expr.Equivalent (.call dot (.ident id) (x :: args)) (.call paren (.ident id') (x :: args)) scope
      s.state

/-- Whatever has happened in a session, builtins are shadowed by parameters only, and where they are
not, method calls are calls of builtins. -/
theorem Journal.keepsBuiltins (h : Journal threshold output log ms s) : KeepsBuiltins ms s where
  global := by
    have hlt := Nat.not_le.mp h.parametric.rooted
    exact ⟨_, Array.getElem?_eq_getElem hlt, fun b =>
      h.parametric.global b (Array.getElem?_eq_getElem hlt)⟩
  parameter := h.parametric.opened
  method x args hfree hdot hparen hid hid' :=
    .of_alike (Expr.alike_method h.holds_discipline hfree hdot (hparen ▸ nofun) hid hid' x)

def shadowText : Bytes :=
  text "let f = fn(size) \x7b fn() \x7b 'ab'.size() \x7d \x7d; let g = f('x')"

def shadowing : Session :=
  ((Session.new 1 .unlimited (.start .info)).perform (.exec 20 shadowText)).2

theorem lookup_shadowing :
    (shadowing.state.store.scope? ⟨1⟩).bind (·.bindings.get? Builtin.size.name) = some ⟨8⟩ ∧
      shadowing.state.store.lookup ⟨1⟩ Builtin.push.name = none := by
  constructor <;> cbv

def shadowingMoments : List Moment :=
  (Session.new 1 .unlimited (.start .info)).moments (.exec 20 shadowText)

theorem Journal.keepsBuiltins_shadowing :
    Journal 1 .unlimited (.start .info) shadowingMoments shadowing ∧
      KeepsBuiltins shadowingMoments shadowing ∧
      (shadowing.state.store.scope? ⟨1⟩).bind (·.bindings.get? Builtin.size.name) = some ⟨8⟩ ∧
      shadowing.state.store.lookup ⟨1⟩ Builtin.push.name = none := by
  have h : Journal 1 .unlimited (.start .info) ([] ++ shadowingMoments) shadowing := .perform _ .new
  rw [List.nil_append] at h
  exact ⟨h, h.keepsBuiltins, lookup_shadowing⟩

end Session

end CornScript
