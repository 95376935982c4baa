import CornScript.Proofs.Eval.Creation
import CornScript.Proofs.Parser.WellFormed

/-! # Programs that parse run safely

A program that was parsed is well-formed, and so are the bodies of all functions that a session
keeps from the programs before it. So wherever its evaluation comes to, there is an expression to
evaluate, an operator with a rule, a value for every key, and an object for every reference. The
only other way that it can end is that the bound on its depth is used up.
-/

namespace CornScript

open Heap (Item Edge)

def Expr.HasRule : Expr → Prop
  | .unary _ op _ => ∀ o symbol, op.apply o ≠ .error (.unknownOperator symbol)
  | .binary _ _ .and _ | .binary _ _ .or _ => True
  | .binary _ _ op _ => ∀ l r symbol, op.onNumbers l r ≠ .error (.unknownOperator symbol)
  | _ => True

theorem UnaryOp.Known.apply_ne {op : UnaryOp} (h : op.Known) (o : Object) (symbol : Bytes) :
    op.apply o ≠ .error (.unknownOperator symbol) := by
  cases h <;> cases o <;> simp [apply]

theorem BinaryOp.Known.onNumbers_ne {op : BinaryOp} (h : op.Known) (hand : op ≠ .and)
    (hor : op ≠ .or) (l r : Float) (symbol : Bytes) :
    op.onNumbers l r ≠ .error (.unknownOperator symbol) := by
  cases op with
  | and => exact absurd rfl hand
  | or => exact absurd rfl hor
  | other s => simp [Known, all] at h
  | div =>
    rw [onNumbers]
    split <;> simp
  | _ => simp [onNumbers]

theorem Expr.WellFormed.hasRule {e : Expr} (h : e.WellFormed) : e.HasRule := by
  cases h with
  | unary hop _ => exact hop.apply_ne
  | @binary _ _ op _ hop _ _ =>
    cases op with
    | and | or => trivial
    | _ => exact hop.onNumbers_ne nofun nofun
  | _ => trivial

theorem Object.lt_of_offset {o : Object} {length i : Nat} (h : o.offset length = .ok i) :
    i < length := by
  unfold offset at h
  split at h
  · split at h
    · cases h
    · cases h
    · split at h
      · cases h
      · split at h
        · next hlt =>
          cases h
          simp only [Bool.and_eq_true, decide_eq_true_eq] at hlt
          exact hlt.1
        · cases h
  · cases h

theorem Eval.get_of_alloc {o : Object} {r : Ref} {s t : State} (h : Eval.alloc o s = .ok r t) :
    t.store.get r = o := by
  have hok : Eval.alloc o s = .ok (s.alloc o).1 (s.alloc o).2 := rfl
  rw [hok] at h
  obtain ⟨rfl, rfl⟩ := EStateM.Result.ok.inj h
  exact State.get_alloc_self

structure Eval.InBounds (s : State) : Prop where
  element : ∀ {elements args r t}, Eval.element elements args s = .ok r t →
    ∃ arg i, args = [arg] ∧ (s.store.get arg).offset elements.length = .ok i ∧
      elements[i]? = some r
  byteAt : ∀ {b args r t}, Eval.byteAt b args s = .ok r t →
    ∃ arg i byte, args = [arg] ∧ (s.store.get arg).offset b.length = .ok i ∧
      b[i]? = some byte ∧ t.store.get r = .string [byte]

theorem Eval.inBounds (s : State) : Eval.InBounds s where
  element {elements args r t} h := by
    unfold Eval.element at h
    split at h
    · next arg =>
      rw [Eval.bind_read] at h
      cases hi : (s.store.get arg).offset elements.length with
      | ok i =>
        rw [hi] at h
        cases h
        have hlt := Object.lt_of_offset hi
        exact ⟨arg, i, rfl, hi, by simp [hlt]⟩
      | error e =>
        rw [hi] at h
        cases h
    · cases h
  byteAt {b args r t} h := by
    unfold Eval.byteAt at h
    split at h
    · next arg =>
      rw [Eval.bind_read] at h
      cases hi : (s.store.get arg).offset b.length with
      | ok i =>
        rw [hi] at h
        have hlt := Object.lt_of_offset hi
        have hget : t.store.get r = .string ((b.drop i).take 1) := Eval.get_of_alloc h
        have hone : (b.drop i).take 1 = [b[i]] := by
          rw [List.drop_eq_getElem_cons hlt, List.take_one, List.head?_cons, Option.toList_some]
        exact ⟨arg, i, b[i], rfl, hi, List.getElem?_eq_getElem hlt, hone ▸ hget⟩
      | error e =>
        rw [hi] at h
        cases h
    · cases h

structure Store.Sound (s : Store) : Prop where
  edge : ∀ {i j}, s.Exists i → Edge s i j → s.Exists j
  bodies : s.BodiesWellFormed

theorem Store.sound_of_holds {global : ScopeId} {s : State}
    (h : (ordering global True).holds s) : s.store.Sound :=
  ⟨h.1.exists_of_edge, h.2 trivial⟩

/-- The run of a program in a session meets nothing that it has no rule for. -/
structure Session.RunsSafely (s : Session) (fuel : Nat) (p : Program) : Prop where
  value : (s.eval fuel (.program p)).1 = .outOfFuel ∨ ∃ r, (s.eval fuel (.program p)).1 = .value r ∧
    (s.eval fuel (.program p)).2.state.store.Exists (.object r)
  erases : ((Node.program p).record fuel s.scope s.state).2 = p.run fuel s.scope s.state
  accounted : Accounted s.state ((Node.program p).record fuel s.scope s.state).1
    (s.eval fuel (.program p)).2.state
  evaluated : ∀ m ∈ ((Node.program p).record fuel s.scope s.state).1, ∀ id e,
    m.event = .evaluate id e →
      m.state.store.Exists (.scope id) ∧ e.WellFormed ∧ e.defect? = none ∧ e.HasRule
  used : ∀ m ∈ ((Node.program p).record fuel s.scope s.state).1, ∀ r ∈ m.event.values,
    m.state.store.Exists (.object r)
  sound : ∀ t ∈ (s.state :: ((Node.program p).record fuel s.scope s.state).1.map Moment.state) ++
    [(s.eval fuel (.program p)).2.state], t.store.Sound
  inBounds : ∀ t, Eval.InBounds t

theorem Outcome.safe_of_ends {global : ScopeId} {s : State} {x : EStateM.Result Abrupt State Ref}
    (h : (ordering global True).Ends s (ordering global True).Value x) :
    (Outcome.ofResult x).1 = .outOfFuel ∨ ∃ r, (Outcome.ofResult x).1 = .value r ∧
      (Outcome.ofResult x).2.store.Exists (.object r) := by
  cases x with
  | ok r t => exact .inr ⟨r, rfl, h.2⟩
  | error e t =>
    cases e with
    | returning r => exact .inr ⟨r, rfl, h.2⟩
    | failed r => exact .inr ⟨r, rfl, h.2⟩
    | defect d => exact absurd trivial h.2
    | outOfFuel => exact .inl rfl

namespace Session

variable {threshold : Nat} {output : Output} {log : Log} {v : Option Ref} {s : Session}

theorem ordering_perform (h : (ordering s.scope True).holds s.state) (act : Act) :
    (ordering s.scope True).holds (s.perform act).2.state := by
  cases act with
  | exec fuel source =>
    simp only [perform, exec]
    cases hp : Program.parse source with
    | ok p =>
      have hrecounts := ordering.recounts h h.1.rooted fuel (.program p)
        fun _ => Program.wellFormed_of_parse hp
      have hholds := hrecounts.ends.later.holds
      rw [← Node.stateOf_run] at hholds
      exact hholds
    | error e => exact h
  | collect => exact h

theorem Reached.ordering (h : Reached threshold output log v s) :
    (ordering s.scope True).holds s.state := by
  induction h with
  | new => exact ⟨Store.ordered_new, fun _ _ _ _ _ hf => absurd hf Store.get_initial_ne_function⟩
  | perform act _ ih =>
    rw [scope_perform]
    exact ordering_perform ih act

/-- A program that parses runs safely, whatever was run before it. -/
theorem Reached.runsSafely (h : Reached threshold output log v s) {source : Bytes} {p : Program}
    (hp : Program.parse source = .ok p) (fuel : Nat) : s.RunsSafely fuel p := by
  have hholds := h.ordering
  have hrecounts := ordering.recounts hholds hholds.1.rooted fuel (.program p)
    fun _ => Program.wellFormed_of_parse hp
  have hstate : (s.eval fuel (.program p)).2.state =
      Eval.stateOf ((Node.program p).run fuel s.scope s.state) := Node.stateOf_run
  constructor
  case value => exact Outcome.safe_of_ends hrecounts.ends
  case erases => exact hrecounts.erases
  case accounted =>
    rw [hstate]
    exact hrecounts.accounted
  case evaluated =>
    intro m hm id e he
    obtain ⟨hid, hw⟩ := (hrecounts.proper m hm).evaluated id e he
    have hwell := hw trivial
    exact ⟨hid, hwell, hwell.defect?_eq_none, hwell.hasRule⟩
  case used => exact fun m hm r hr => (hrecounts.proper m hm).values r hr
  case sound =>
    intro t ht
    simp only [List.cons_append, List.mem_cons, List.mem_append, List.mem_map, List.not_mem_nil,
      or_false] at ht
    rcases ht with rfl | ⟨m, hm, rfl⟩ | rfl
    · exact Store.sound_of_holds hholds
    · exact Store.sound_of_holds (hrecounts.proper m hm).holds
    · rw [hstate]
      exact Store.sound_of_holds hrecounts.ends.later.holds
  case inBounds => exact Eval.inBounds

theorem Reached.runsSafely_sharing :
    ∃ v p, Reached 1 .unlimited (.start .info) v sharing ∧ Program.parse callSharing = .ok p ∧
      sharing.RunsSafely 20 p ∧ (sharing.eval 20 (.program p)).1 = .value ⟨7⟩ := by
  obtain ⟨p, hp, hv⟩ := exists_parse_of_exec answer_callSharing
  have h : Reached 1 .unlimited (.start .info) _ sharing := .perform _ .new
  exact ⟨_, p, h, hp, h.runsSafely hp 20, congrArg Prod.fst hv⟩

end Session

end CornScript
