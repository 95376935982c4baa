import CornScript.Proofs.Eval.Coupling
import Mathlib

/-! # Collection is transparent

Two states are alike if they have the same store and the same output, whatever their heaps. No step
of an evaluation looks at the heap, so from states that are alike it leads to states that are alike
again, with the same result. A larger bound on the depth of evaluation only adds results. Hence two
sessions that collect at different times cannot be told apart except by handles and by the heap.
-/

namespace CornScript

open Heap (Item)

/-- The same store and the same output. Heap, handles and log may differ. -/
structure State.Alike (s t : State) : Prop where
  store : s.store = t.store
  output : s.output = t.output

/-- The places are the same; heap and log are left open, and so is the bound on the depth. -/
def Coupling.loose : Coupling := .level id False False

theorem State.alike_iff_relates {s t : State} : s.Alike t ↔ Coupling.loose.Relates s t := by
  constructor
  · intro h
    have hstore : t.store = s.store.moved id := h.store.symm.trans s.store.moved_id.symm
    exact ⟨hstore, h.output.symm, nofun, nofun, nofun, nofun, nofun⟩
  · intro h
    exact ⟨(h.store.trans s.store.moved_id).symm, h.output.symm⟩

inductive View where
  | number (value : Float)
  | string (value : Bytes)
  | boolean (value : Bool)
  | null
  | array (elements : List View)
  | hash (pairs : List (Bytes × View))
  | function (params : List Bytes) (body : Block) (scope : Option View)
  | builtin (builtin : Builtin)
  | error (cause : RuntimeError)
  | scope (bindings : List (Bytes × View)) (outer : Option View)
  | beyond

def Store.view (s : Store) : Nat → Item → View
  | 0, _ => .beyond
  | depth + 1, .object r => match s.get r with
    | .number v => .number v
    | .string b => .string b
    | .boolean b => .boolean b
    | .null => .null
    | .array es => .array (es.map fun e => s.view depth (.object e))
    | .hash d => .hash (d.entries.map fun p => (p.1, s.view depth (.object p.2)))
    | .function ps body scope => .function ps body (scope.map fun id => s.view depth (.scope id))
    | .builtin b => .builtin b
    | .error e => .error e
  | depth + 1, .scope id => match s.scope? id with
    | some sc => .scope (sc.bindings.entries.map fun p => (p.1, s.view depth (.object p.2)))
      (sc.outer.map fun o => s.view depth (.scope o))
    | none => .beyond

namespace Session

structure SameValue (s s' : Session) (r r' : Ref) : Prop where
  kind : (s.object r).kind = (s'.object r').kind
  inspect : (s.object r).inspect = (s'.object r').inspect
  contents : ∀ depth, s.state.store.view depth (.object r) = s'.state.store.view depth (.object r')

inductive SameAnswer (s s' : Session) : Answer → Answer → Prop where
  | fatal (e : SyntaxError) : SameAnswer s s' (.fatal e) (.fatal e)
  | value {r r' : Ref} :
    SameValue s s' r r' → SameAnswer s s' (.finished (.value r)) (.finished (.value r'))
  | defect (d : Defect) : SameAnswer s s' (.finished (.defect d)) (.finished (.defect d))

/-- Two executions that only handles and the heap can tell apart. -/
structure SameStep (a b : Answer × Session) : Prop where
  answer : SameAnswer a.2 b.2 a.1 b.1
  output : a.2.state.output = b.2.state.output
  globals : ∀ depth, a.2.state.store.view depth (.scope a.2.scope) =
    b.2.state.store.view depth (.scope b.2.scope)

def Executes (s : Session) (source : Bytes) (result : Answer × Session) : Prop :=
  ∃ fuel, s.exec fuel source = result ∧ result.1 ≠ .finished .outOfFuel

inductive ExecutesAll : Session → List Bytes → List (Answer × Session) → Prop where
  | nil {s : Session} : ExecutesAll s [] []
  | cons {s : Session} {source : Bytes} {sources : List Bytes} {result : Answer × Session}
      {results : List (Answer × Session)} : s.Executes source result →
    ExecutesAll result.2 sources results → ExecutesAll s (source :: sources) (result :: results)

structure Alike (s s' : Session) : Prop where
  state : s.state.Alike s'.state
  scope : s.scope = s'.scope

theorem alike_new (threshold threshold' : Nat) (output : Output) (log log' : Log) :
    Alike (.new threshold output log) (.new threshold' output log') :=
  ⟨⟨rfl, rfl⟩, rfl⟩

variable {s s' : Session} {source : Bytes} {result result' : Answer × Session}

theorem Alike.symm (h : s.Alike s') : s'.Alike s :=
  ⟨⟨h.state.store.symm, h.state.output.symm⟩, h.scope.symm⟩

theorem Alike.exec (h : s.Alike s') {n m : Nat} (hnm : n ≤ m)
    (hne : (s.exec n source).1 ≠ .finished .outOfFuel) :
    (s.exec n source).1 = (s'.exec m source).1 ∧
      (s.exec n source).2.Alike (s'.exec m source).2 := by
  unfold Session.exec at hne ⊢
  cases hp : Program.parse source with
  | error e => exact ⟨rfl, ⟨h.state.store, h.state.output⟩, h.scope⟩
  | ok p =>
    rw [hp] at hne
    change Answer.finished ((Node.program p).eval n s.scope s.state).1 ≠ _ at hne
    have hrun := (State.alike_iff_relates.mp h.state).eval id (.inr ⟨id, hnm⟩) s.scope p
      fun _ hfuel => hne (congrArg Answer.finished hfuel)
    have hp : p.moved Coupling.loose.move = p := p.moved_id
    rw [hp] at hrun
    change Answer.finished ((Node.program p).eval n s.scope s.state).1 =
      .finished ((Node.program p).eval m s'.scope s'.state).1 ∧
      Alike ⟨((Node.program p).eval n s.scope s.state).2, s.scope⟩
        ⟨((Node.program p).eval m s'.scope s'.state).2, s'.scope⟩
    rw [← h.scope]
    exact ⟨congrArg Answer.finished hrun.1, State.alike_iff_relates.mpr hrun.2, rfl⟩

/-- Executions in sessions that are alike have the same answer, whatever bounds they needed. -/
theorem Alike.executes (h : s.Alike s') (hr : s.Executes source result)
    (hr' : s'.Executes source result') : result.1 = result'.1 ∧ result.2.Alike result'.2 := by
  obtain ⟨n, rfl, hne⟩ := hr
  obtain ⟨m, rfl, hne'⟩ := hr'
  rcases Nat.le_total n m with hnm | hmn
  · exact h.exec hnm hne
  · obtain ⟨ha, hs⟩ := h.symm.exec hmn hne'
    exact ⟨ha.symm, hs.symm⟩

theorem Alike.exists_executes (h : s.Alike s') (hr : s.Executes source result) :
    ∃ result', s'.Executes source result' := by
  obtain ⟨n, rfl, hne⟩ := hr
  exact ⟨_, n, rfl, (h.exec (Nat.le_refl n) hne).1 ▸ hne⟩

theorem Alike.sameStep (h : result.2.Alike result'.2) (ha : result.1 = result'.1)
    (hne : result.1 ≠ .finished .outOfFuel) : SameStep result result' := by
  obtain ⟨a, s⟩ := result
  obtain ⟨a', s'⟩ := result'
  dsimp only at h ha hne
  subst ha
  refine ⟨?_, h.state.output, fun depth => by rw [h.state.store, h.scope]⟩
  cases a with
  | fatal e => exact .fatal e
  | finished outcome =>
    cases outcome with
    | value r =>
      have ho : s.object r = s'.object r := by rw [object, object, h.state.store]
      exact .value ⟨by rw [ho], by rw [ho], fun depth => by rw [h.state.store]⟩
    | defect d => exact .defect d
    | outOfFuel => exact absurd rfl hne

theorem Alike.exists_executesAll {sources : List Bytes} {results : List (Answer × Session)}
    (h : s.Alike s') (hr : s.ExecutesAll sources results) :
    ∃ results', s'.ExecutesAll sources results' := by
  induction hr generalizing s' with
  | nil => exact ⟨[], .nil⟩
  | cons hx _ ih =>
    obtain ⟨result', hx'⟩ := h.exists_executes hx
    obtain ⟨results', hr'⟩ := ih (h.executes hx hx').2
    exact ⟨result' :: results', .cons hx' hr'⟩

theorem Alike.sameSteps {sources : List Bytes} {results results' : List (Answer × Session)}
    (h : s.Alike s') (hr : s.ExecutesAll sources results) (hr' : s'.ExecutesAll sources results') :
    List.Forall₂ SameStep results results' := by
  induction hr generalizing s' results' with
  | nil =>
    cases hr'
    exact .nil
  | cons hx _ ih =>
    cases hr' with
    | cons hx' hrest' =>
      obtain ⟨ha, hs⟩ := h.executes hx hx'
      exact .cons (hs.sameStep ha hx.choose_spec.2) (ih hs hrest')

/-- When collections happen does not matter: texts that come to an end in a session with one
threshold do so with any other, and then every step gives the same answer, the same output and the
same global bindings. -/
theorem transparent_threshold (threshold threshold' : Nat) (output : Output) (log log' : Log)
    {sources : List Bytes} {results : List (Answer × Session)}
    (hr : (Session.new threshold output log).ExecutesAll sources results) :
    (∃ results', (Session.new threshold' output log').ExecutesAll sources results') ∧
      ∀ results', (Session.new threshold' output log').ExecutesAll sources results' →
        List.Forall₂ SameStep results results' :=
  have h := alike_new threshold threshold' output log log'
  ⟨h.exists_executesAll hr, fun _ hr' => h.sameSteps hr hr'⟩

def bindWrap : Bytes := text "let f = fn(x) \x7b [x] \x7d"

def wrapTwice : Bytes := text "f(f('y'))"

def wrapped : (Answer × Session) × (Answer × Session) :=
  let first := (Session.new 1 .unlimited (.start .info)).exec 10 bindWrap
  (first, first.2.exec 10 wrapTwice)

theorem answers_wrapped :
    wrapped.1.1 = .finished (.value ⟨7⟩) ∧ wrapped.2.1 = .finished (.value ⟨10⟩) := by
  constructor <;> cbv

theorem executesAll_wrapped :
    (Session.new 1 .unlimited (.start .info)).ExecutesAll [bindWrap, wrapTwice]
      [wrapped.1, wrapped.2] :=
  .cons ⟨10, rfl, by rw [answers_wrapped.1]; nofun⟩ <|
    .cons ⟨10, rfl, by rw [answers_wrapped.2]; nofun⟩ .nil

theorem transparent_wrapTwice :
    (∃ results,
        (Session.new 100 .unlimited (.start .info)).ExecutesAll [bindWrap, wrapTwice] results) ∧
      ∀ results,
        (Session.new 100 .unlimited (.start .info)).ExecutesAll [bindWrap, wrapTwice] results →
        List.Forall₂ SameStep [wrapped.1, wrapped.2] results :=
  transparent_threshold 1 100 .unlimited (.start .info) (.start .info) executesAll_wrapped

end Session

end CornScript
