import CornScript.Proofs.Heap.Moved
import CornScript.Session

/-! # Two runs side by side

Evaluation looks neither at the places of tokens nor at the heap, and of the output it sees only
whether there is room for another line. So a run on trees whose tokens have been moved, from a state
with the same store up to the places in function bodies, takes the same steps and ends in the same
way. How much else the two states have in common, whether the two runs have the same bound on their
depth, and whether the second has more room for output, is left open by a coupling.
-/

namespace CornScript

variable {f : Pos → Pos}

namespace Object

@[simp] theorem offset_moved (o : Object) (length : Nat) :
    (o.moved f).offset length = o.offset length := by
  cases o <;> rfl

@[simp] theorem printed_moved (o : Object) : Builtin.printed (o.moved f) = Builtin.printed o := by
  cases o <;> rfl

/-- What comes of an operation on objects moves with them: it is no function. -/
theorem sizeOf?_moved (o : Object) :
    Builtin.sizeOf? (o.moved f) = (Builtin.sizeOf? o).map (moved f) := by
  cases o <;> rfl

theorem pushed_moved (o : Object) (more : List Ref) :
    Builtin.pushed (o.moved f) more = (Builtin.pushed o more).map (moved f) := by
  cases o <;> rfl

end Object

theorem UnaryOp.apply_moved (op : UnaryOp) (o : Object) :
    op.apply (o.moved f) = (op.apply o).map (Object.moved f) := by
  cases op <;> cases o <;> rfl

namespace BinaryOp

theorem onNumbers_moved (op : BinaryOp) (l r : Float) :
    op.onNumbers l r = (op.onNumbers l r).map (Object.moved f) := by
  cases op with
  | div =>
    unfold onNumbers
    dsimp only
    split <;> rfl
  | _ => rfl

theorem onStrings_moved (op : BinaryOp) (l r : Bytes) :
    op.onStrings l r = (op.onStrings l r).map (Object.moved f) := by
  cases op <;> rfl

theorem apply_moved (op : BinaryOp) (l r : Object) :
    op.apply (l.moved f) (r.moved f) = (op.apply l r).map (Object.moved f) := by
  cases l <;> cases r
  all_goals first | rfl | exact onNumbers_moved .. | exact onStrings_moved ..

end BinaryOp

theorem Store.bindParams_moved (s : Store) (scope : ScopeId) (bindings : List (Bytes × Ref)) :
    Eval.bindParams (s.moved f) scope bindings = (Eval.bindParams s scope bindings).moved f := by
  induction bindings generalizing s with
  | nil => rfl
  | cons b rest ih => exact ih (s.bind scope b.1 b.2)

/-- Two runs side by side. The second has its tokens where `move` puts those of the first. If the
coupling is `strict`, the two have the same heap and the same bound on their depth, and the same log
if it is `loud` too. If it is `roomy`, the second may write where the first has no room left. -/
structure Coupling where
  move : Pos → Pos
  strict : Prop
  loud : Prop
  roomy : Prop
  outputs : Output → Output → Prop
  write : ∀ {o o' a : Output} {b : Bytes}, outputs o o' → o.write? b = some a →
    ∃ a', o'.write? b = some a' ∧ outputs a a'
  full : ∀ {o o' : Output} {b : Bytes}, outputs o o' → o.write? b = none →
    o'.write? b = none ∨ roomy

namespace Coupling

def level (move : Pos → Pos) (strict loud : Prop) : Coupling where
  move := move
  strict := strict
  loud := loud
  roomy := False
  outputs o o' := o' = o
  write h hw := ⟨_, h ▸ hw, rfl⟩
  full h hw := .inl (h ▸ hw)

variable {C : Coupling} {s t : State}

structure Relates (C : Coupling) (s t : State) : Prop where
  store : t.store = s.store.moved C.move
  output : C.outputs s.output t.output
  heap : C.strict → t.heap = s.heap
  handles : C.strict → t.handles = s.handles
  statements : C.strict → t.statements = s.statements
  threshold : C.strict → t.threshold = s.threshold
  log : C.strict → C.loud → t.log = s.log

namespace Relates

theorem get (h : C.Relates s t) (r : Ref) : t.store.get r = (s.store.get r).moved C.move := by
  rw [h.store, Store.get_moved]

theorem trace (h : C.Relates s t) (message : Unit → Bytes) :
    C.Relates (s.trace message) (t.trace message) :=
  { h with log := fun hs hl => congrArg (Log.add · .verbose message) (h.log hs hl) }

theorem count (h : C.Relates s t) :
    C.Relates { s with statements := s.statements + 1 }
      { t with statements := t.statements + 1 } :=
  { h with statements := fun hs => congrArg (· + 1) (h.statements hs) }

theorem write (h : C.Relates s t) {o o' : Output} (ho : C.outputs o o') :
    C.Relates { s with output := o } { t with output := o' } :=
  { h with output := ho }

theorem update (h : C.Relates s t) (change : Store → Store)
    (hc : change (s.store.moved C.move) = (change s.store).moved C.move) :
    C.Relates { s with store := change s.store } { t with store := change t.store } :=
  { h with store := (congrArg change h.store).trans hc }

theorem ref_alloc (h : C.Relates s t) (o : Object) :
    (t.alloc (o.moved C.move)).1 = (s.alloc o).1 := by
  simp only [State.alloc, h.store, Store.alloc_moved]

theorem alloc (h : C.Relates s t) (o : Object) :
    C.Relates (s.alloc o).2 (t.alloc (o.moved C.move)).2 := by
  have hr : (t.store.alloc (o.moved C.move)).1 = (s.store.alloc o).1 := h.ref_alloc o
  have hreg (hs : C.strict) : t.heap.register t.handles (t.store.alloc (o.moved C.move)).1 =
      s.heap.register s.handles (s.store.alloc o).1 := by
    rw [hr, h.heap hs, h.handles hs]
  constructor
  case store => simp only [State.alloc, h.store, Store.alloc_moved]
  case heap => exact fun hs => congrArg Prod.fst (hreg hs)
  case handles => exact fun hs => congrArg Prod.snd (hreg hs)
  all_goals simp only [State.alloc]
  · exact h.output
  · exact h.statements
  · exact h.threshold
  · exact h.log

theorem of_moved {o : Output} {l : Log} (ho : C.outputs s.output o) (hl : C.loud → l = s.log) :
    C.Relates s { s with store := s.store.moved C.move, output := o, log := l } :=
  ⟨rfl, ho, fun _ => rfl, fun _ => rfl, fun _ => rfl, fun _ => rfl, fun _ => hl⟩

theorem eq_of_strict (h : C.Relates s t) (hs : C.strict) :
    t = { s with store := s.store.moved C.move, output := t.output, log := t.log } := by
  rw [← h.store, ← h.heap hs, ← h.handles hs, ← h.statements hs, ← h.threshold hs]

theorem collectIfDue (h : C.Relates s t) (scope : ScopeId) (r : Ref) :
    C.Relates (s.collectIfDue scope r) (t.collectIfDue scope r) := by
  by_cases hs : C.strict
  · have hlog := h.log hs
    have houtput := h.output
    rw [h.eq_of_strict hs]
    generalize t.log = l at hlog
    generalize t.output = o at houtput
    unfold State.collectIfDue
    dsimp only
    split
    · exact .of_moved houtput hlog
    · simp only [State.collect, State.trace, Store.collect_moved]
      refine .of_moved houtput fun hl => ?_
      rw [hlog hl]
  · -- Only the heap, the count of statements and the log are at stake.
    have hstore (s : State) : (s.collectIfDue scope r).store = s.store := by
      unfold State.collectIfDue
      split <;> rfl
    have houtput (s : State) : (s.collectIfDue scope r).output = s.output := by
      unfold State.collectIfDue
      split <;> rfl
    constructor
    case store => rw [hstore, hstore, h.store]
    case output =>
      rw [houtput, houtput]
      exact h.output
    all_goals exact fun hs' => absurd hs' hs

end Relates

end Coupling

namespace Eval

variable {α β : Type} {C : Coupling}

/-- The same end in related states. Unless the coupling is strict, the first run may also be out of
fuel; and if it is roomy, the first run may have failed for want of room. -/
inductive SameEnd (C : Coupling) :
    EStateM.Result Abrupt State α → EStateM.Result Abrupt State α → Prop where
  | ok {a : α} {s t : State} : C.Relates s t → SameEnd C (.ok a s) (.ok a t)
  | error {e : Abrupt} {s t : State} : C.Relates s t → SameEnd C (.error e s) (.error e t)
  | outOfFuel {s : State} {y : EStateM.Result Abrupt State α} : ¬ C.strict →
    SameEnd C (.error .outOfFuel s) y
  | full {r : Ref} {s : State} {y : EStateM.Result Abrupt State α} : C.roomy →
    SameEnd C (.error (.failed r) s) y

structure Follows (C : Coupling) (x y : Eval α) : Prop where
  ends : ∀ {s t : State}, C.Relates s t → SameEnd C (x s) (y t)

namespace Follows

theorem pure (a : α) : Follows C (Pure.pure a) (Pure.pure a) :=
  ⟨fun h => .ok h⟩

theorem throw (e : Abrupt) : Follows C (throw e : Eval α) (throw e) :=
  ⟨fun h => .error h⟩

theorem bind {x y : Eval α} {f g : α → Eval β} (hx : Follows C x y)
    (hf : ∀ a, Follows C (f a) (g a)) : Follows C (x >>= f) (y >>= g) := by
  constructor
  intro s t h
  change SameEnd C (EStateM.bind x f s) (EStateM.bind y g t)
  unfold EStateM.bind
  have he := hx.ends h
  generalize x s = a, y t = b at he
  cases he with
  | ok h' => exact (hf _).ends h'
  | error h' => exact .error h'
  | outOfFuel hs => exact .outOfFuel hs
  | full hr => exact .full hr

theorem get {f g : State → Eval α} (hf : ∀ {s t}, C.Relates s t → Follows C (f s) (g t)) :
    Follows C (get >>= f) (get >>= g) :=
  ⟨fun h => (hf h).ends h⟩

theorem set {s t : State} (h : C.Relates s t) : Follows C (set s : Eval Unit) (set t) :=
  ⟨fun _ => .ok h⟩

theorem modifyGet {f g : State → α × State}
    (hf : ∀ {s t}, C.Relates s t → (g t).1 = (f s).1 ∧ C.Relates (f s).2 (g t).2) :
    Follows C (modifyGet f) (modifyGet g) := by
  constructor
  intro s t h
  change SameEnd C (.ok (f s).1 (f s).2) (.ok (g t).1 (g t).2)
  rw [(hf h).1]
  exact .ok (hf h).2

theorem modify {f g : State → State} (hf : ∀ {s t}, C.Relates s t → C.Relates (f s) (g t)) :
    Follows C (modify f : Eval Unit) (modify g) :=
  modifyGet fun h => ⟨rfl, hf h⟩

theorem trace (message : Unit → Bytes) : Follows C (Eval.trace message) (Eval.trace message) :=
  modify fun h => h.trace message

theorem count : Follows C Eval.count Eval.count :=
  modify fun h => h.count

theorem read {f g : Object → Eval α} (r : Ref) (hf : ∀ o, Follows C (f o) (g (o.moved C.move))) :
    Follows C (Eval.read r >>= f) (Eval.read r >>= g) := by
  constructor
  intro s t h
  have hg := (hf (s.store.get r)).ends h
  rwa [← h.get r] at hg

theorem alloc (o : Object) : Follows C (Eval.alloc o) (Eval.alloc (o.moved C.move)) :=
  modifyGet fun h => ⟨h.ref_alloc o, h.alloc o⟩

theorem fail (e : RuntimeError) : Follows C (Eval.fail e : Eval α) (Eval.fail e) :=
  (alloc (.error e)).bind fun r => .throw (.failed r)

theorem yield (o : Object) : Follows C (Eval.yield o) (Eval.yield (o.moved C.move)) := by
  cases o with
  | boolean b => exact .pure _
  | null => exact .pure _
  | builtin b => exact .pure _
  | _ => exact .alloc _

theorem ofResult {x y : Except RuntimeError Object} (h : y = x.map (Object.moved C.move)) :
    Follows C (Eval.ofResult x) (Eval.ofResult y) := by
  subst h
  cases x with
  | ok o => exact .yield o
  | error e => exact .fail e

theorem catchReturn {x y : Eval Ref} (hx : Follows C x y) :
    Follows C (Eval.catchReturn x) (Eval.catchReturn y) := by
  constructor
  intro s t h
  unfold Eval.catchReturn
  have he := hx.ends h
  generalize x s = a, y t = b at he
  cases he with
  | ok h' => exact .ok h'
  | @error e _ _ h' =>
    cases e with
    | returning r => exact .ok h'
    | _ => exact .error h'
  | outOfFuel hs => exact .outOfFuel hs
  | full hr => exact .full hr

theorem traceFailure {x y : Eval Ref} (message : Bytes → Bytes) (hx : Follows C x y) :
    Follows C (Eval.traceFailure message x) (Eval.traceFailure message y) := by
  constructor
  intro s t h
  unfold Eval.traceFailure
  have he := hx.ends h
  generalize x s = a, y t = b at he
  cases he with
  | ok h' => exact .ok h'
  | @error e _ _ h' =>
    cases e with
    | failed r =>
      dsimp only
      rw [h'.get, Object.inspect_moved]
      exact .error (h'.trace _)
    | _ => exact .error h'
  | outOfFuel hs => exact .outOfFuel hs
  | full hr => exact .full hr

theorem identifier (scope : ScopeId) (name : Bytes) :
    Follows C (Eval.identifier scope name) (Eval.identifier scope name) := by
  refine .get fun {s t} h => ?_
  rw [h.store, Store.lookup_moved]
  split
  · exact .pure _
  · split
    · exact .pure _
    · exact .fail _

theorem printLine (args : List Ref) :
    Follows C (Builtin.printLine args) (Builtin.printLine args) := by
  refine .get fun {s t} h => ?_
  simp only [h.get, Object.printed_moved]
  generalize Bytes.join _ _ ++ _ = line
  cases hw : s.output.write? line with
  | some output =>
    obtain ⟨output', hw', houtput⟩ := C.write h.output hw
    rw [hw']
    exact (set (h.write houtput)).bind fun _ => .pure _
  | none =>
    rcases C.full h.output hw with hw' | hr
    · rw [hw']
      exact .fail _
    · exact ⟨fun _ => .full hr⟩

theorem builtin (b : Builtin) (args : List Ref) : Follows C (b.run args) (b.run args) := by
  unfold Builtin.run
  split
  · exact .read _ fun o => .ofResult o.sizeOf?_moved
  · exact .read _ fun o => .ofResult (by rw [Object.kind_moved]; rfl)
  · exact .read _ fun o => .ofResult (o.pushed_moved _)
  · exact .printLine _
  · exact .fail _

theorem bindName (scope : ScopeId) (name : Bytes) (r : Ref) :
    Follows C (Eval.bind scope name r) (Eval.bind scope name r) := by
  unfold Eval.bind
  split
  · exact .fail _
  · refine (modify fun h => h.update (·.bind scope name r) rfl).bind fun _ => ?_
    refine .read r fun o => ?_
    rw [o.inspect_moved]
    exact (trace _).bind fun _ => .pure r

theorem element (elements args : List Ref) :
    Follows C (Eval.element elements args) (Eval.element elements args) := by
  unfold Eval.element
  split
  · refine .read _ fun o => ?_
    rw [o.offset_moved]
    split
    · exact .pure _
    · exact .fail _
  · exact .fail _

theorem byteAt (b : Bytes) (args : List Ref) :
    Follows C (Eval.byteAt b args) (Eval.byteAt b args) := by
  unfold Eval.byteAt
  split
  · refine .read _ fun o => ?_
    rw [o.offset_moved]
    split
    · exact .alloc _
    · exact .fail _
  · exact .fail _

theorem entry (pairs : Dict Ref) (args : List Ref) :
    Follows C (Eval.entry pairs args) (Eval.entry pairs args) := by
  unfold Eval.entry
  split
  · refine .read _ fun o => ?_
    cases o with
    | string k => exact .pure _
    | _ => exact .fail _
  · exact .fail _

section Parts

variable {ev ev' : Expr → Eval Ref} (hev : ∀ e, Follows C (ev e) (ev' (e.moved C.move)))

include hev

theorem all (es : List Expr) :
    Follows C (Eval.all ev es) (Eval.all ev' (es.map (Expr.moved C.move))) := by
  induction es with
  | nil => exact .pure _
  | cons e es ih => exact (hev e).bind fun r => ih.bind fun rs => .pure _

theorem pairs (count index : Nat) (ks vs : List Expr) (d : Dict Ref) :
    Follows C (Eval.pairs ev count index ks vs d)
      (Eval.pairs ev' count index (ks.map (Expr.moved C.move)) (vs.map (Expr.moved C.move)) d) := by
  induction ks generalizing index vs d with
  | nil => exact .pure d
  | cons k ks ih =>
    refine (hev k).bind fun key => .read key fun o => ?_
    cases o with
    | string name =>
      cases vs with
      | nil => exact .throw _
      | cons v vs => exact (hev v).bind fun value => ih _ _ _
    | _ => exact .fail _

end Parts

mutual

theorem stmt {ev ev' : Expr → Eval Ref} (hev : ∀ e, Follows C (ev e) (ev' (e.moved C.move)))
    (scope : ScopeId) (st : Stmt) :
    Follows C (st.run ev scope) ((st.moved C.move).run ev' scope) := by
  cases st with
  | bind token target value =>
    simp only [Stmt.moved, Stmt.run, Ident.name_moved]
    exact (traceFailure _ (hev value)).bind fun r => .bindName scope _ r
  | give token value =>
    simp only [Stmt.moved, Stmt.run]
    exact (hev value).bind fun r => .throw _
  | expr token value =>
    simp only [Stmt.moved, Stmt.run]
    exact hev value
  | block b =>
    simp only [Stmt.moved, Stmt.run]
    exact Follows.block hev scope b

theorem block {ev ev' : Expr → Eval Ref} (hev : ∀ e, Follows C (ev e) (ev' (e.moved C.move)))
    (scope : ScopeId) (b : Block) :
    Follows C (b.run ev scope) ((b.moved C.move).run ev' scope) := by
  cases b with
  | mk token body =>
    simp only [Block.moved, Block.run]
    exact Follows.runAll hev scope _ body

theorem runAll {ev ev' : Expr → Eval Ref} (hev : ∀ e, Follows C (ev e) (ev' (e.moved C.move)))
    (scope : ScopeId) (last : Ref) (body : List Stmt) :
    Follows C (Stmt.runAll ev scope last body)
      (Stmt.runAll ev' scope last (Stmt.movedAll C.move body)) := by
  cases body with
  | nil =>
    simp only [Stmt.movedAll, Stmt.runAll]
    exact .pure last
  | cons st rest =>
    simp only [Stmt.movedAll, Stmt.runAll]
    exact count.bind fun _ => (Follows.stmt hev scope st).bind fun r =>
      Follows.runAll hev scope r rest

end

section Branches

variable {ev ev' : Expr → Eval Ref} (hev : ∀ e, Follows C (ev e) (ev' (e.moved C.move)))

include hev

theorem choose (scope : ScopeId) (condition : Expr) (consequence : Block)
    (alternative : Option Block) :
    Follows C (Eval.choose ev scope condition consequence alternative)
      (Eval.choose ev' scope (condition.moved C.move) (consequence.moved C.move)
        (alternative.map (Block.moved C.move))) := by
  refine (hev condition).bind fun r => .read r fun o => ?_
  rw [Expr.print_moved]
  cases o with
  | boolean b =>
    cases b with
    | true => exact (trace _).bind fun _ => .block hev scope _
    | false =>
      cases alternative with
      | some block => exact (trace _).bind fun _ => .block hev scope _
      | none => exact .pure _
  | _ => exact .fail _

theorem shortCircuit (decisive : Bool) (left right : Expr) :
    Follows C (Eval.shortCircuit ev decisive left right)
      (Eval.shortCircuit ev' decisive (left.moved C.move) (right.moved C.move)) := by
  refine (hev left).bind fun l => .read l fun o => ?_
  cases o with
  | boolean b =>
    dsimp only [Object.moved]
    split
    · exact .pure _
    · refine (hev right).bind fun r => .read r fun o' => ?_
      cases o' with
      | boolean => exact .pure _
      | _ => exact .fail _
  | _ => exact .fail _

theorem program (scope : ScopeId) (last : Ref) (body : List Stmt) :
    Follows C (Program.runAll ev scope last body)
      (Program.runAll ev' scope last (body.map (Stmt.moved C.move))) := by
  induction body generalizing last with
  | nil => exact .pure last
  | cons st rest ih =>
    refine count.bind fun _ => (stmt hev scope st).bind fun r => ?_
    exact (modify fun h => h.collectIfDue scope r).bind fun _ => ih r

end Branches

section Calls

variable {ev ev' : ScopeId → Expr → Eval Ref}
  (hev : ∀ scope e, Follows C (ev scope e) (ev' scope (e.moved C.move)))

include hev

theorem apply (params : List Bytes) (body : Block) (closure : Option ScopeId) (args : List Ref) :
    Follows C (Eval.apply ev params body closure args)
      (Eval.apply ev' params (body.moved C.move) closure args) := by
  unfold Eval.apply
  split
  · exact .fail _
  · refine (modifyGet fun {s t} h => ?_).bind fun scope => .catchReturn (.block (hev scope) scope _)
    constructor
    · rw [h.store]
      rfl
    · exact h.update (fun st => bindParams (st.newScope closure).2 (st.newScope closure).1 _)
        (by rw [Store.newScope_moved, Store.bindParams_moved])

theorem call (callee : Ref) (args : List Ref) :
    Follows C (Eval.call ev callee args) (Eval.call ev' callee args) := by
  refine .read callee fun o => ?_
  cases o with
  | function params body closure => exact .apply hev params body closure args
  | builtin b => exact (trace _).bind fun _ => .builtin b args
  | array elements => exact .element elements args
  | string b => exact .byteAt b args
  | hash pairs => exact .entry pairs args
  | _ => exact .fail _

theorem stepCall (scope : ScopeId) (t : Token) (callee : Expr) (args : List Expr) :
    Follows C (Expr.step ev scope (.call t callee args))
      (Expr.step ev' scope ((Expr.call t callee args).moved C.move)) := by
  simp only [Expr.moved, Expr.movedAll_eq_map, Expr.step, Token.kind_moved, Expr.print_moved]
  split
  · split
    · exact .fail _
    · exact (all (hev scope) _).bind fun rs => (trace _).bind fun _ => .builtin _ rs
  · exact (hev scope _).bind fun r => (all (hev scope) _).bind fun rs => .call hev r rs

theorem stepBinary (scope : ScopeId) (t : Token) (l : Expr) (op : BinaryOp) (r : Expr) :
    Follows C (Expr.step ev scope (.binary t l op r))
      (Expr.step ev' scope ((Expr.binary t l op r).moved C.move)) := by
  have hboth : Follows C
      (ev scope l >>= fun a => ev scope r >>= fun b =>
        Eval.read a >>= fun o => Eval.read b >>= fun o' => Eval.ofResult (op.apply o o'))
      (ev' scope (l.moved C.move) >>= fun a => ev' scope (r.moved C.move) >>= fun b =>
        Eval.read a >>= fun o => Eval.read b >>= fun o' => Eval.ofResult (op.apply o o')) :=
    (hev scope l).bind fun a => (hev scope r).bind fun b =>
      .read a fun o => .read b fun o' => .ofResult (op.apply_moved o o')
  simp only [Expr.moved]
  cases op with
  | and => exact .shortCircuit (hev scope) _ _ _
  | or => exact .shortCircuit (hev scope) _ _ _
  | _ => exact hboth

theorem step (scope : ScopeId) (e : Expr) :
    Follows C (Expr.step ev scope e) (Expr.step ev' scope (e.moved C.move)) := by
  cases e with
  | missing => simpa only [Expr.moved] using .throw _
  | ident id => simpa only [Expr.moved] using .identifier scope id.name
  | number t v => simpa only [Expr.moved] using .alloc (.number v)
  | string t v => simpa only [Expr.moved] using .alloc (.string v)
  | boolean t b => simpa only [Expr.moved] using .pure _
  | null t => simpa only [Expr.moved] using .pure _
  | array t es =>
    simp only [Expr.moved, Expr.movedAll_eq_map]
    exact (all (hev scope) es).bind fun rs => .alloc (.array rs)
  | hash t ks vs =>
    simp only [Expr.moved, Expr.movedAll_eq_map, Expr.step, List.length_map]
    exact (pairs (hev scope) _ _ ks vs _).bind fun d => .alloc (.hash d)
  | unary t op e =>
    simp only [Expr.moved]
    exact (hev scope e).bind fun r => .read r fun o => .ofResult (op.apply_moved o)
  | binary t l op r => exact stepBinary hev scope t l op r
  | cond t c b a =>
    rw [Expr.moved_cond]
    exact .choose (hev scope) scope c b a
  | function t ps body =>
    simp only [Expr.moved, Expr.step, Ident.map_name_moved]
    exact .alloc (.function _ body (some scope))
  | call t callee args => exact stepCall hev scope t callee args

end Calls

/-- Evaluation follows evaluation with the same bound, and one with a smaller bound unless the
coupling is strict. -/
theorem eval {n m : Nat} (hnm : n = m ∨ ¬ C.strict ∧ n ≤ m) (scope : ScopeId) (e : Expr) :
    Follows C (Expr.eval n scope e) (Expr.eval m scope (e.moved C.move)) := by
  induction n generalizing m scope e with
  | zero =>
    rcases hnm with rfl | ⟨hs, -⟩
    · exact .throw _
    · exact ⟨fun _ => .outOfFuel hs⟩
  | succ n ih =>
    obtain ⟨m, rfl⟩ : ∃ k, m = k + 1 := ⟨m - 1, by omega⟩
    have hsub : n = m ∨ ¬ C.strict ∧ n ≤ m :=
      hnm.imp Nat.succ.inj (And.imp_right Nat.le_of_succ_le_succ)
    exact .step (ih hsub) scope e

theorem run {n m : Nat} (hnm : n = m ∨ ¬ C.strict ∧ n ≤ m) (scope : ScopeId) (p : Program) :
    Follows C (p.run n scope) ((p.moved C.move).run m scope) := by
  unfold Program.run
  rw [Program.moved, List.length_map]
  exact (trace _).bind fun _ => .program (fun e => .eval hnm scope e) scope .null p.body

end Follows

/-- A run that is not out of fuel has the outcome of the run that follows it. -/
theorem SameEnd.outcome {x y : EStateM.Result Abrupt State Ref} (h : SameEnd C x y)
    (hr : ¬ C.roomy) (hx : ¬ C.strict → (Outcome.ofResult x).1 ≠ .outOfFuel) :
    (Outcome.ofResult x).1 = (Outcome.ofResult y).1 ∧
      C.Relates (Outcome.ofResult x).2 (Outcome.ofResult y).2 := by
  cases h with
  | ok h => exact ⟨rfl, h⟩
  | @error e _ _ h => cases e <;> exact ⟨rfl, h⟩
  | outOfFuel hs => exact absurd rfl (hx hs)
  | full hr' => exact absurd hr' hr

end Eval

theorem Coupling.Relates.eval {C : Coupling} {s t : State} (h : C.Relates s t) (hr : ¬ C.roomy)
    {n m : Nat} (hnm : n = m ∨ ¬ C.strict ∧ n ≤ m) (scope : ScopeId) (p : Program)
    (hfuel : ¬ C.strict → ((Node.program p).eval n scope s).1 ≠ .outOfFuel) :
    ((Node.program p).eval n scope s).1 = ((Node.program (p.moved C.move)).eval m scope t).1 ∧
      C.Relates ((Node.program p).eval n scope s).2
        ((Node.program (p.moved C.move)).eval m scope t).2 :=
  ((Eval.Follows.run hnm scope p).ends h).outcome hr hfuel

end CornScript
