import CornScript.Eval
import CornScript.Proofs.Heap.Reachability
import CornScript.Proofs.Tree.WellFormed

/-! # What evaluation preserves

An invariant of evaluation says what holds of every state, which items are in good order in a state,
in which scopes a program may run, and whether only well-formed trees are run. It has to survive the
few things that evaluation can do to a state: create an object or a scope, bind a name, write, count
and log. Then it survives the evaluation of every expression, whatever way the evaluation ends.
-/

namespace CornScript

open Heap (Item Part Edge)

theorem Eval.bind_read {α : Type} {r : Ref} {f : Object → Eval α} {s : State} :
    (Eval.read r >>= f) s = f (s.store.get r) s :=
  rfl

/-- What evaluation preserves, as predicates on states. -/
structure Invariant where
  holds : State → Prop
  good : State → Item → Prop
  home : State → ScopeId → Prop
  failed : State → Ref → Prop
  /-- Only well-formed trees are run. -/
  strict : Prop

namespace Invariant

structure Later (I : Invariant) (s s' : State) : Prop where
  holds : I.holds s'
  good : ∀ {item}, I.good s item → I.good s' item
  home : ∀ {id}, I.home s id → I.home s' id

/-- An object that may be created. It is no error, which would be created to fail with it. -/
structure Fit (I : Invariant) (s : State) (o : Object) : Prop where
  not_error : o.kind ≠ .error
  part : ∀ {j}, Part o j → I.good s j
  closed : ∀ {params body scope}, o = .function params body scope →
    scope.isSome ∧ (I.strict → body.WellFormed)

/-- The invariant survives each effect of evaluation. -/
structure Stable (I : Invariant) : Prop where
  boolean : ∀ {s}, I.holds s → ∀ b, I.good s (.object (.ofBool b))
  null : ∀ {s}, I.holds s → I.good s (.object .null)
  builtin : ∀ {s}, I.holds s → ∀ b, I.good s (.object (.ofBuiltin b))
  edge : ∀ {s i j}, I.holds s → I.good s i → Edge s.store i j → I.good s j
  scope : ∀ {s id}, I.home s id → I.good s (.scope id)
  body : ∀ {s r params body closure}, I.holds s → I.good s (.object r) →
    s.store.get r = .function params body closure → I.strict → body.WellFormed
  alloc : ∀ {s o}, I.holds s → I.Fit s o →
    I.Later s (s.alloc o).2 ∧ I.good (s.alloc o).2 (.object (s.alloc o).1)
  fail : ∀ {s} e, I.holds s →
    I.Later s (s.alloc (.error e)).2 ∧ I.failed (s.alloc (.error e)).2 (s.alloc (.error e)).1
  bind : ∀ {s id r} name, I.holds s → I.home s id → I.good s (.object r) →
    I.Later s { s with store := s.store.bind id name r }
  newScope : ∀ {s r params body closure}, I.holds s → I.good s (.object r) →
    s.store.get r = .function params body closure →
    I.Later s { s with store := (s.store.newScope closure).2 } ∧
      I.home { s with store := (s.store.newScope closure).2 } (s.store.newScope closure).1
  count : ∀ {s}, I.holds s → I.Later s { s with statements := s.statements + 1 }
  trace : ∀ {s} message, I.holds s → I.Later s (s.trace message)
  failed_trace : ∀ {s r} message, I.failed s r → I.failed (s.trace message) r
  write : ∀ {s b output}, I.holds s → s.output.write? b = some output →
    I.Later s { s with output := output }

variable {I : Invariant} {α β : Type} {s s' s'' : State} {r : Ref} {o : Object}
  {P : State → α → Prop} {Q : State → β → Prop}

theorem Later.refl (h : I.holds s) : I.Later s s := ⟨h, id, id⟩

theorem Later.trans (h : I.Later s s') (h' : I.Later s' s'') : I.Later s s'' :=
  ⟨h'.holds, h'.good ∘ h.good, h'.home ∘ h.home⟩

/-- What an abrupt end carries. A well-formed tree has no defect. -/
def Exit (I : Invariant) (s : State) : Abrupt → Prop
  | .returning r => I.good s (.object r)
  | .failed r => I.failed s r
  | .defect _ => ¬ I.strict
  | .outOfFuel => True

/-- The invariant survives a computation that began in `s`, and its result satisfies `P`. -/
def Ends (I : Invariant) (s : State) (P : State → α → Prop) :
    EStateM.Result Abrupt State α → Prop
  | .ok a s' => I.Later s s' ∧ P s' a
  | .error e s' => I.Later s s' ∧ I.Exit s' e

def Value (I : Invariant) (s : State) (r : Ref) : Prop :=
  I.good s (.object r)

theorem Ends.before (hl : I.Later s s') {x : EStateM.Result Abrupt State α}
    (hx : I.Ends s' P x) : I.Ends s P x := by
  cases x with
  | ok a t => exact ⟨hl.trans hx.1, hx.2⟩
  | error e t => exact ⟨hl.trans hx.1, hx.2⟩

theorem Ends.bind {x : Eval α} {f : α → Eval β} (hx : I.Ends s P (x s))
    (hf : ∀ a t, I.Later s t → P t a → I.Ends t Q (f a t)) : I.Ends s Q ((x >>= f) s) := by
  change I.Ends s Q (EStateM.bind x f s)
  unfold EStateM.bind
  cases hr : x s with
  | ok a t =>
    rw [hr] at hx
    exact (hf a t hx.1 hx.2).before hx.1
  | error e t =>
    rw [hr] at hx
    exact hx

theorem Ends.pure {a : α} (hs : I.holds s) (ha : P s a) :
    I.Ends s P ((Pure.pure a : Eval α) s) :=
  ⟨.refl hs, ha⟩

theorem Ends.throw {e : Abrupt} (hs : I.holds s) (he : I.Exit s e) :
    I.Ends s P ((throw e : Eval α) s) :=
  ⟨.refl hs, he⟩

theorem Ends.get {f : State → Eval α} (hf : I.Ends s P (f s s)) : I.Ends s P ((get >>= f) s) :=
  hf

theorem Ends.read {f : Object → Eval α} (hf : ∀ o, s.store.get r = o → I.Ends s P (f o s)) :
    I.Ends s P ((Eval.read r >>= f) s) :=
  hf _ rfl

theorem Ends.catchReturn {x : Eval Ref} (hx : I.Ends s I.Value (x s)) :
    I.Ends s I.Value (Eval.catchReturn x s) := by
  unfold Eval.catchReturn
  cases hr : x s with
  | ok r t =>
    rw [hr] at hx
    exact hx
  | error e t =>
    rw [hr] at hx
    cases e with
    | returning r => exact hx
    | failed r => exact hx
    | defect d => exact hx
    | outOfFuel => exact hx

section Stable

variable (hI : I.Stable) (hs : I.holds s)

include hI hs

theorem Stable.ends_alloc (ho : I.Fit s o) : I.Ends s I.Value (Eval.alloc o s) :=
  hI.alloc hs ho

theorem Stable.ends_fail (e : RuntimeError) : I.Ends s P (Eval.fail e s) :=
  hI.fail e hs

theorem Stable.ends_trace {f : Unit → Eval α} (message : Unit → Bytes)
    (hf : ∀ t, I.Later s t → I.Ends t P (f () t)) :
    I.Ends s P ((Eval.trace message >>= f) s) :=
  (hf _ (hI.trace message hs)).before (hI.trace message hs)

theorem Stable.ends_count {f : Unit → Eval α} (hf : ∀ t, I.Later s t → I.Ends t P (f () t)) :
    I.Ends s P ((Eval.count >>= f) s) :=
  (hf _ (hI.count hs)).before (hI.count hs)

end Stable

theorem Stable.ends_traceFailure (hI : I.Stable) {x : Eval Ref} (message : Bytes → Bytes)
    (hx : I.Ends s I.Value (x s)) : I.Ends s I.Value (Eval.traceFailure message x s) := by
  unfold Eval.traceFailure
  cases hr : x s with
  | ok r t =>
    rw [hr] at hx
    exact hx
  | error e t =>
    rw [hr] at hx
    cases e with
    | returning r => exact hx
    | failed r => exact ⟨hx.1.trans (hI.trace _ hx.1.holds), hI.failed_trace _ hx.2⟩
    | defect d => exact hx
    | outOfFuel => exact hx

end Invariant

structure Object.Plain (o : Object) : Prop where
  not_error : o.kind ≠ .error
  not_function : o.kind ≠ .function
  no_part : ∀ j, ¬ Part o j

namespace Object

theorem plain_number (v : Float) : Plain (.number v) :=
  ⟨nofun, nofun, nofun⟩

theorem plain_string (b : Bytes) : Plain (.string b) :=
  ⟨nofun, nofun, nofun⟩

theorem plain_boolean (b : Bool) : Plain (.boolean b) :=
  ⟨nofun, nofun, nofun⟩

end Object

theorem UnaryOp.plain_of_apply {op : UnaryOp} {o o' : Object} (h : op.apply o = .ok o') :
    o'.Plain := by
  unfold UnaryOp.apply at h
  split at h
  · cases h; exact Object.plain_boolean _
  · cases h; exact Object.plain_number _
  · cases h
  · cases h

theorem BinaryOp.plain_of_onNumbers {op : BinaryOp} {l r : Float} {o : Object}
    (h : op.onNumbers l r = .ok o) : o.Plain := by
  cases op <;> simp only [onNumbers, reduceCtorEq, Except.ok.injEq] at h
  case div =>
    split at h
    · cases h
    · cases h; exact Object.plain_number _
  all_goals subst h
  all_goals first | exact Object.plain_number _ | exact Object.plain_boolean _

theorem BinaryOp.plain_of_apply {op : BinaryOp} {l r o : Object} (h : op.apply l r = .ok o) :
    o.Plain := by
  unfold BinaryOp.apply at h
  split at h
  · exact plain_of_onNumbers h
  · cases op <;> simp only [onStrings, reduceCtorEq, Except.ok.injEq] at h
    exact h ▸ Object.plain_string _
  · exact plain_of_onNumbers h
  · exact plain_of_onNumbers h
  · cases h

theorem Builtin.plain_of_sizeOf? {o o' : Object} (h : Builtin.sizeOf? o = .ok o') : o'.Plain := by
  cases o <;> simp only [sizeOf?, reduceCtorEq, Except.ok.injEq] at h
  all_goals exact h ▸ Object.plain_number _

theorem Builtin.eq_of_pushed {target o : Object} {more : List Ref}
    (h : Builtin.pushed target more = .ok o) :
    ∃ es, target = .array es ∧ o = .array (es ++ if more.isEmpty then [Ref.null] else more) := by
  cases target <;> simp only [pushed, reduceCtorEq, Except.ok.injEq] at h
  exact ⟨_, rfl, h.symm⟩

namespace Invariant

variable {I : Invariant} {s : State} {scope : ScopeId} {r : Ref} {rs : List Ref}

def Keeps (I : Invariant) (scope : ScopeId) (ev : Expr → Eval Ref) : Prop :=
  ∀ e s, I.holds s → I.home s scope → (I.strict → e.WellFormed) → I.Ends s I.Value (ev e s)

def Values (I : Invariant) (s : State) (rs : List Ref) : Prop :=
  ∀ r ∈ rs, I.good s (.object r)

def Entries (I : Invariant) (s : State) (d : Dict Ref) : Prop :=
  ∀ k r, d.get? k = some r → I.good s (.object r)

theorem Values.later {t : State} (h : I.Values s rs) (hl : I.Later s t) : I.Values t rs :=
  fun r hr => hl.good (h r hr)

namespace Fit

theorem of_plain {o : Object} (h : o.Plain) : I.Fit s o where
  not_error := h.not_error
  part hj := absurd hj (h.no_part _)
  closed ho := absurd (congrArg Object.kind ho) h.not_function

theorem array (h : I.Values s rs) : I.Fit s (.array rs) where
  not_error := nofun
  part hj := by
    cases hj with
    | element hm => exact h _ hm
  closed := nofun

theorem hash {d : Dict Ref} (h : I.Entries s d) : I.Fit s (.hash d) where
  not_error := nofun
  part hj := by
    cases hj with
    | value hk => exact h _ _ hk
  closed := nofun

theorem function {params : List Bytes} {body : Block} (hid : I.good s (.scope scope))
    (hw : I.strict → body.WellFormed) : I.Fit s (.function params body (some scope)) where
  not_error := nofun
  part hj := by
    cases hj with
    | closure => exact hid
  closed := by
    rintro _ _ _ ⟨⟩
    exact ⟨rfl, hw⟩

end Fit

namespace Stable

variable (hI : I.Stable) (hs : I.holds s)

include hI

theorem good_of_lookupWithin (hs : I.holds s) {name : Bytes} {n : Nat} {id : ScopeId}
    (hid : I.good s (.scope id)) (h : s.store.lookupWithin name n id = some r) :
    I.good s (.object r) := by
  induction n generalizing id with
  | zero => cases h
  | succ n ih =>
    simp only [Store.lookupWithin, Option.bind_eq_bind, Option.bind_eq_some_iff] at h
    obtain ⟨sc, hsc, h⟩ := h
    split at h
    · rename_i r' hr'
      cases h
      exact hI.edge hs hid (.binding hsc hr')
    · obtain ⟨o, ho, h⟩ := Option.bind_eq_some_iff.mp h
      exact ih (hI.edge hs hid (.outer hsc ho)) h

include hs

theorem ends_yield {o : Object} (ho : I.Fit s o) : I.Ends s I.Value (Eval.yield o s) := by
  cases o with
  | boolean b => exact .pure hs (hI.boolean hs b)
  | null => exact .pure hs (hI.null hs)
  | builtin b => exact .pure hs (hI.builtin hs b)
  | error e => exact absurd rfl ho.not_error
  | _ => exact hI.ends_alloc hs ho

theorem ends_ofResult {x : Except RuntimeError Object} (hx : ∀ o, x = .ok o → I.Fit s o) :
    I.Ends s I.Value (Eval.ofResult x s) := by
  cases x with
  | ok o => exact hI.ends_yield hs (hx o rfl)
  | error e => exact hI.ends_fail hs e

theorem ends_ofPlain {x : Except RuntimeError Object} (hx : ∀ o, x = .ok o → o.Plain) :
    I.Ends s I.Value (Eval.ofResult x s) :=
  hI.ends_ofResult hs fun o ho => .of_plain (hx o ho)

theorem ends_identifier (hid : I.home s scope) (name : Bytes) :
    I.Ends s I.Value (Eval.identifier scope name s) := by
  refine .get ?_
  cases hr : s.store.lookup scope name with
  | some r => exact .pure hs (hI.good_of_lookupWithin hs (hI.scope hid) hr)
  | none =>
    cases Builtin.ofName? name with
    | some b => exact .pure hs (hI.builtin hs b)
    | none => exact hI.ends_fail hs _

theorem ends_bind (hid : I.home s scope) (hr : I.good s (.object r)) (name : Bytes) :
    I.Ends s I.Value (Eval.bind scope name r s) := by
  unfold Eval.bind
  split
  · exact hI.ends_fail hs _
  · have hb := hI.bind name hs hid hr
    have ht := hb.trans (hI.trace (fun _ => text "eval let " ++ name ++ text " to " ++
      ((s.store.bind scope name r).get r).inspect) hb.holds)
    exact ⟨ht, ht.good hr⟩

theorem ends_printLine (args : List Ref) : I.Ends s I.Value (Builtin.printLine args s) := by
  refine .get ?_
  cases ho : s.output.write? _ with
  | some output => exact ⟨hI.write hs ho, hI.null (hI.write hs ho).holds⟩
  | none => exact hI.ends_fail hs _

theorem ends_builtin (b : Builtin) {args : List Ref} (ha : I.Values s args) :
    I.Ends s I.Value (b.run args s) := by
  unfold Builtin.run
  split
  · exact .read fun o _ => hI.ends_ofPlain hs fun o ho => Builtin.plain_of_sizeOf? ho
  · refine .read fun o _ => hI.ends_ofPlain hs fun o ho => ?_
    cases ho
    exact Object.plain_string _
  · rename_i r more
    refine .read fun target ht => hI.ends_ofResult hs fun o ho => ?_
    obtain ⟨es, rfl, rfl⟩ := Builtin.eq_of_pushed ho
    apply Fit.array
    intro r' hm
    rcases List.mem_append.mp hm with hm | hm
    · have hr : I.good s (.object r) := ha r List.mem_cons_self
      exact hI.edge hs hr (.part (ht.symm ▸ .element hm))
    · split at hm
      · rw [List.mem_singleton.mp hm]
        exact hI.null hs
      · exact ha _ (List.mem_cons_of_mem _ hm)
  · exact hI.ends_printLine hs _
  · exact hI.ends_fail hs _

theorem ends_element {elements args : List Ref} (he : I.Values s elements) :
    I.Ends s I.Value (Eval.element elements args s) := by
  unfold Eval.element
  split
  · refine .read fun o _ => ?_
    cases o.offset elements.length with
    | ok i =>
      refine .pure hs ?_
      rw [List.getD_eq_getElem?_getD]
      cases hget : elements[i]? with
      | none => exact hI.null hs
      | some r => exact he r (List.mem_of_getElem? hget)
    | error e => exact hI.ends_fail hs e
  · exact hI.ends_fail hs _

theorem ends_byteAt (b : Bytes) (args : List Ref) :
    I.Ends s I.Value (Eval.byteAt b args s) := by
  unfold Eval.byteAt
  split
  · refine .read fun o _ => ?_
    cases o.offset b.length with
    | ok i => exact hI.ends_alloc hs (.of_plain (Object.plain_string _))
    | error e => exact hI.ends_fail hs e
  · exact hI.ends_fail hs _

theorem ends_entry {pairs : Dict Ref} {args : List Ref} (hp : I.Entries s pairs) :
    I.Ends s I.Value (Eval.entry pairs args s) := by
  unfold Eval.entry
  split
  · refine .read fun o _ => ?_
    cases o with
    | string k =>
      refine .pure hs ?_
      cases hget : pairs.get? k with
      | none => exact hI.null hs
      | some r => exact hp k r hget
    | _ => exact hI.ends_fail hs _
  · exact hI.ends_fail hs _

end Stable

section Parts

variable {ev : Expr → Eval Ref} (hev : I.Keeps scope ev)

include hev

theorem Keeps.ends_all (es : List Expr) (hs : I.holds s) (hid : I.home s scope)
    (hw : I.strict → ∀ e ∈ es, e.WellFormed) : I.Ends s I.Values (Eval.all ev es s) := by
  induction es generalizing s with
  | nil => exact .pure hs nofun
  | cons e es ih =>
    rw [List.forall_mem_cons] at hw
    refine (hev e s hs hid fun h => (hw h).1).bind fun r t ht hr => ?_
    refine (ih ht.holds (ht.home hid) fun h => (hw h).2).bind fun rs u hu hrs => ?_
    refine .pure hu.holds fun r' hr' => ?_
    rcases List.mem_cons.mp hr' with rfl | hr'
    · exact hu.good hr
    · exact hrs r' hr'

variable (hI : I.Stable)

include hI

theorem Keeps.ends_pairs (count : Nat) (ks : List Expr) :
    ∀ {s : State} (index : Nat) (vs : List Expr) (d : Dict Ref), I.holds s → I.home s scope →
      I.Entries s d → (I.strict → Expr.Paired ks vs) →
      I.Ends s I.Entries (Eval.pairs ev count index ks vs d s) := by
  induction ks with
  | nil => exact fun index vs d hs hid hd _ => .pure hs hd
  | cons k ks ih =>
    intro s index vs d hs hid hd hw
    have hk (h : I.strict) := (hw h).keys k List.mem_cons_self
    refine (hev k s hs hid hk).bind fun key t ht _ => .read fun o _ => ?_
    cases o with
    | string name =>
      cases vs with
      | nil => exact .throw ht.holds fun h => nomatch (hw h).length
      | cons v vs =>
        have hv (h : I.strict) := (hw h).values v List.mem_cons_self
        refine (hev v t ht.holds (ht.home hid) hv).bind fun value u hu hvalue => ?_
        apply ih (index + 1) vs _ hu.holds (hu.home (ht.home hid)) ?_ fun h => (hw h).tail
        intro k r hk
        rw [Dict.get?_insert] at hk
        split at hk
        · cases hk
          exact hvalue
        · exact hu.good (ht.good (hd k r hk))
    | _ => exact hI.ends_fail ht.holds _

end Parts

mutual

theorem Keeps.ends_stmt {ev : Expr → Eval Ref} (hev : I.Keeps scope ev) (hI : I.Stable) (st : Stmt)
    {s : State} (hs : I.holds s) (hid : I.home s scope) (hw : I.strict → st.WellFormed) :
    I.Ends s I.Value (st.run ev scope s) := by
  unfold Stmt.run
  cases st with
  | bind token target value =>
    have hvalue := hev value s hs hid fun h => (hw h).bound
    refine (hI.ends_traceFailure _ hvalue).bind fun r t ht hr => ?_
    exact hI.ends_bind ht.holds (ht.home hid) hr _
  | give token value =>
    exact (hev value s hs hid fun h => (hw h).given).bind fun r t ht hr => .throw ht.holds hr
  | expr token value => exact hev value s hs hid fun h => (hw h).value
  | block b => exact hev.ends_block hI b hs hid fun h => (hw h).inner

theorem Keeps.ends_block {ev : Expr → Eval Ref} (hev : I.Keeps scope ev) (hI : I.Stable) (b : Block)
    {s : State} (hs : I.holds s) (hid : I.home s scope) (hw : I.strict → b.WellFormed) :
    I.Ends s I.Value (b.run ev scope s) := by
  unfold Block.run
  cases b with
  | mk token body => exact hev.ends_runAll hI body hs hid (hI.null hs) fun h => (hw h).body

theorem Keeps.ends_runAll {ev : Expr → Eval Ref} (hev : I.Keeps scope ev) (hI : I.Stable)
    (body : List Stmt) {s : State} {last : Ref} (hs : I.holds s) (hid : I.home s scope)
    (hl : I.good s (.object last)) (hw : I.strict → ∀ st ∈ body, st.WellFormed) :
    I.Ends s I.Value (Stmt.runAll ev scope last body s) := by
  unfold Stmt.runAll
  cases body with
  | nil => exact .pure hs hl
  | cons st rest =>
    rw [List.forall_mem_cons] at hw
    refine hI.ends_count hs fun t ht => ?_
    have hst := hev.ends_stmt hI st ht.holds (ht.home hid) fun h => (hw h).1
    refine hst.bind fun r u hu hr => ?_
    exact hev.ends_runAll hI rest hu.holds (hu.home (ht.home hid)) hr fun h => (hw h).2

end

section Branches

variable {ev : Expr → Eval Ref} (hev : I.Keeps scope ev) (hI : I.Stable)

include hev hI

theorem Keeps.ends_choose (condition : Expr) (consequence : Block) (alternative : Option Block)
    (hs : I.holds s) (hid : I.home s scope) (hc : I.strict → condition.WellFormed)
    (hb : I.strict → consequence.WellFormed) (ha : I.strict → ∀ b ∈ alternative, b.WellFormed) :
    I.Ends s I.Value (Eval.choose ev scope condition consequence alternative s) := by
  refine (hev condition s hs hid hc).bind fun r t ht _ => .read fun o _ => ?_
  have branch (b : Block) (hb : I.strict → b.WellFormed) (u) (hu : I.Later t u) :
      I.Ends u I.Value (b.run ev scope u) :=
    hev.ends_block hI b hu.holds (hu.home (ht.home hid)) hb
  cases o with
  | boolean b =>
    cases b with
    | true => exact hI.ends_trace ht.holds _ (branch consequence hb)
    | false =>
      cases alternative with
      | some b => exact hI.ends_trace ht.holds _ (branch b fun h => ha h b rfl)
      | none => exact .pure ht.holds (hI.null ht.holds)
  | _ => exact hI.ends_fail ht.holds _

theorem Keeps.ends_shortCircuit (decisive : Bool) (left right : Expr) (hs : I.holds s)
    (hid : I.home s scope) (hl : I.strict → left.WellFormed) (hr : I.strict → right.WellFormed) :
    I.Ends s I.Value (Eval.shortCircuit ev decisive left right s) := by
  refine (hev left s hs hid hl).bind fun l t ht _ => .read fun o _ => ?_
  cases o with
  | boolean b =>
    dsimp only
    split
    · exact .pure ht.holds (hI.boolean ht.holds b)
    · refine (hev right t ht.holds (ht.home hid) hr).bind fun r u hu hr => .read fun o' _ => ?_
      cases o' with
      | boolean _ => exact .pure hu.holds hr
      | _ => exact hI.ends_fail hu.holds _
  | _ => exact hI.ends_fail ht.holds _

end Branches

section Calls

variable {ev : ScopeId → Expr → Eval Ref} (hev : ∀ scope, I.Keeps scope (ev scope)) (hI : I.Stable)

include hI

theorem Stable.later_bindParams (params : List (Bytes × Ref)) (hs : I.holds s)
    (hid : I.home s scope) (hp : ∀ p ∈ params, I.good s (.object p.2)) :
    I.Later s { s with store := Eval.bindParams s.store scope params } := by
  induction params generalizing s with
  | nil => exact .refl hs
  | cons p rest ih =>
    have hb := hI.bind p.1 hs hid (hp p List.mem_cons_self)
    exact hb.trans (ih hb.holds (hb.home hid) fun q hq =>
      hb.good (hp q (List.mem_cons_of_mem _ hq)))

include hev

theorem Stable.ends_apply {callee : Ref} {params : List Bytes} {body : Block}
    {closure : Option ScopeId} {args : List Ref} (hs : I.holds s) (hc : I.good s (.object callee))
    (ho : s.store.get callee = .function params body closure) (ha : I.Values s args) :
    I.Ends s I.Value (Eval.apply ev params body closure args s) := by
  unfold Eval.apply
  split
  · exact hI.ends_fail hs _
  · obtain ⟨hn, hhome⟩ := hI.newScope hs hc ho
    have hb := hI.later_bindParams (params.zip args) hn.holds hhome
      fun p hp => hn.good (ha p.2 (List.of_mem_zip hp).2)
    have hbody := (hev _).ends_block hI body hb.holds (hb.home hhome) (hI.body hs hc ho)
    exact hbody.catchReturn.before (hn.trans hb)

theorem Stable.ends_call {callee : Ref} {args : List Ref} (hs : I.holds s)
    (hc : I.good s (.object callee)) (ha : I.Values s args) :
    I.Ends s I.Value (Eval.call ev callee args s) := by
  refine .read fun o ho => ?_
  have hpart : ∀ j, Part o j → I.good s j := fun j hj => hI.edge hs hc (.part (ho ▸ hj))
  cases o with
  | function params body closure =>
    exact hI.ends_apply hev hs hc ho ha
  | builtin b =>
    exact hI.ends_trace hs _ fun t ht => hI.ends_builtin ht.holds b (ha.later ht)
  | array elements => exact hI.ends_element hs fun e he => hpart _ (.element he)
  | string b => exact hI.ends_byteAt hs b args
  | hash pairs => exact hI.ends_entry hs fun k r hk => hpart _ (.value hk)
  | _ => exact hI.ends_fail hs _

/-- Evaluation keeps an invariant if the evaluation of parts does. -/
theorem Stable.keeps_step (scope : ScopeId) : I.Keeps scope (Expr.step ev scope) := by
  intro e s hs hid hw
  unfold Expr.step
  split
  · exact .throw hs fun h => nomatch hw h
  · exact hI.ends_identifier hs hid _
  · exact hI.ends_alloc hs (.of_plain (Object.plain_number _))
  · exact hI.ends_alloc hs (.of_plain (Object.plain_string _))
  · exact .pure hs (hI.boolean hs _)
  · exact .pure hs (hI.null hs)
  · rename_i es
    refine ((hev scope).ends_all es hs hid fun h => (hw h).elements).bind fun rs t ht hrs => ?_
    exact hI.ends_alloc ht.holds (.array hrs)
  · rename_i ks vs
    have hpairs := (hev scope).ends_pairs hI vs.length ks 0 vs .empty hs hid nofun
      fun h => (hw h).paired
    refine hpairs.bind fun d t ht hd => ?_
    exact hI.ends_alloc ht.holds (.hash hd)
  · rename_i op e
    refine (hev scope e s hs hid fun h => (hw h).operand).bind fun r t ht _ => .read fun o _ => ?_
    exact hI.ends_ofPlain ht.holds fun o' ho' => UnaryOp.plain_of_apply ho'
  · exact (hev scope).ends_shortCircuit hI false _ _ hs hid (fun h => (hw h).left)
      fun h => (hw h).right
  · exact (hev scope).ends_shortCircuit hI true _ _ hs hid (fun h => (hw h).left)
      fun h => (hw h).right
  · rename_i l op r _ _
    refine (hev scope l s hs hid fun h => (hw h).left).bind fun left t ht _ => ?_
    have hr := hev scope r t ht.holds (ht.home hid) fun h => (hw h).right
    refine hr.bind fun right u hu _ => .read fun o _ => .read fun o' _ => ?_
    exact hI.ends_ofPlain hu.holds fun o'' ho'' => BinaryOp.plain_of_apply ho''
  · exact (hev scope).ends_choose hI _ _ _ hs hid (fun h => (hw h).condition)
      (fun h => (hw h).consequence) fun h => (hw h).alternative
  · exact hI.ends_alloc hs (.function (hI.scope hid) fun h => (hw h).body)
  · rename_i f args
    have hall {t : State} (ht : I.holds t) (hid : I.home t scope) :=
      (hev scope).ends_all args ht hid fun h => (hw h).args
    split
    · cases Builtin.ofName? f.print with
      | none => exact hI.ends_fail hs _
      | some b =>
        refine (hall hs hid).bind fun rs t ht hrs => ?_
        exact hI.ends_trace ht.holds _ fun u hu => hI.ends_builtin hu.holds b (hrs.later hu)
    · refine (hev scope f s hs hid fun h => (hw h).callee).bind fun callee t ht hc => ?_
      refine (hall ht.holds (ht.home hid)).bind fun rs u hu hrs => ?_
      exact hI.ends_call hev hu.holds (hu.good hc) hrs

end Calls

theorem Stable.keeps_eval (hI : I.Stable) (fuel : Nat) (scope : ScopeId) :
    I.Keeps scope (Expr.eval fuel scope) := by
  induction fuel generalizing scope with
  | zero => exact fun e s hs _ _ => .throw hs trivial
  | succ fuel ih => exact hI.keeps_step ih scope

/-- The invariant survives a collection between two statements of a program: the program goes on in
its scope, and the value of the last statement is still in good order. -/
def SurvivesCollection (I : Invariant) : Prop :=
  ∀ {s scope r}, I.holds s → I.home s scope → I.good s (.object r) →
    I.holds (s.collectIfDue scope r) ∧ I.home (s.collectIfDue scope r) scope ∧
      I.good (s.collectIfDue scope r) (.object r)

def Finishes (I : Invariant) (scope : ScopeId) : EStateM.Result Abrupt State Ref → Prop
  | .ok r s => I.holds s ∧ I.home s scope ∧ I.good s (.object r)
  | .error e s => I.holds s ∧ I.home s scope ∧ I.Exit s e

theorem Keeps.finishes_runAll {ev : Expr → Eval Ref} (hev : I.Keeps scope ev) (hI : I.Stable)
    (hc : I.SurvivesCollection) (body : List Stmt) {last : Ref} (hs : I.holds s)
    (hid : I.home s scope) (hl : I.good s (.object last))
    (hw : I.strict → ∀ st ∈ body, st.WellFormed) :
    I.Finishes scope (Program.runAll ev scope last body s) := by
  induction body generalizing s last with
  | nil => exact ⟨hs, hid, hl⟩
  | cons st rest ih =>
    rw [List.forall_mem_cons] at hw
    have ht := hI.count hs
    have hst := hev.ends_stmt hI st ht.holds (ht.home hid) fun h => (hw h).1
    change I.Finishes scope (EStateM.bind (st.run ev scope) _ _)
    unfold EStateM.bind
    cases hr : st.run ev scope { s with statements := s.statements + 1 } with
    | ok r u =>
      rw [hr] at hst
      obtain ⟨hh, hhome, hgood⟩ := hc hst.1.holds (hst.1.home (ht.home hid)) hst.2
      exact ih hh hhome hgood fun h => (hw h).2
    | error e u =>
      rw [hr] at hst
      exact ⟨hst.1.holds, hst.1.home (ht.home hid), hst.2⟩

theorem Stable.finishes_program (hI : I.Stable) (hc : I.SurvivesCollection) (fuel : Nat)
    (p : Program) (hs : I.holds s) (hid : I.home s scope) (hw : I.strict → p.WellFormed) :
    I.Finishes scope (p.run fuel scope s) := by
  have ht := hI.trace (fun _ => text "eval program (" ++ Bytes.ofNat p.body.length ++
    text " statements)") hs
  exact (hI.keeps_eval fuel scope).finishes_runAll hI hc p.body ht.holds (ht.home hid)
    (hI.null ht.holds) hw

end Invariant

end CornScript
