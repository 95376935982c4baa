import CornScript.Proofs.Eval.Discipline

/-! # What evaluation leaves alone

Evaluation in a scope binds names in that scope and in the scopes of the calls that it makes, and in
no other. Nothing is ever taken away: objects stay as they are, names stay bound, and a scope stays
inside the scope that it was opened in. A call binds names in new scopes only, so it changes no
variable that can be seen from any scope that is there when it begins.
-/

namespace CornScript

namespace Store

/-- All that exists in `s` exists in `t`: objects as they are, and scopes inside the same scopes and
with all names bound that are bound. -/
structure Grows (s t : Store) : Prop where
  objects : s.objects.size ≤ t.objects.size
  scopes : s.scopes.size ≤ t.scopes.size
  get : ∀ {r : Ref}, r.index < s.objects.size → t.get r = s.get r
  scope : ∀ {id sc}, s.scope? id = some sc → ∃ sc', t.scope? id = some sc' ∧ sc'.outer = sc.outer ∧
    ∀ {name}, (sc.bindings.get? name).isSome → (sc'.bindings.get? name).isSome

def IsNew (s : Store) (id : ScopeId) : Prop :=
  s.scopes.size ≤ id.index

/-- Besides, names may have been bound in the scopes that are `touched`, and in no other. -/
structure Frame (touched : ScopeId → Prop) (s t : Store) : Prop extends Grows s t where
  kept : ∀ {id}, ¬ s.IsNew id → ¬ touched id → t.scope? id = s.scope? id

def Nested (s : Store) : Prop :=
  ∀ {id sc outer}, s.scope? id = some sc → sc.outer = some outer → outer.index < id.index

variable {s t u : Store} {id scope : ScopeId} {touched : ScopeId → Prop}

@[simp] theorem size_scopes_newScope (s : Store) (closure : Option ScopeId) :
    (s.newScope closure).2.scopes.size = s.scopes.size + 1 := by
  simp [newScope]

theorem index_lt_of_scope? {sc : Scope} (h : s.scope? id = some sc) : id.index < s.scopes.size := by
  obtain ⟨hlt, -⟩ := Array.getElem?_eq_some_iff.mp h
  exact hlt

namespace Grows

theorem refl (s : Store) : s.Grows s :=
  ⟨Nat.le_refl _, Nat.le_refl _, fun _ => rfl, fun h => ⟨_, h, rfl, id⟩⟩

theorem trans (h : s.Grows t) (h' : t.Grows u) : s.Grows u where
  objects := h.objects.trans h'.objects
  scopes := h.scopes.trans h'.scopes
  get hr := (h'.get (hr.trans_le h.objects)).trans (h.get hr)
  scope hsc := by
    obtain ⟨sc', hsc', houter', hbound'⟩ := h.scope hsc
    obtain ⟨sc'', hsc'', houter'', hbound''⟩ := h'.scope hsc'
    exact ⟨sc'', hsc'', houter''.trans houter', fun hname => hbound'' (hbound' hname)⟩

theorem alloc (s : Store) (o : Object) : s.Grows (s.alloc o).2 where
  objects := by simp [Store.alloc]
  scopes := Nat.le_refl _
  get hr := (s.get_alloc o _).trans (if_neg (Nat.ne_of_lt hr))
  scope h := ⟨_, h, rfl, id⟩

theorem bind (s : Store) (id : ScopeId) (name : Bytes) (r : Ref) : s.Grows (s.bind id name r) where
  objects := Nat.le_refl _
  scopes := by simp
  get _ := rfl
  scope {id' sc} h := by
    rw [scope?_bind, h]
    split
    · refine ⟨_, rfl, rfl, fun {name'} hname => ?_⟩
      rw [Dict.get?_insert]
      split
      · rfl
      · exact hname
    · exact ⟨_, rfl, rfl, fun hname => hname⟩

theorem newScope (s : Store) (closure : Option ScopeId) : s.Grows (s.newScope closure).2 where
  objects := Nat.le_refl _
  scopes := by simp
  get _ := rfl
  scope h := by
    rw [scope?_newScope, if_neg (Nat.ne_of_lt (index_lt_of_scope? h))]
    exact ⟨_, h, rfl, id⟩

theorem bindParams (s : Store) (id : ScopeId) (params : List (Bytes × Ref)) :
    s.Grows (Eval.bindParams s id params) := by
  induction params generalizing s with
  | nil => exact .refl s
  | cons p rest ih => exact (Grows.bind s id p.1 p.2).trans (ih _)

end Grows

namespace Frame

theorem refl (s : Store) : s.Frame touched s :=
  ⟨.refl s, fun _ _ => rfl⟩

theorem trans (h : s.Frame touched t) (h' : t.Frame touched u) : s.Frame touched u where
  toGrows := h.toGrows.trans h'.toGrows
  kept {id} hid htouched := by
    have hid' : ¬ t.IsNew id := fun hnew => hid (h.scopes.trans hnew)
    exact (h'.kept hid' htouched).trans (h.kept hid htouched)

theorem alloc (s : Store) (o : Object) : s.Frame touched (s.alloc o).2 :=
  ⟨.alloc s o, fun _ _ => rfl⟩

theorem bind {s : Store} (name : Bytes) (r : Ref) (h : touched id) :
    s.Frame touched (s.bind id name r) where
  toGrows := .bind s id name r
  kept {id'} _ htouched := by
    have hne : id ≠ id' := fun he => htouched (he ▸ h)
    rw [scope?_bind, if_neg hne]

theorem newScope (s : Store) (closure : Option ScopeId) :
    s.Frame touched (s.newScope closure).2 where
  toGrows := .newScope s closure
  kept hid _ := (s.scope?_newScope closure _).trans (if_neg (Nat.ne_of_lt (Nat.not_le.mp hid)))

/-- Where only new scopes are touched, the variables that can be seen stay as they are. -/
theorem lookup_eq (h : s.Frame s.IsNew t) (hn : s.Nested) (hid : ¬ s.IsNew id) (name : Bytes) :
    t.lookup id name = s.lookup id name := by
  unfold lookup
  generalize id.index + 1 = n
  induction n generalizing id with
  | zero => rfl
  | succ n ih =>
    simp only [lookupWithin]
    rw [h.kept hid hid]
    cases hsc : s.scope? id with
    | none => rfl
    | some sc =>
      simp only [Option.bind_eq_bind, Option.bind_some]
      split
      · rfl
      · cases ho : sc.outer with
        | none => rfl
        | some outer =>
          have hlt : outer.index < id.index := hn hsc ho
          exact ih fun hnew => hid (Nat.le_trans hnew hlt.le)

end Frame

theorem Nested.bind (h : s.Nested) (name : Bytes) (r : Ref) : (s.bind id name r).Nested := by
  intro id' sc outer hsc ho
  rw [scope?_bind] at hsc
  split at hsc
  · obtain ⟨sc', hsc', rfl⟩ := Option.map_eq_some_iff.mp hsc
    exact h hsc' ho
  · exact h hsc ho

theorem Nested.newScope (h : s.Nested) (closure : Option ScopeId) :
    (s.newScope closure).2.Nested := by
  intro id' sc outer hsc ho
  rw [scope?_newScope] at hsc
  split at hsc
  · next hid =>
    cases hsc
    have hlt := (Option.filter_eq_some_iff.mp ho).2
    rw [hid]
    exact of_decide_eq_true hlt
  · exact h hsc ho

end Store

def Invariant.ofStore (holds : Store → Prop) (home : ScopeId → Prop) : Invariant where
  holds s := holds s.store
  good _ _ := True
  home _ id := home id
  failed _ _ := True
  strict := False

namespace Invariant.ofStore

variable {P : Store → Prop} {home : ScopeId → Prop} {s t : State}

theorem later (h : P t.store) : (ofStore P home).Later s t :=
  ⟨h, id, id⟩

theorem stable (halloc : ∀ {s} o, P s → P (s.alloc o).2)
    (hbind : ∀ {s id} name r, home id → P s → P (s.bind id name r))
    (hnew : ∀ {s} closure, P s → P (s.newScope closure).2 ∧ home (s.newScope closure).1) :
    (ofStore P home).Stable where
  boolean _ _ := trivial
  null _ := trivial
  builtin _ _ := trivial
  edge _ _ _ := trivial
  scope _ := trivial
  body _ _ _ h := h.elim
  alloc h _ := ⟨later (halloc _ h), trivial⟩
  fail _ h := ⟨later (halloc _ h), trivial⟩
  bind _ h hid _ := later (hbind _ _ hid h)
  newScope h _ _ := ⟨later (hnew _ h).1, (hnew _ h).2⟩
  count h := later h
  trace _ h := later h
  failed_trace _ h := h
  write h _ := later h

theorem undisturbed : (ofStore P home).Undisturbed := by
  intro s scope r h
  apply later
  rw [State.store_collectIfDue]
  exact h

end Invariant.ofStore

def nesting : Invariant :=
  .ofStore Store.Nested fun _ => True

theorem nesting_universal : nesting.Universal where
  stable := Invariant.ofStore.stable (fun _ h => h) (fun name r _ h => Store.Nested.bind h name r)
    fun closure h => ⟨Store.Nested.newScope h closure, trivial⟩
  store h hst := Invariant.ofStore.later (hst ▸ h)
  home _ _ := trivial
  lax := id

theorem nesting_new {threshold : Nat} {output : Output} {log : Log} :
    nesting.holds (Session.new threshold output log).state :=
  Store.Nested.newScope (s := .initial) nofun none

def framing (s : Store) (touched : ScopeId → Prop) : Invariant :=
  .ofStore (s.Frame touched) touched

section Framing

variable {s : Store} {touched : ScopeId → Prop} (hnew : ∀ id, s.IsNew id → touched id)

include hnew

theorem framing_stable : (framing s touched).Stable :=
  Invariant.ofStore.stable (fun o h => h.trans (.alloc _ o))
    (fun name r hid h => h.trans (.bind name r hid))
    fun closure h => ⟨h.trans (.newScope _ closure), hnew _ h.scopes⟩

theorem framing_recounts {u : State} {scope : ScopeId} (hu : s.Frame touched u.store)
    (hscope : touched scope) (fuel : Nat) (node : Node) :
    (framing s touched).Recounts scope u (framing s touched).Value (node.record fuel scope u)
      (node.run fuel scope u) :=
  Invariant.recounts_node (framing_stable hnew) Invariant.ofStore.undisturbed fuel node hu hscope
    False.elim

end Framing

theorem Event.grows (event : Event) (s : State) : s.store.Grows (event.effect s).store := by
  cases event with
  | create r o => exact .alloc _ _
  | bind id name r => exact .bind _ _ _ _
  | enter id closure params => exact (Store.Grows.newScope _ closure).trans (.bindParams _ _ _)
  | _ => exact .refl _

/-- What the effects of events keep, a record keeps between any two of its states. -/
theorem Accounted.pairwise {R : Store → Store → Prop} (htrans : ∀ {s t u}, R s t → R t u → R s u)
    (hrefl : ∀ s, R s s) (hstep : ∀ (event : Event) s, R s.store (event.effect s).store)
    {s t : State} {ms : List Moment} (h : Accounted s ms t) :
    ((s :: ms.map Moment.state) ++ [t]).Pairwise fun u v => R u.store v.store := by
  have hchain := h.chain (P := fun _ => True) (R := fun u v => R u.store v.store) htrans
    (fun {s t} _ hst => ⟨trivial, State.store_of_muted_eq hst ▸ hrefl s.store⟩) trivial
    fun m _ u _ _ => ⟨trivial, hstep m.event u⟩
  exact hchain.2

structure Eval.Isolated (x : EStateM.Result Abrupt State Ref) (s : State) : Prop where
  frame : s.store.Frame s.store.IsNew (Eval.stateOf x).store
  lookup : ∀ {id}, ¬ s.store.IsNew id → ∀ name,
    (Eval.stateOf x).store.lookup id name = s.store.lookup id name
  value : ∀ {id name r}, s.store.lookup id name = some r →
    (Eval.stateOf x).store.get r = s.store.get r

/-- The evaluation of a tree in a scope binds names in that scope and in new ones, and takes nothing
away. The calls that it may make bind names in new scopes only. -/
structure Node.Framed (node : Node) (fuel : Nat) (scope : ScopeId) (s : State) : Prop where
  frame : s.store.Frame (fun id => id = scope ∨ s.store.IsNew id)
    (node.eval fuel scope s).2.store
  erases : (node.record fuel scope s).2 = node.run fuel scope s
  accounted : Accounted s (node.record fuel scope s).1 (node.eval fuel scope s).2
  between : ∀ m ∈ (node.record fuel scope s).1,
    s.store.Frame (fun id => id = scope ∨ s.store.IsNew id) m.state.store
  course : ((s :: (node.record fuel scope s).1.map Moment.state) ++
    [(node.eval fuel scope s).2]).Pairwise fun u v => u.store.Grows v.store
  call : ∀ callee args, Eval.Isolated (Eval.call (Expr.eval fuel) callee args s) s
  builtin : ∀ (b : Builtin) args, Eval.Isolated (b.run args s) s

namespace Session

variable {threshold : Nat} {output : Output} {log : Log} {s : State}

theorem Passes.isolated (h : Passes threshold output log s) {x : EStateM.Result Abrupt State Ref}
    (hx : (framing s.store s.store.IsNew).Ends s (framing s.store s.store.IsNew).Value x) :
    Eval.Isolated x s where
  frame := hx.later.holds
  lookup := Store.Frame.lookup_eq hx.later.holds (nesting_universal.passes nesting_new h)
  value {id name r} hr := by
    have hscope : discipline.good s (.scope id) := trivial
    have hvalue : s.IsValue r :=
      discipline.stable.good_of_lookupWithin (discipline_passes h) hscope hr
    exact Store.Grows.get (Store.Frame.toGrows hx.later.holds) hvalue.1

/-- In every state that a session goes through, the evaluation of a tree changes no bindings but
those of its own scope and of the scopes that are opened in its course. -/
theorem Passes.framed (h : Passes threshold output log s) (fuel : Nat) (scope : ScopeId)
    (node : Node) : node.Framed fuel scope s := by
  have hown : ∀ id, s.store.IsNew id → id = scope ∨ s.store.IsNew id := fun _ => .inr
  have hrecounts := framing_recounts hown (.refl s.store) (.inl rfl) fuel node
  have hcalls : (framing s.store s.store.IsNew).Stable := framing_stable fun _ => id
  have hstart : s.store.Frame s.store.IsNew s.store := .refl _
  constructor
  case frame =>
    rw [Node.stateOf_run]
    exact hrecounts.ends.later.holds
  case erases => exact hrecounts.erases
  case accounted =>
    rw [Node.stateOf_run]
    exact hrecounts.accounted
  case between => exact fun m hm => (hrecounts.proper m hm).holds
  case course =>
    rw [Node.stateOf_run]
    exact hrecounts.accounted.pairwise .trans .refl Event.grows
  case call =>
    intro callee args
    exact h.isolated (hcalls.ends_call (hcalls.keeps_eval fuel) hstart trivial fun _ _ => trivial)
  case builtin =>
    intro b args
    exact h.isolated (hcalls.ends_builtin hstart b fun _ _ => trivial)

@[simp] theorem scope_perform (s : Session) (act : Act) : (s.perform act).2.scope = s.scope := by
  cases act with
  | exec fuel source =>
    change (s.exec fuel source).2.scope = s.scope
    unfold Session.exec
    cases Program.parse source <;> rfl
  | collect => rfl

def bindSharing : Bytes :=
  text "let f = fn(x) \x7b \x7b'get': fn() \x7b x \x7d, " ++
    text "'set': fn() \x7b let x = [] \x7d\x7d \x7d; let p = f(f)"

def callSharing : Bytes := text "let x = p['set'](); p['get']()"

/-- A session with two functions that share a scope. One binds the name that the other reads. -/
def sharing : Session :=
  ((Session.new 1 .unlimited (.start .info)).perform (.exec 20 bindSharing)).2

theorem size_scopes_sharing : sharing.state.store.scopes.size = 2 := by
  cbv

theorem answer_callSharing : (sharing.exec 20 callSharing).1 = .finished (.value ⟨7⟩) := by
  cbv

theorem Passes.framed_sharing :
    Passes 1 .unlimited (.start .info) sharing.state ∧ ∃ p t,
      Program.parse callSharing = .ok p ∧
      (Node.program p).eval 20 sharing.scope sharing.state = (.value ⟨7⟩, t) ∧
      (Node.program p).Framed 20 sharing.scope sharing.state ∧
      t.store.scope? ⟨1⟩ = sharing.state.store.scope? ⟨1⟩ := by
  have h : Passes 1 .unlimited (.start .info) sharing.state := .reached (.perform _ .new)
  obtain ⟨p, hp, hv⟩ := exists_parse_of_exec answer_callSharing
  have hframed : (Node.program p).Framed 20 sharing.scope sharing.state :=
    h.framed 20 sharing.scope (.program p)
  have hframe := hframed.frame
  have hold : ¬ sharing.state.store.IsNew ⟨1⟩ := by
    rw [Store.IsNew, size_scopes_sharing]
    decide
  have hother : ¬ (⟨1⟩ = sharing.scope ∨ sharing.state.store.IsNew ⟨1⟩) := by
    rintro (hscope | hnew)
    · rw [sharing, scope_perform] at hscope
      cases hscope
    · exact hold hnew
  rw [hv] at hframe
  exact ⟨h, p, _, hp, hv, hframed, hframe.kept hold hother⟩

end Session

end CornScript
