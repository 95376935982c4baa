import CornScript.Proofs.Eval.Invariant
import CornScript.Proofs.Heap.Collection
import CornScript.Session

/-! # Reachable objects are owned

A scope or an object is safe if the heap owns every managed object that it leads to. Evaluation
keeps what is safe and yields safe results, since every object is registered when it is created and
refers only to safe ones. A collection keeps the global scope and the last value safe, since it
frees nothing that they reach. So whatever a session can reach, it owns.
-/

namespace CornScript

open Heap (Item Part Edge Open Reaches)

open Relation (ReflTransGen)

namespace Store

variable {s : Store} {o : Object} {r : Ref}

theorem get_alloc (s : Store) (o : Object) (r : Ref) :
    (s.alloc o).2.get r = if r.index = s.objects.size then o else s.get r := by
  simp only [alloc, get, Array.getD_eq_getD_getElem?, Array.getElem?_push]
  split <;> simp

theorem scope?_newScope (s : Store) (outer : Option ScopeId) (id : ScopeId) :
    (s.newScope outer).2.scope? id =
      if id.index = s.scopes.size then
        some ⟨.empty, outer.filter fun o => o.index < s.scopes.size⟩
      else s.scope? id := by
  simp only [newScope, scope?, Array.getElem?_push]

theorem scope?_newScope_self (s : Store) (outer : Option ScopeId) :
    (s.newScope outer).2.scope? (s.newScope outer).1 =
      some ⟨.empty, outer.filter fun o => o.index < s.scopes.size⟩ :=
  (s.scope?_newScope outer _).trans (if_pos rfl)

theorem scope?_bind (s : Store) (id : ScopeId) (name : Bytes) (r : Ref) (id' : ScopeId) :
    (s.bind id name r).scope? id' =
      if id = id' then (s.scope? id').map fun sc => ⟨sc.bindings.insert name r, sc.outer⟩
      else s.scope? id' := by
  obtain ⟨i⟩ := id
  obtain ⟨j⟩ := id'
  simp only [bind, scope?, Array.getElem?_modify, ScopeId.mk.injEq]

@[simp] theorem size_scopes_bind (s : Store) (id : ScopeId) (name : Bytes) (r : Ref) :
    (s.bind id name r).scopes.size = s.scopes.size := by
  simp [bind]

end Store

theorem Heap.isManaged_of_part {o : Object} {j : Item} (h : Part o j) : o.isManaged = true := by
  cases h <;> rfl

namespace State

variable {s s' : State} {i j item : Item} {r : Ref}

/-- An item exists, and if it is a managed object then the heap owns it. -/
def Sound (s : State) : Item → Prop
  | .object r => r.index < s.store.objects.size ∧
    ((s.store.get r).isManaged = true → s.heap.contains s.handles r = true)
  | .scope id => id.index < s.store.scopes.size

/-- Everything that an item leads to is sound. -/
def Safe (s : State) (item : Item) : Prop :=
  ∀ j, ReflTransGen (Edge s.store) item j → s.Sound j

theorem Safe.sound (h : s.Safe item) : s.Sound item :=
  h item .refl

theorem Safe.edge (h : s.Safe i) (he : Edge s.store i j) : s.Safe j :=
  fun k hk => h k (.head he hk)

theorem safe_of_closed (P : Item → Prop) (hedge : ∀ i j, P i → Edge s.store i j → P j)
    (hsound : ∀ i, P i → s.Sound i) (h : P item) : s.Safe item := by
  intro j hj
  apply hsound
  induction hj with
  | refl => exact h
  | tail _ he ih => exact hedge _ _ ih he

theorem Safe.mono (hedge : ∀ i j, s.Safe i → Edge s'.store i j → s.Safe j)
    (hsound : ∀ i, s.Sound i → s'.Sound i) (h : s.Safe item) : s'.Safe item :=
  safe_of_closed s.Safe hedge (fun i hi => hsound i hi.sound) h

theorem Safe.of_eq (hst : s'.store = s.store) (hh : s'.heap = s.heap) (hhs : s'.handles = s.handles)
    (h : s.Safe item) : s'.Safe item := by
  refine h.mono (fun i j hi he => hi.edge (hst ▸ he)) fun i hi => ?_
  cases i with
  | object r => rwa [Sound, hst, hh, hhs]
  | scope id => rwa [Sound, hst]

section Alloc

variable {o : Object}

theorem sound_alloc (hh : s.heap.Consistent s.handles) (hf : (s.alloc o).2.heap.Fits)
    (h : s.Sound i) : (s.alloc o).2.Sound i := by
  cases i with
  | object r =>
    refine ⟨?_, fun hm => ?_⟩
    · change r.index < (s.store.objects.push o).size
      rw [Array.size_push]
      exact Nat.lt_succ_of_lt h.1
    · refine hh.contains_register_of_contains hf (h.2 ?_)
      have hr : (s.alloc o).2.store.get r = s.store.get r :=
        (s.store.get_alloc o r).trans (if_neg (Nat.ne_of_lt h.1))
      rwa [hr] at hm
  | scope id => exact h

theorem edge_of_edge_alloc (h : s.Sound i) (he : Edge (s.alloc o).2.store i j) :
    Edge s.store i j := by
  cases he with
  | @part r _ hp =>
    have hr := s.store.get_alloc o r
    rw [if_neg (Nat.ne_of_lt h.1)] at hr
    exact .part (hr ▸ hp)
  | binding hsc hk => exact .binding hsc hk
  | outer hsc ho => exact .outer hsc ho

theorem Safe.alloc (hh : s.heap.Consistent s.handles) (hf : (s.alloc o).2.heap.Fits)
    (h : s.Safe item) : (s.alloc o).2.Safe item :=
  h.mono (fun _ _ hi he => hi.edge (edge_of_edge_alloc hi.sound he))
    (fun _ hi => sound_alloc hh hf hi)

/-- A new object is safe if its parts are. -/
theorem safe_alloc_self (hh : s.heap.Consistent s.handles) (hf : (s.alloc o).2.heap.Fits)
    (hp : ∀ j, Part o j → s.Safe j) : (s.alloc o).2.Safe (.object (s.alloc o).1) := by
  have hget : (s.alloc o).2.store.get (s.alloc o).1 = o :=
    (s.store.get_alloc o _).trans (if_pos rfl)
  refine safe_of_closed (fun i => s.Safe i ∨ i = .object (s.alloc o).1) ?_ ?_ (.inr rfl)
  · rintro i j (hi | rfl) he
    · exact .inl (hi.edge (edge_of_edge_alloc hi.sound he))
    · cases he with
      | part hj => exact .inl (hp j (hget ▸ hj))
  · rintro i (hi | rfl)
    · exact sound_alloc hh hf hi.sound
    · refine ⟨?_, fun _ => hh.contains_register hf⟩
      change s.store.objects.size < (s.store.objects.push o).size
      rw [Array.size_push]
      exact Nat.lt_succ_self _

end Alloc

theorem edge_of_edge_bind {store : Store} {id : ScopeId} {name : Bytes}
    (he : Edge (store.bind id name r) i j) : Edge store i j ∨ j = .object r := by
  cases he with
  | part hp => exact .inl (.part hp)
  | @binding id' sc name' r' hsc hk =>
    rw [Store.scope?_bind] at hsc
    split at hsc
    · obtain ⟨sc', hsc', rfl⟩ := Option.map_eq_some_iff.mp hsc
      rw [Dict.get?_insert] at hk
      split at hk
      · cases hk
        exact .inr rfl
      · exact .inl (.binding hsc' hk)
    · exact .inl (.binding hsc hk)
  | @outer id' o sc hsc ho =>
    rw [Store.scope?_bind] at hsc
    split at hsc
    · obtain ⟨sc', hsc', rfl⟩ := Option.map_eq_some_iff.mp hsc
      exact .inl (.outer hsc' ho)
    · exact .inl (.outer hsc ho)

theorem sound_bind {id : ScopeId} {name : Bytes} (h : s.Sound i) :
    Sound { s with store := s.store.bind id name r } i := by
  cases i with
  | object r => exact h
  | scope id' =>
    change id'.index < (s.store.bind id name r).scopes.size
    rw [Store.size_scopes_bind]
    exact h

theorem Safe.bind {id : ScopeId} (name : Bytes) (hr : s.Safe (.object r)) (h : s.Safe item) :
    Safe { s with store := s.store.bind id name r } item := by
  refine h.mono (fun i j hi he => ?_) fun _ => sound_bind
  rcases edge_of_edge_bind he with he | rfl
  · exact hi.edge he
  · exact hr

section NewScope

variable {closure : Option ScopeId}

theorem sound_newScope (h : s.Sound i) :
    Sound { s with store := (s.store.newScope closure).2 } i := by
  cases i with
  | object r => exact h
  | scope id =>
    change id.index < (s.store.scopes.push _).size
    rw [Array.size_push]
    exact Nat.lt_succ_of_lt h

theorem edge_of_edge_newScope (h : s.Sound i) (he : Edge (s.store.newScope closure).2 i j) :
    Edge s.store i j := by
  cases he with
  | part hp => exact .part hp
  | binding hsc hk =>
    rw [Store.scope?_newScope, if_neg (Nat.ne_of_lt h)] at hsc
    exact .binding hsc hk
  | outer hsc ho =>
    rw [Store.scope?_newScope, if_neg (Nat.ne_of_lt h)] at hsc
    exact .outer hsc ho

theorem Safe.newScope (h : s.Safe item) :
    Safe { s with store := (s.store.newScope closure).2 } item :=
  h.mono (fun _ _ hi he => hi.edge (edge_of_edge_newScope hi.sound he))
    (fun _ hi => sound_newScope hi)

theorem safe_newScope_self (hc : ∀ id, closure = some id → s.Safe (.scope id)) :
    Safe { s with store := (s.store.newScope closure).2 }
      (.scope (s.store.newScope closure).1) := by
  refine safe_of_closed (fun i => s.Safe i ∨ i = .scope (s.store.newScope closure).1) ?_ ?_
    (.inr rfl)
  · rintro i j (hi | rfl) he
    · exact .inl (hi.edge (edge_of_edge_newScope hi.sound he))
    · cases he with
      | binding hsc hk =>
        rw [Store.scope?_newScope_self] at hsc
        cases hsc
        cases hk
      | outer hsc ho =>
        rw [Store.scope?_newScope_self] at hsc
        cases hsc
        exact .inl (hc _ (Option.filter_eq_some_iff.mp ho).1)
  · rintro i (hi | rfl)
    · exact sound_newScope hi.sound
    · change s.store.scopes.size < (s.store.scopes.push _).size
      rw [Array.size_push]
      exact Nat.lt_succ_self _

end NewScope

theorem reaches_of_safe {root : ScopeId} {extra : List Ref} (hm : item ∈ Heap.rootItems root extra)
    (h : s.Safe item) (hj : ReflTransGen (Edge s.store) item j) :
    Reaches s.store s.handles s.heap (Heap.rootItems root extra) j := by
  induction hj with
  | refl => exact .root hm
  | @tail i j hi he ih =>
    refine .step ih ?_ he
    have hsound := h i hi
    cases he with
    | part hp => exact hsound.2 (Heap.isManaged_of_part hp)
    | binding _ _ => exact hsound
    | outer _ _ => exact hsound

theorem Safe.collect {root : ScopeId} {extra : List Ref} (hm : s.heap.marks = .empty)
    (hv : s.heap.visited = .empty) (hroot : item ∈ Heap.rootItems root extra) (h : s.Safe item) :
    (s.collect root extra).2.Safe item := by
  intro j hj
  change ReflTransGen (Edge s.store) item j at hj
  have hsound := h j hj
  cases j with
  | scope id => exact hsound
  | object r =>
    exact ⟨hsound.1, fun hr => (Heap.contains_collect_iff hm hv).mpr
      ⟨hsound.2 hr, reaches_of_safe hroot h hj⟩⟩

structure Furnished (s : State) : Prop where
  size_le : Store.initial.objects.size ≤ s.store.objects.size
  get_eq : ∀ r : Ref, r.index < Store.initial.objects.size → s.store.get r = Store.initial.get r

theorem isManaged_initial :
    ∀ i : Fin Store.initial.objects.size, (Store.initial.get ⟨i⟩).isManaged = false := by
  decide

theorem isManaged_get_initial (r : Ref) : (Store.initial.get r).isManaged = false := by
  rcases Nat.lt_or_ge r.index Store.initial.objects.size with hlt | hge
  · exact isManaged_initial ⟨r.index, hlt⟩
  · rw [Store.get, Array.getD, dif_neg (Nat.not_lt.mpr hge)]
    rfl

theorem Furnished.safe (h : s.Furnished) (hr : r.index < Store.initial.objects.size) :
    s.Safe (.object r) := by
  have hplain : (s.store.get r).isManaged = false := by
    rw [h.get_eq r hr]
    exact isManaged_initial ⟨r.index, hr⟩
  intro j hj
  rcases hj.cases_head with rfl | ⟨k, he, -⟩
  · refine ⟨hr.trans_le h.size_le, fun hm => ?_⟩
    rw [hplain] at hm
    cases hm
  · cases he with
    | part hp =>
      rw [Heap.isManaged_of_part hp] at hplain
      cases hplain

structure Orderly (s : State) : Prop where
  furnished : s.Furnished
  marks : s.heap.marks = .empty
  visited : s.heap.visited = .empty
  consistent : s.heap.Fits → s.heap.Consistent s.handles

theorem Orderly.of_eq (h : s.Orderly) (ho : s'.store.objects = s.store.objects)
    (hh : s'.heap = s.heap) (hhs : s'.handles = s.handles) : s'.Orderly := by
  have hget : ∀ r, s'.store.get r = s.store.get r := fun r => by rw [Store.get, Store.get, ho]
  refine ⟨⟨ho ▸ h.furnished.size_le, fun r hr => (hget r).trans (h.furnished.get_eq r hr)⟩,
    hh ▸ h.marks, hh ▸ h.visited, ?_⟩
  rw [hh, hhs]
  exact h.consistent

theorem Orderly.alloc {o : Object} (h : s.Orderly) : (s.alloc o).2.Orderly where
  furnished := by
    refine ⟨?_, fun r hr => ?_⟩
    · change _ ≤ (s.store.objects.push o).size
      rw [Array.size_push]
      exact Nat.le_succ_of_le h.furnished.size_le
    · rw [← h.furnished.get_eq r hr]
      exact (s.store.get_alloc o r).trans
        (if_neg (Nat.ne_of_lt (hr.trans_le h.furnished.size_le)))
  marks := Heap.marks_register.trans h.marks
  visited := Heap.visited_register.trans h.visited
  consistent hf := (h.consistent hf.of_register).register hf

theorem Orderly.collect {root : ScopeId} {extra : List Ref} (h : s.Orderly) :
    (s.collect root extra).2.Orderly where
  furnished := ⟨h.furnished.size_le, h.furnished.get_eq⟩
  marks := rfl
  visited := rfl
  consistent hf := (h.consistent (Heap.fits_collect.mp hf)).collect

end State

/-- What is safe stays safe. All of it depends on the heap having room. -/
def ownership : Invariant where
  holds s := s.Orderly
  good s item := s.heap.Fits → s.Safe item
  home s id := s.heap.Fits → s.Safe (.scope id)
  failed s r := s.heap.Fits → s.Safe (.object r)
  strict := False

theorem ownership_later_alloc {s : State} {o : Object} (hs : s.Orderly) :
    ownership.Later s (s.alloc o).2 where
  holds := hs.alloc
  good h hf := (h hf.of_register).alloc (hs.consistent hf.of_register) hf
  home h hf := (h hf.of_register).alloc (hs.consistent hf.of_register) hf

theorem ownership_stable : ownership.Stable where
  boolean hs b _ := hs.furnished.safe (by cases b <;> decide)
  null hs _ := hs.furnished.safe (by decide)
  builtin hs b _ := hs.furnished.safe (by cases b <;> decide)
  edge _ h he hf := (h hf).edge he
  scope h := h
  body _ _ _ h := h.elim
  alloc hs ho := ⟨ownership_later_alloc hs, fun hf =>
    State.safe_alloc_self (hs.consistent hf.of_register) hf fun _ hj => ho.part hj hf.of_register⟩
  fail e hs := ⟨ownership_later_alloc hs, fun hf =>
    State.safe_alloc_self (hs.consistent hf.of_register) hf nofun⟩
  bind name hs _ hr :=
    ⟨hs.of_eq rfl rfl rfl, fun h hf => .bind name (hr hf) (h hf),
      fun h hf => .bind name (hr hf) (h hf)⟩
  newScope hs hc ho :=
    ⟨⟨hs.of_eq rfl rfl rfl, fun h hf => (h hf).newScope, fun h hf => (h hf).newScope⟩,
      fun hf => State.safe_newScope_self fun id hid =>
        (hc hf).edge (.part (ho ▸ hid ▸ .closure))⟩
  count hs := ⟨hs.of_eq rfl rfl rfl, id, id⟩
  trace _ hs := ⟨hs.of_eq rfl rfl rfl, id, id⟩
  failed_trace _ h := h
  write hs _ := ⟨hs.of_eq rfl rfl rfl, id, id⟩

theorem State.collectIfDue_cases (s : State) (scope : ScopeId) (r : Ref) :
    s.collectIfDue scope r = s ∨ ∃ log,
      s.collectIfDue scope r = { (s.collect scope [r]).2 with statements := 0, log := log } := by
  unfold State.collectIfDue
  split
  · exact .inl rfl
  · exact .inr ⟨_, rfl⟩

theorem State.store_collectIfDue (s : State) (scope : ScopeId) (r : Ref) :
    (s.collectIfDue scope r).store = s.store := by
  rcases s.collectIfDue_cases scope r with he | ⟨log, he⟩
  · rw [he]
  · rw [he, State.collect]
    rfl

theorem ownership_survivesCollection : ownership.SurvivesCollection := by
  intro s scope r hs hid hr
  rcases s.collectIfDue_cases scope r with he | ⟨log, he⟩
  · rw [he]
    exact ⟨hs, hid, hr⟩
  · rw [he]
    refine ⟨hs.collect.of_eq rfl rfl rfl, fun hf => ?_, fun hf => ?_⟩
    · have hf' : s.heap.Fits := Heap.fits_collect.mp hf
      exact ((hid hf').collect hs.marks hs.visited (by simp [Heap.rootItems])).of_eq rfl rfl rfl
    · have hf' : s.heap.Fits := Heap.fits_collect.mp hf
      exact ((hr hf').collect hs.marks hs.visited (by simp [Heap.rootItems])).of_eq rfl rfl rfl

namespace State

def OwnsReachable (s : State) (roots : List Item) : Prop :=
  ∀ root ∈ roots, ∀ r, ReflTransGen (Edge s.store) root (.object r) →
    (s.store.get r).isManaged = true →
    s.heap.contains s.handles r = true ∧ s.heap.resolve (s.handles.get r) = some r

theorem ownsReachable_of_safe {s : State} {roots : List Item} (h : ∀ root ∈ roots, s.Safe root) :
    s.OwnsReachable roots := by
  intro root hroot r hr hm
  have hc := (h root hroot _ hr).2 hm
  exact ⟨hc, Heap.contains_iff_resolve.mp hc⟩

end State

def Outcome.value? : Outcome → Option Ref
  | .value r => some r
  | .defect _ | .outOfFuel => none

theorem ownership_ofResult {scope : ScopeId} {x : EStateM.Result Abrupt State Ref}
    (h : ownership.Finishes scope x) :
    (Outcome.ofResult x).2.Orderly ∧ ownership.home (Outcome.ofResult x).2 scope ∧
      ∀ r, (Outcome.ofResult x).1.value? = some r →
        ownership.good (Outcome.ofResult x).2 (.object r) := by
  cases x with
  | ok r t => exact ⟨h.1, h.2.1, fun _ hr => Option.some.inj hr ▸ h.2.2⟩
  | error e t =>
    refine ⟨?_, ?_, ?_⟩ <;> cases e
    case refine_3.returning r => exact fun _ hr => Option.some.inj hr ▸ h.2.2
    case refine_3.failed r => exact fun _ hr => Option.some.inj hr ▸ h.2.2
    case refine_3.defect d => exact nofun
    case refine_3.outOfFuel => exact nofun
    all_goals first | exact h.1 | exact h.2.1

namespace Session

def Answer.value? : Answer → Option Ref
  | .finished outcome => outcome.value?
  | .fatal _ => none

inductive Act where
  | exec (fuel : Nat) (source : Bytes)
  | collect

def perform (s : Session) : Act → Option Ref × Session
  | .exec fuel source => ((s.exec fuel source).1.value?, (s.exec fuel source).2)
  | .collect => (none, { s with state := (s.state.collect s.scope []).2 })

/-- A new session has come to this by acts, the last of which returned `v`. -/
inductive Reached (threshold : Nat) (output : Output) (log : Log) :
    Option Ref → Session → Prop where
  | new : Reached threshold output log none (.new threshold output log)
  | perform {v : Option Ref} {s : Session} (act : Act) : Reached threshold output log v s →
    Reached threshold output log (s.perform act).1 (s.perform act).2

variable {threshold : Nat} {output : Output} {log : Log} {v : Option Ref} {s : Session}

structure Owning (v : Option Ref) (s : Session) : Prop where
  orderly : s.state.Orderly
  scope : ownership.home s.state s.scope
  value : ∀ r, v = some r → ownership.good s.state (.object r)

theorem owning_new : Owning none (.new threshold output log) where
  orderly := ⟨⟨Nat.le_refl _, fun _ _ => rfl⟩, rfl, rfl, fun _ => Heap.consistent_empty _⟩
  scope _ := State.safe_newScope_self (s := .initial threshold output log) nofun
  value := nofun

theorem Owning.exec (h : s.Owning v) (fuel : Nat) (source : Bytes) :
    Owning (s.exec fuel source).1.value? (s.exec fuel source).2 := by
  unfold Session.exec
  cases Program.parse source with
  | error e => exact ⟨h.orderly.of_eq rfl rfl rfl, h.scope, nofun⟩
  | ok p =>
    obtain ⟨ho, hscope, hv⟩ := ownership_ofResult
      (ownership_stable.finishes_program ownership_survivesCollection fuel p h.orderly h.scope
        False.elim)
    exact ⟨ho, hscope, hv⟩

theorem Owning.collect (h : s.Owning v) :
    Owning none { s with state := (s.state.collect s.scope []).2 } where
  orderly := h.orderly.collect
  scope hf := (h.scope (Heap.fits_collect.mp hf)).collect h.orderly.marks h.orderly.visited
    (by simp [Heap.rootItems])
  value := nofun

theorem Reached.owning (h : Reached threshold output log v s) : s.Owning v := by
  induction h with
  | new => exact owning_new
  | perform act _ ih =>
    cases act with
    | exec fuel source => exact ih.exec fuel source
    | collect => exact ih.collect

/-- Whatever acts a session has come through, the heap owns all that can be reached from its global
scope and from the value of the last act. -/
theorem Reached.ownsReachable (h : Reached threshold output log v s) (hf : s.state.heap.Fits) :
    s.state.OwnsReachable (.scope s.scope :: v.toList.map .object) := by
  refine State.ownsReachable_of_safe fun root hroot => ?_
  rcases List.mem_cons.mp hroot with rfl | hroot
  · exact h.owning.scope hf
  · obtain ⟨r, hr, rfl⟩ := List.mem_map.mp hroot
    exact h.owning.value r (Option.mem_toList.mp hr) hf

/-- A session that binds an array, goes on to another string, and collects it. -/
def arrayBound : Option Ref × Session :=
  ((Session.new 1 .unlimited (.start .info)).perform
    (.exec 10 (text "let a = ['x']; 'y'"))).2.perform .collect

theorem slots_arrayBound :
    arrayBound.2.state.heap.slots = #[⟨some ⟨7⟩, 1⟩, ⟨some ⟨8⟩, 1⟩, ⟨none, 1⟩] := by
  cbv

theorem fits_arrayBound : arrayBound.2.state.heap.Fits := by
  refine ⟨?_, fun i => ?_⟩
  · rw [slots_arrayBound]
    decide
  · rw [Heap.fills, slots_arrayBound]
    rcases i with _ | _ | _ | i
    · decide
    · decide
    · decide
    · exact Nat.two_pow_pos 32

theorem ownsReachable_arrayBound :
    Reached 1 .unlimited (.start .info) arrayBound.1 arrayBound.2 ∧
      arrayBound.2.state.heap.Fits ∧
      arrayBound.2.state.OwnsReachable
        (.scope arrayBound.2.scope :: arrayBound.1.toList.map .object) :=
  have h : Reached 1 .unlimited (.start .info) arrayBound.1 arrayBound.2 :=
    .perform _ (.perform _ .new)
  ⟨h, fits_arrayBound, h.ownsReachable fits_arrayBound⟩

end Session

end CornScript
