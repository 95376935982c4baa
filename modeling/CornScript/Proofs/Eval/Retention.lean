import CornScript.Proofs.Eval.Discipline
import CornScript.Proofs.Eval.Events

/-! # What a statement leaves alone

An object is given a vacant slot when it is created, and only a collection takes a slot away. A
statement does not collect. So it keeps whatever the heap owned, where it was, and adds the objects
that it creates, each of them once, as long as there are not more than 2 ^ 32 slots. This is so
between any two states that an evaluation goes through.
-/

namespace CornScript

theorem Store.objects_bindParams (s : Store) (id : ScopeId) (params : List (Bytes × Ref)) :
    (Eval.bindParams s id params).objects = s.objects := by
  induction params generalizing s with
  | nil => rfl
  | cons p rest ih => exact ih (s.bind id p.1 p.2)

namespace State

variable {s t u : State} {r : Ref}

def Created (s t : State) (r : Ref) : Prop :=
  s.store.objects.size ≤ r.index ∧ r.index < t.store.objects.size

/-- Between `s` and `t` nothing was collected. The heap has gained the objects that were created in
the meantime, and nothing else about it has changed. -/
structure Retains (s t : State) : Prop where
  cycles : t.heap.cycles = s.heap.cycles
  freed : t.heap.freed = s.heap.freed
  marks : t.heap.marks = s.heap.marks
  visited : t.heap.visited = s.heap.visited
  statements : s.statements ≤ t.statements
  objects : s.store.objects.size ≤ t.store.objects.size
  live : t.heap.live = s.heap.live + (t.store.objects.size - s.store.objects.size)
  handle : ∀ {r}, ¬ Created s t r → t.handles.get r = s.handles.get r
  capacity : s.heap.capacity ≤ t.heap.capacity
  /-- Slots are as they were, or vacant ones that were filled with what was created. -/
  slot : t.heap.capacity ≤ UInt32.size → ∀ i,
    t.heap.slots.getD i .vacant = s.heap.slots.getD i .vacant ∨
      s.heap.occupant i = none ∧ ∃ r, Created s t r ∧
        t.heap.slots.getD i .vacant = ⟨some r, s.heap.fills i + 1⟩
  once : t.heap.capacity ≤ UInt32.size → ∀ {r}, Created s t r →
    ∃! i, t.heap.occupant i = some r
  owned : t.heap.capacity ≤ UInt32.size → ∀ {r}, s.heap.contains s.handles r = true →
    t.heap.contains t.handles r = true ∧ t.handles.get r = s.handles.get r ∧
      t.heap.slots.getD (s.handles.get r).slot.toNat .vacant =
        s.heap.slots.getD (s.handles.get r).slot.toNat .vacant
  added : ∀ {r}, t.heap.contains t.handles r = true →
    s.heap.contains s.handles r = true ∨ Created s t r

namespace Retains

theorem created_left (h : Retains t u) (hr : Created s t r) : Created s u r :=
  ⟨hr.1, hr.2.trans_le h.objects⟩

theorem created_right (h : Retains s t) (hr : Created t u r) : Created s u r :=
  ⟨h.objects.trans hr.1, hr.2⟩

theorem slot_of_occupant (h : Retains s t) (ht : t.heap.capacity ≤ UInt32.size) {i : Nat}
    (ho : s.heap.occupant i = some r) :
    t.heap.slots.getD i .vacant = s.heap.slots.getD i .vacant := by
  rcases h.slot ht i with hi | ⟨hi, -⟩
  · exact hi
  · rw [hi] at ho
    cases ho

theorem created_or_occupant (h : Retains s t) (ht : t.heap.capacity ≤ UInt32.size) {i : Nat}
    (ho : t.heap.occupant i = some r) : Created s t r ∨ s.heap.occupant i = some r := by
  rcases h.slot ht i with hi | ⟨-, r', hr', hi⟩
  · rw [Heap.occupant, hi] at ho
    exact .inr ho
  · rw [Heap.occupant, hi] at ho
    cases ho
    exact .inl hr'

theorem of_eq (ho : t.store.objects = s.store.objects) (hh : t.heap = s.heap)
    (hhs : t.handles = s.handles) (hn : s.statements ≤ t.statements) : Retains s t := by
  have hnone {r : Ref} : ¬ Created s t r := by
    rintro ⟨hle, hlt⟩
    rw [ho] at hlt
    exact Nat.not_lt.mpr hle hlt
  constructor
  case statements => exact hn
  case objects => rw [ho]
  case live => rw [hh, ho, Nat.sub_self, Nat.add_zero]
  case handle => exact fun _ => by rw [hhs]
  case capacity => rw [hh]
  case slot => exact fun _ i => .inl (by rw [hh])
  case once => exact fun _ _ hr => absurd hr hnone
  case owned => exact fun _ _ hr => by rw [hh, hhs]; exact ⟨hr, rfl, rfl⟩
  case added => exact fun hr => .inl (by rwa [hh, hhs] at hr)
  all_goals rw [hh]

theorem trans (h : Retains s t) (h' : Retains t u) : Retains s u := by
  have hle := h.objects
  have hle' := h'.objects
  constructor
  case cycles => exact h'.cycles.trans h.cycles
  case freed => exact h'.freed.trans h.freed
  case marks => exact h'.marks.trans h.marks
  case visited => exact h'.visited.trans h.visited
  case statements => exact h.statements.trans h'.statements
  case objects => exact hle.trans hle'
  case live =>
    rw [h'.live, h.live]
    omega
  case handle =>
    intro r hr
    have hold : ¬ Created s t r := fun hc => hr (h'.created_left hc)
    have hnew : ¬ Created t u r := fun hc => hr (h.created_right hc)
    exact (h'.handle hnew).trans (h.handle hold)
  case capacity => exact h.capacity.trans h'.capacity
  case slot =>
    intro hu i
    rcases h.slot (h'.capacity.trans hu) i with hi | ⟨hvacant, r, hr, hi⟩
    · rcases h'.slot hu i with hi' | ⟨hvacant, r, hr, hi'⟩
      · exact .inl (hi'.trans hi)
      · rw [Heap.occupant, hi] at hvacant
        rw [Heap.fills, hi] at hi'
        exact .inr ⟨hvacant, r, h.created_right hr, hi'⟩
    · -- The slot is filled by now, so it is not filled again.
      have hfilled : t.heap.occupant i = some r := by rw [Heap.occupant, hi]
      exact .inr ⟨hvacant, r, h'.created_left hr, (h'.slot_of_occupant hu hfilled).trans hi⟩
  case once =>
    intro hu r hr
    rcases Nat.lt_or_ge r.index t.store.objects.size with hlt | hge
    · obtain ⟨i, hi, hunique⟩ := h.once (h'.capacity.trans hu) ⟨hr.1, hlt⟩
      refine ⟨i, ?_, fun j hj => ?_⟩
      · change (u.heap.slots.getD i .vacant).occupant = some r
        rw [h'.slot_of_occupant hu hi]
        exact hi
      · rcases h'.created_or_occupant hu hj with hc | hj
        · exact absurd hc.1 (Nat.not_le.mpr hlt)
        · exact hunique j hj
    · exact h'.once hu ⟨hge, hr.2⟩
  case owned =>
    intro hu r hr
    obtain ⟨hc, hget, hslot⟩ := h.owned (h'.capacity.trans hu) hr
    obtain ⟨hc', hget', hslot'⟩ := h'.owned hu hc
    rw [hget] at hget' hslot'
    exact ⟨hc', hget', hslot'.trans hslot⟩
  case added =>
    intro r hr
    rcases h'.added hr with hr | hr
    · exact (h.added hr).imp_right h'.created_left
    · exact .inr (h.created_right hr)

end Retains

/-- An orderly state whose free slots are vacant and whose slots hold objects that exist. -/
structure Tidy (s : State) : Prop extends s.Orderly where
  spare : s.heap.Spare
  known : ∀ {i r}, s.heap.occupant i = some r → r.index < s.store.objects.size

namespace Tidy

variable {o : Object}

theorem of_eq (h : s.Tidy) (ho : t.store.objects = s.store.objects) (hh : t.heap = s.heap)
    (hhs : t.handles = s.handles) : t.Tidy where
  toOrderly := h.toOrderly.of_eq ho hh hhs
  spare := hh ▸ h.spare
  known := by
    rw [ho, hh]
    exact h.known

theorem contains_next (h : s.Tidy) :
    s.heap.contains s.handles ⟨s.store.objects.size⟩ = false := by
  cases hc : s.heap.contains s.handles ⟨s.store.objects.size⟩ with
  | false => rfl
  | true => exact absurd (h.known (Heap.contains_iff.mp hc).2.2) (Nat.lt_irrefl _)

theorem size_alloc : (s.alloc o).2.store.objects.size = s.store.objects.size + 1 :=
  Array.size_push o

theorem alloc (h : s.Tidy) : (s.alloc o).2.Tidy where
  toOrderly := h.toOrderly.alloc
  spare := h.spare.register
  known {i r} ho := by
    change (s.heap.register s.handles ⟨s.store.objects.size⟩).1.occupant i = some r at ho
    rw [h.spare.occupant_register h.contains_next] at ho
    rw [size_alloc]
    split at ho
    · cases ho
      exact Nat.lt_succ_self _
    · exact Nat.lt_succ_of_lt (h.known ho)

theorem collect {root : ScopeId} {extra : List Ref} (h : s.Tidy) :
    (s.collect root extra).2.Tidy where
  toOrderly := h.toOrderly.collect
  spare := h.spare.collect
  known ho := h.known (Heap.occupant_of_collect ho)

section Alloc

variable (h : s.Tidy)

include h

end Alloc

theorem effect (h : s.Tidy) (event : Event) : (event.effect s).Tidy := by
  cases event with
  | create r o => exact h.alloc
  | collect root r => exact h.collect.of_eq rfl rfl rfl
  | enter scope closure params => exact h.of_eq (Store.objects_bindParams _ _ _) rfl rfl
  | _ => exact h.of_eq rfl rfl rfl

theorem of_muted_eq (h : s.Tidy) (hst : t.muted = s.muted) : t.Tidy :=
  h.of_eq (congrArg (·.store.objects) hst) (congrArg (·.heap) hst) (congrArg (·.handles) hst)

end Tidy

theorem Retains.of_muted_eq (hst : t.muted = s.muted) : Retains s t :=
  .of_eq (congrArg (·.store.objects) hst) (congrArg (·.heap) hst) (congrArg (·.handles) hst)
    (congrArg (·.statements) hst).ge

end State

namespace Session

open State (Tidy)

variable {threshold : Nat} {output : Output} {log : Log} {v : Option Ref} {s : State}

theorem Passes.accounted (h : Passes threshold output log s) (fuel : Nat) (scope : ScopeId)
    (node : Node) :
    Accounted s (node.record fuel scope s).1 (node.eval fuel scope s).2 := by
  rw [Node.stateOf_run]
  exact (discipline.recounts (discipline_passes h) fuel scope node).accounted

theorem tidy_new : (Session.new threshold output log).state.Tidy where
  toOrderly := owning_new.orderly
  spare := Heap.spare_empty
  known ho := nomatch ho

theorem Passes.tidy_course (h : Passes threshold output log s) (hs : s.Tidy) (fuel : Nat)
    (scope : ScopeId) (node : Node) :
    ∀ u ∈ (s :: (node.record fuel scope s).1.map Moment.state) ++ [(node.eval fuel scope s).2],
      u.Tidy := by
  have hchain := (h.accounted fuel scope node).chain (P := Tidy) (R := fun _ _ => True)
    (fun _ _ => trivial) (fun hs hst => ⟨hs.of_muted_eq hst, trivial⟩) hs
    fun m _ u hu _ => ⟨hu.effect m.event, trivial⟩
  exact hchain.1

theorem Reached.tidy {session : Session} (h : Reached threshold output log v session) :
    session.state.Tidy := by
  induction h with
  | new => exact tidy_new
  | @perform v session act h ih =>
    cases act with
    | exec fuel source =>
      change (session.exec fuel source).2.state.Tidy
      unfold Session.exec
      cases Program.parse source with
      | error e => exact ih.of_muted_eq rfl
      | ok p =>
        exact Passes.tidy_course (.reached h) ih fuel session.scope (.program p) _
          (List.mem_append_right _ (List.mem_singleton_self _))
    | collect => exact ih.collect

theorem Passes.tidy (h : Passes threshold output log s) : s.Tidy := by
  induction h with
  | reached h => exact h.tidy
  | @moment s fuel scope node m h hm ih =>
    refine h.tidy_course ih fuel scope node _ (List.mem_append_left _ (List.mem_cons_of_mem _ ?_))
    exact List.mem_map_of_mem hm
  | ended fuel scope node h ih =>
    exact h.tidy_course ih fuel scope node _
      (List.mem_append_right _ (List.mem_singleton_self _))

end Session

end CornScript
