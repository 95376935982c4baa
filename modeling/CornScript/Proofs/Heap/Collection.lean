import CornScript.Proofs.Heap.Exhaustion
import CornScript.Proofs.Heap.Reachability
import Mathlib

/-! # Collection

A collection gives up exactly the owned objects that its roots do not reach through owned objects.
What stays keeps its slot, and the order in which the bindings of a scope and the pairs of a hash
are looked at does not matter.
-/

namespace CornScript

inductive Object.Reordered : Object → Object → Prop where
  | refl (o : Object) : Reordered o o
  | hash {p q : Dict Ref} : p.entries.Perm q.entries → Reordered (.hash p) (.hash q)

structure Scope.Reordered (sc sc' : Scope) : Prop where
  bindings : sc.bindings.entries.Perm sc'.bindings.entries
  outer : sc.outer = sc'.outer

/-- The same objects and scopes, whose pairs and bindings may be visited in another order. -/
structure Store.Reordered (s t : Store) : Prop where
  objects : ∀ r, (s.get r).Reordered (t.get r)
  scopes_size : s.scopes.size = t.scopes.size
  scopes : ∀ id sc sc', s.scope? id = some sc → t.scope? id = some sc' → sc.Reordered sc'

theorem Dict.get?_eq_of_perm {α : Type} {p q : Dict α} (h : p.entries.Perm q.entries)
    (k : Bytes) : p.get? k = q.get? k := by
  apply Option.ext
  intro v
  rw [p.get?_eq_some_iff, q.get?_eq_some_iff, h.mem_iff]

theorem Object.Reordered.symm {o o' : Object} (h : o.Reordered o') : o'.Reordered o := by
  cases h with
  | refl => exact .refl _
  | hash hp => exact .hash hp.symm

theorem Store.Reordered.symm {s t : Store} (h : s.Reordered t) : t.Reordered s where
  objects r := (h.objects r).symm
  scopes_size := h.scopes_size.symm
  scopes id sc sc' hs ht :=
    ⟨(h.scopes id sc' sc ht hs).bindings.symm, (h.scopes id sc' sc ht hs).outer.symm⟩

namespace Heap

variable {alone : Prop} {store store' : Store} {hs : Handles} {h h' : Heap} {r : Ref} {i : Nat}
  {root : Option ScopeId} {extra : List Ref} {roots : List Item}

theorem Edge.reordered (ho : store.Reordered store') {a b : Item} (he : Edge store a b) :
    Edge store' a b := by
  have hscope : ∀ id sc, store.scope? id = some sc →
      ∃ sc', store'.scope? id = some sc' ∧ sc.Reordered sc' := by
    intro id sc hsc
    have hid : id.index < store'.scopes.size :=
      ho.scopes_size ▸ (Array.getElem?_eq_some_iff.mp hsc).1
    have hsc' : store'.scope? id = some store'.scopes[id.index] := Array.getElem?_eq_getElem hid
    exact ⟨_, hsc', ho.scopes id _ _ hsc hsc'⟩
  cases he with
  | @part r j hj =>
    have hr := ho.objects r
    refine .part ?_
    generalize store.get r = o, store'.get r = o' at hr hj ⊢
    cases hr with
    | refl => exact hj
    | hash hp =>
      cases hj with
      | value hk => exact .value (Dict.get?_eq_of_perm hp _ ▸ hk)
  | @binding id sc name r hsc hk =>
    obtain ⟨sc', hsc', hp⟩ := hscope id sc hsc
    exact .binding hsc' (Dict.get?_eq_of_perm hp.bindings name ▸ hk)
  | @outer id o sc hsc hout =>
    obtain ⟨sc', hsc', hp⟩ := hscope id sc hsc
    exact .outer hsc' (hp.outer ▸ hout)

theorem Reaches.reordered (ho : store.Reordered store') {a : Item}
    (hr : Reaches store hs h roots a) : Reaches store' hs h roots a := by
  induction hr with
  | root hm => exact .root hm
  | @step i j _ hi hij ih =>
    refine .step ih ?_ (hij.reordered ho)
    cases i with
    | object r => exact hi
    | scope id =>
      change id.index < store'.scopes.size
      rw [← ho.scopes_size]
      exact hi

theorem mem_marks_enter {item : Item} (he : enter? store hs h item = some h')
    (hi : h'.marks.mem i = true) :
    h.marks.mem i = true ∨ ∃ r, h.contains hs r = true ∧ (hs.get r).slot.toNat = i := by
  cases item with
  | object r =>
    simp only [enter?] at he
    split at he
    · rename_i hc
      cases he
      rw [BitSet.mem_insert, Bool.or_eq_true, decide_eq_true_eq] at hi
      rw [Bool.and_eq_true] at hc
      exact hi.imp_right fun hi => ⟨r, hc.1, hi⟩
    · cases he
  | scope id =>
    simp only [enter?] at he
    split at he
    · cases he
      exact .inl hi
    · cases he

theorem mem_marks_trace (hi : (h.trace store hs roots).marks.mem i = true) :
    h.marks.mem i = true ∨ ∃ r, h.contains hs r = true ∧ (hs.get r).slot.toNat = i := by
  fun_induction Heap.trace store hs h roots with
  | case1 h => exact .inl hi
  | case2 h item rest h' he ih =>
    have hp := (enter?_eq_some he).1
    rcases ih hi with hm | ⟨r, hr, hs⟩
    · exact mem_marks_enter he hm
    · exact .inr ⟨r, hp.contains_eq r ▸ hr, hs⟩
  | case3 h item rest he ih => exact ih hi

/-- The slots that a mark phase marks are those of the owned objects that its roots reach. -/
theorem mem_marks_trace_iff (hm : h.marks = .empty) (hv : h.visited = .empty) :
    (h.trace store hs roots).marks.mem i = true ↔
      ∃ r, Reaches store hs h roots (.object r) ∧ h.contains hs r = true ∧
        (hs.get r).slot.toNat = i := by
  have hp := samePlaces_trace store hs h roots
  constructor
  · intro hi
    rcases mem_marks_trace hi with hi' | ⟨r, hr, rfl⟩
    · simp [hm] at hi'
    · have hent : Entered store hs (h.trace store hs roots) (.object r) :=
        marked_iff.mpr ⟨hp.contains_eq r ▸ hr, hi⟩
      exact ⟨r, ((entered_trace_iff hm hv).mp hent).1, hr, rfl⟩
  · rintro ⟨r, hr, hc, rfl⟩
    have hent : Entered store hs (h.trace store hs roots) (.object r) :=
      (entered_trace_iff hm hv).mpr ⟨hr, hc⟩
    exact (marked_iff.mp hent).2

def rootItems (root : Option ScopeId) (extra : List Ref) : List Item :=
  root.toList.map .scope ++ extra.map .object

/-- The heaps that registrations, sweeps and collections lead to from the empty one. What the
objects are may change between the steps. Unless they are used with this heap alone, their handles
may change too. -/
inductive Reached (alone : Prop) : Heap → Handles → Prop where
  | empty (hs : Handles) : Reached alone .empty hs
  | register {h : Heap} {hs : Handles} (r : Ref) :
    Reached alone h hs → Reached alone (h.register hs r).1 (h.register hs r).2
  | sweep {h : Heap} {hs : Handles} : Reached alone h hs → Reached alone h.sweep.2 hs
  | collect {h : Heap} {hs : Handles} (store : Store) (root : Option ScopeId) (extra : List Ref) :
    Reached alone h hs → Reached alone (h.collect store hs root extra).2 hs
  | elsewhere {h : Heap} {hs : Handles} (hs' : Handles) : ¬ alone → Reached alone h hs →
    Reached alone h hs'

theorem marks_register : (h.register hs r).1.marks = h.marks := by
  cases hc : h.contains hs r with
  | true => rw [register_of_contains hc]
  | false => rw [fst_register hc]

theorem visited_register : (h.register hs r).1.visited = h.visited := by
  cases hc : h.contains hs r with
  | true => rw [register_of_contains hc]
  | false => rw [fst_register hc]

theorem Reached.unmarked (hr : Reached alone h hs) : h.marks = .empty ∧ h.visited = .empty := by
  induction hr with
  | empty => exact ⟨rfl, rfl⟩
  | register r _ ih => rwa [marks_register, visited_register]
  | sweep => exact ⟨rfl, rfl⟩
  | collect => exact ⟨rfl, rfl⟩
  | elsewhere _ _ _ ih => exact ih

theorem SamePlaces.fits_iff (hp : SamePlaces h h') : h'.Fits ↔ h.Fits := by
  rw [hp]
  exact ⟨fun hf => ⟨hf.1, hf.2⟩, fun hf => ⟨hf.1, hf.2⟩⟩

theorem SamePlaces.spare_iff (hp : SamePlaces h h') : h'.Spare ↔ h.Spare := by
  rw [hp]
  exact ⟨fun hh => ⟨hh.1, hh.2, hh.3⟩, fun hh => ⟨hh.1, hh.2, hh.3⟩⟩

theorem SamePlaces.named_iff (hp : SamePlaces h h') : h'.Named hs ↔ h.Named hs := by
  have hspare := hp.spare_iff
  rw [hp] at hspare ⊢
  exact ⟨fun hh => ⟨hspare.mp hh.1, hh.2, hh.3⟩, fun hh => ⟨hspare.mpr hh.1, hh.2, hh.3⟩⟩

theorem SamePlaces.consistent_iff (hp : SamePlaces h h') :
    h'.Consistent hs ↔ h.Consistent hs := by
  have hnamed : h'.Named hs ↔ h.Named hs := hp.named_iff
  rw [hp] at hnamed ⊢
  exact ⟨fun hh => ⟨hnamed.mp hh.1, hh.2⟩, fun hh => ⟨hnamed.mpr hh.1, hh.2⟩⟩

theorem fits_collect : (h.collect store hs root extra).2.Fits ↔ h.Fits :=
  fits_sweep.trans (samePlaces_trace store hs h (rootItems root extra)).fits_iff

theorem fills_collect : (h.collect store hs root extra).2.fills i = h.fills i := by
  have hp := samePlaces_trace store hs h (rootItems root extra)
  change (h.trace store hs (rootItems root extra)).sweep.2.fills i = _
  rw [fills_sweep, hp]
  rfl

theorem Spare.collect (hh : h.Spare) : (h.collect store hs root extra).2.Spare :=
  ((samePlaces_trace store hs h (rootItems root extra)).spare_iff.mpr hh).sweep

theorem Named.collect (hh : h.Named hs) : (h.collect store hs root extra).2.Named hs :=
  ((samePlaces_trace store hs h (rootItems root extra)).named_iff.mpr hh).sweep

theorem Consistent.collect (hh : h.Consistent hs) :
    (h.collect store hs root extra).2.Consistent hs :=
  ((samePlaces_trace store hs h (rootItems root extra)).consistent_iff.mpr hh).sweep

theorem occupant_of_collect (ho : (h.collect store hs root extra).2.occupant i = some r) :
    h.occupant i = some r := by
  have hp := samePlaces_trace store hs h (rootItems root extra)
  change (h.trace store hs (rootItems root extra)).sweep.2.occupant i = some r at ho
  rw [occupant_sweep] at ho
  split at ho
  · rwa [hp] at ho
  · cases ho

theorem Reached.named (hr : Reached alone h hs) (ha : alone)
    (hf : ∀ i, h.fills i < UInt32.size) : h.Named hs := by
  induction hr with
  | empty hs => exact named_empty hs
  | @register h hs r _ ih =>
    have hf' : ∀ i, h.fills i < UInt32.size := fun i => fills_le_register.trans_lt (hf i)
    exact (ih hf').register hf'
  | @sweep h hs _ ih => exact (ih fun i => fills_sweep (h := h) ▸ hf i).sweep
  | @collect h hs store root extra _ ih => exact (ih fun i => fills_collect ▸ hf i).collect
  | elsewhere _ hn _ _ => exact absurd ha hn

section Collect

variable (hm : h.marks = .empty) (hv : h.visited = .empty)

include hm hv

theorem contains_collect_iff : (h.collect store hs root extra).2.contains hs r = true ↔
    h.contains hs r = true ∧ Reaches store hs h (rootItems root extra) (.object r) := by
  change (h.trace store hs (rootItems root extra)).sweep.2.contains hs r = true ↔ _
  rw [contains_sweep_iff, ← marked_iff]
  have hent : Entered store hs (h.trace store hs (rootItems root extra)) (.object r) ↔ _ :=
    entered_trace_iff hm hv
  exact hent.trans and_comm

theorem occupant_collect_eq_none (hc : h.contains hs r = true)
    (hr : ¬ Reaches store hs h (rootItems root extra) (.object r)) :
    (h.collect store hs root extra).2.occupant (hs.get r).slot.toNat = none := by
  change (h.trace store hs (rootItems root extra)).sweep.2.occupant _ = none
  rw [occupant_sweep, if_neg]
  intro hmem
  obtain ⟨r', hr', hc', he⟩ := (mem_marks_trace_iff hm hv).mp hmem
  exact hr (eq_of_slot_eq hc' hc he ▸ hr')

theorem slot_collect (hc : h.contains hs r = true)
    (hr : Reaches store hs h (rootItems root extra) (.object r)) :
    (h.collect store hs root extra).2.slots[(hs.get r).slot.toNat]? =
      h.slots[(hs.get r).slot.toNat]? := by
  have hp := samePlaces_trace store hs h (rootItems root extra)
  have hmem := (mem_marks_trace_iff hm hv).mpr ⟨r, hr, hc, rfl⟩
  change (h.trace store hs (rootItems root extra)).sweep.2.slots[_]? = _
  rw [hp]
  simp [sweep, hmem]

end Collect

theorem mem_garbage_trace_iff :
    i ∈ (h.trace store hs (rootItems root extra)).garbage ↔
      (h.occupant i).isSome ∧ (h.collect store hs root extra).2.occupant i = none := by
  have hp := samePlaces_trace store hs h (rootItems root extra)
  have ho : (h.trace store hs (rootItems root extra)).occupant i = h.occupant i := by
    rw [hp]
    rfl
  change _ ↔ _ ∧ (h.trace store hs (rootItems root extra)).sweep.2.occupant i = none
  rw [mem_garbage, occupant_sweep, ho]
  cases (h.trace store hs (rootItems root extra)).marks.mem i <;> cases h.occupant i <;> simp

theorem sweep_eq_of_marks_eq {a b : Heap} (ha : SamePlaces h a) (hb : SamePlaces h b)
    (he : a.marks = b.marks) : a.sweep = b.sweep := by
  rw [ha, hb, he]
  rfl

theorem collect_reordered (hm : h.marks = .empty) (hv : h.visited = .empty)
    (ho : store.Reordered store') :
    h.collect store' hs root extra = h.collect store hs root extra := by
  refine sweep_eq_of_marks_eq (samePlaces_trace store' hs h (rootItems root extra))
    (samePlaces_trace store hs h (rootItems root extra)) (BitSet.ext_mem fun i => ?_)
  rw [Bool.eq_iff_iff, mem_marks_trace_iff hm hv, mem_marks_trace_iff hm hv]
  constructor
  · rintro ⟨r, hr, hc⟩
    exact ⟨r, hr.reordered ho.symm, hc⟩
  · rintro ⟨r, hr, hc⟩
    exact ⟨r, hr.reordered ho, hc⟩

/-- The number of slots that lose their occupant is the number of objects that are given up: every
occupant is owned through its slot. -/
theorem fst_collect_eq_ncard (hm : h.marks = .empty) (hv : h.visited = .empty)
    (hh : h.Named hs) (hf : ∀ i, h.fills i < UInt32.size) :
    (h.collect store hs root extra).1 =
      {r | h.contains hs r = true ∧
        ¬ Reaches store hs h (rootItems root extra) (.object r)}.ncard := by
  let slotOf (r : Ref) : Nat := (hs.get r).slot.toNat
  let gone : Set Ref := {r | h.contains hs r = true ∧
    ¬ Reaches store hs h (rootItems root extra) (.object r)}
  have hinj : Set.InjOn slotOf gone := fun r hr r' hr' he => eq_of_slot_eq hr.1 hr'.1 he
  have himage : Set.image slotOf gone =
      ↑(h.trace store hs (rootItems root extra)).garbage.toFinset := by
    ext i
    rw [List.coe_toFinset, Set.mem_ofPred_eq, mem_garbage_trace_iff]
    constructor
    · rintro ⟨r, hr, rfl⟩
      have ho := (contains_iff.mp hr.1).2.2
      exact ⟨by simp [slotOf, ho], occupant_collect_eq_none hm hv hr.1 hr.2⟩
    · rintro ⟨ho, hn⟩
      obtain ⟨r, hr⟩ := Option.isSome_iff_exists.mp ho
      obtain ⟨hc, hslot⟩ := hh.contains_of_occupant hf hr
      refine ⟨r, ⟨hc, fun hreach => ?_⟩, hslot⟩
      have hk := contains_iff.mp ((contains_collect_iff hm hv).mpr ⟨hc, hreach⟩)
      rw [hslot, hn] at hk
      cases hk.2.2
  change _ = gone.ncard
  rw [← hinj.ncard_image, himage, Set.ncard_coe_finset,
    List.toFinset_card_of_nodup nodup_garbage]
  rfl

/-- What a collection does. `freed` counts slots: as long as the objects are used with this heap
alone and no slot was filled 2 ^ 32 times, every slot that loses its occupant stands for one
object. -/
structure Exact (alone : Prop) (store : Store) (hs : Handles) (h : Heap) (root : Option ScopeId)
    (extra : List Ref) (freed : Nat) (h' : Heap) : Prop where
  owned_iff : ∀ r, h'.contains hs r = true ↔
    h.contains hs r = true ∧ Reaches store hs h (rootItems root extra) (.object r)
  kept : ∀ r, h'.contains hs r = true → h'.resolve (hs.get r) = some r ∧
    h'.slots[(hs.get r).slot.toNat]? = h.slots[(hs.get r).slot.toNat]?
  gone : ∀ r, h.contains hs r = true → h'.contains hs r = false → h'.resolve (hs.get r) = none
  freed_slots : freed = ((List.range h.slots.size).filter fun i =>
    (h.occupant i).isSome && (h'.occupant i).isNone).length
  freed_objects : alone → (∀ i, h.fills i < UInt32.size) → freed = {r | h.contains hs r = true ∧
    ¬ Reaches store hs h (rootItems root extra) (.object r)}.ncard
  marks : h'.marks = .empty
  visited : h'.visited = .empty
  order : ∀ store', store.Reordered store' → h.collect store' hs root extra = (freed, h')

theorem garbage_trace_eq : (h.trace store hs (rootItems root extra)).garbage =
    (List.range h.slots.size).filter fun i =>
      (h.occupant i).isSome && ((h.collect store hs root extra).2.occupant i).isNone := by
  have hsize : (h.trace store hs (rootItems root extra)).slots.size = h.slots.size := by
    rw [samePlaces_trace store hs h (rootItems root extra)]
  rw [garbage, hsize]
  refine List.filter_congr fun i hi => ?_
  have hg : i ∈ (h.trace store hs (rootItems root extra)).garbage ↔ _ := mem_garbage_trace_iff
  rw [garbage, hsize, List.mem_filter, and_iff_right hi] at hg
  rw [Bool.eq_iff_iff, hg, Bool.and_eq_true, Option.isNone_iff_eq_none]

/-- A collection is exact on every heap that operations on it can lead to. -/
theorem exact_collect (hr : Reached alone h hs) (store : Store) (root : Option ScopeId)
    (extra : List Ref) :
    Exact alone store hs h root extra (h.collect store hs root extra).1
      (h.collect store hs root extra).2 := by
  obtain ⟨hm, hv⟩ := hr.unmarked
  refine ⟨fun r => contains_collect_iff hm hv, fun r hc => ⟨contains_iff_resolve.mp hc, ?_⟩,
    fun r hc hn => ?_, ?_, fun ha hf => fst_collect_eq_ncard hm hv (hr.named ha hf) hf, rfl,
    rfl, fun store' ho => collect_reordered hm hv ho⟩
  · obtain ⟨hc, hreach⟩ := (contains_collect_iff hm hv).mp hc
    exact slot_collect hm hv hc hreach
  · have hreach : ¬ Reaches store hs h (rootItems root extra) (.object r) := fun hreach => by
      rw [(contains_collect_iff hm hv).mpr ⟨hc, hreach⟩] at hn
      cases hn
    rw [Option.eq_none_iff_forall_ne_some]
    intro r' hr'
    rw [resolve_eq_some_iff, occupant_collect_eq_none hm hv hc hreach] at hr'
    cases hr'.2.2
  · exact congrArg List.length garbage_trace_eq

def selfHolding : Store := ⟨#[.array [⟨0⟩], .string []], #[]⟩

def twoOwned : Heap × Handles :=
  let first := Heap.empty.register .none ⟨0⟩
  first.1.register first.2 ⟨1⟩

theorem exact_collect_selfHolding :
    Reached True twoOwned.1 twoOwned.2 ∧
      (twoOwned.1.collect selfHolding twoOwned.2 none [⟨0⟩]).1 = 1 ∧
      Exact True selfHolding twoOwned.2 twoOwned.1 none [⟨0⟩]
        (twoOwned.1.collect selfHolding twoOwned.2 none [⟨0⟩]).1
        (twoOwned.1.collect selfHolding twoOwned.2 none [⟨0⟩]).2 := by
  have hr : Reached True twoOwned.1 twoOwned.2 := .register _ (.register _ (.empty _))
  exact ⟨hr, by cbv, exact_collect hr _ _ _⟩

theorem exists_reached_idle (alone : Prop) (n : Nat) : ∃ hs, Reached alone (idle (n + 1)) hs := by
  induction n with
  | zero =>
    have hr : Reached alone _ _ := ((Reached.empty .none).register ⟨0⟩).sweep
    rw [sweep_register_empty] at hr
    exact ⟨_, hr⟩
  | succ n ih =>
    obtain ⟨hs, hr⟩ := ih
    have hr' := (hr.register ⟨0⟩).sweep
    rw [sweep_register_idle] at hr'
    exact ⟨_, hr'⟩

/-- A heap that has given the first object a slot, and the handles after a second heap has given it
another one. -/
def lent : Heap × Handles :=
  let first := Heap.empty.register .none ⟨0⟩
  let second := Heap.empty.register first.2 ⟨1⟩
  (first.1, (second.1.register second.2 ⟨0⟩).2)

/-- The number is not always that of objects: an object that is not owned can have a slot, because
it was registered with another heap, or because it was the one to fill the slot for the 2 ^ 32nd
time. A collection vacates the slot and counts it, even if the object is a root. -/
theorem exists_freed_not_owned :
    (Reached False lent.1 lent.2 ∧ (∀ r, lent.1.contains lent.2 r = false) ∧
      (lent.1.collect selfHolding lent.2 none [⟨0⟩]).1 = 1) ∧
    ∃ h hs, Reached True h hs ∧ h.capacity = 1 ∧ (∀ r, h.contains hs r = false) ∧
      (h.collect selfHolding hs none [⟨0⟩]).1 = 1 := by
  constructor
  · have hr : Reached False lent.1 lent.2 := .elsewhere _ not_false (.register _ (.empty .none))
    have hslot : lent.1.slots = #[⟨some ⟨0⟩, 1⟩] := by cbv
    have hhandle : lent.2.get ⟨0⟩ = ⟨1, 1⟩ := by cbv
    refine ⟨hr, fun r => ?_, by cbv⟩
    rw [Bool.eq_false_iff]
    intro hc
    have ho := (contains_iff.mp hc).2.2
    have hlt := lt_size_of_occupant ho
    rw [hslot] at hlt
    rw [Nat.lt_one_iff.mp hlt, occupant, hslot] at ho
    cases ho
    rw [hhandle] at hlt
    exact absurd hlt (by decide)
  · obtain ⟨hs, hr⟩ : ∃ hs, Reached True (idle (2 ^ 32 - 1)) hs :=
      exists_reached_idle True (2 ^ 32 - 2)
    refine ⟨_, _, hr.register ⟨0⟩, ?_, contains_register_full _, ?_⟩
    · rw [capacity, register_idle]
      rfl
    · change (Heap.trace _ _ _ [.object ⟨0⟩]).garbage.length = 1
      rw [trace_of_not_contains (contains_register_full _ _), register_idle]
      rfl

end Heap

end CornScript
