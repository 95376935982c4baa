import CornScript.Heap.Trace
import Mathlib.Data.List.Nodup
import Mathlib.Order.Nat
import Mathlib.Tactic.Common

/-! # Slots and their occupants

The slots of a heap are read through two functions that are defined for every number: who occupies
a slot, and how often it was filled. Registering fills one slot, and a sweep vacates the slots
without a mark. As long as slot numbers and fill counts fit into 32 bits, the occupants of the slots
are exactly the objects that the heap owns.
-/

namespace CornScript

namespace Handles

@[simp] theorem get_set (hs : Handles) (r r' : Ref) (handle : Handle) :
    (hs.set r handle).get r' = if r' = r then handle else hs.get r' := by
  obtain ⟨i⟩ := r
  obtain ⟨j⟩ := r'
  simp only [set, get, Ref.mk.injEq]
  split
  · rename_i hi
    simp only [Array.getD_eq_getD_getElem?, Array.getElem?_setIfInBounds]
    by_cases hj : j = i
    · simp [hj, hi]
    · simp [hj, Ne.symm hj]
  · rename_i hi
    simp only [Array.getD_eq_getD_getElem?, Array.getElem?_push, Array.getElem?_append,
      Array.getElem?_replicate, Array.size_append, Array.size_replicate]
    by_cases hj : j = i
    · have hs' : j = hs.table.size + (i - hs.table.size) := by omega
      simp [hj, ← hs']
    · have hs' : j ≠ hs.table.size + (i - hs.table.size) := by omega
      rw [if_neg hs', if_neg hj]
      by_cases hlt : j < hs.table.size
      · rw [if_pos hlt]
      · rw [if_neg hlt, Array.getElem?_eq_none (by omega)]
        split <;> rfl

end Handles

theorem toUInt32_ne_zero {n : Nat} (hp : 0 < n) (hn : n < UInt32.size) : n.toUInt32 ≠ 0 := by
  intro h
  have h' := congrArg UInt32.toNat h
  rw [Nat.toUInt32, UInt32.toNat_ofNat_of_lt' hn] at h'
  exact Nat.ne_of_gt hp h'

theorem toNat_toUInt32 {n : Nat} (hn : n < UInt32.size) : n.toUInt32.toNat = n :=
  UInt32.toNat_ofNat_of_lt' hn

theorem toNat_toUInt32_le (n : Nat) : n.toUInt32.toNat ≤ n :=
  Nat.mod_le n _

theorem mem_map_toUInt32 {l : List Nat} (hl : ∀ n ∈ l, n < UInt32.size) {i : UInt32} :
    i ∈ l.map Nat.toUInt32 ↔ i.toNat ∈ l := by
  rw [List.mem_map]
  constructor
  · rintro ⟨n, hn, rfl⟩
    rwa [toNat_toUInt32 (hl n hn)]
  · exact fun hi => ⟨i.toNat, hi, UInt32.ofNat_toNat⟩

theorem nodup_map_toUInt32 {l : List Nat} (hl : ∀ n ∈ l, n < UInt32.size) (hn : l.Nodup) :
    (l.map Nat.toUInt32).Nodup := by
  refine hn.map_on fun a ha b hb he => ?_
  rw [← toNat_toUInt32 (hl a ha), he, toNat_toUInt32 (hl b hb)]

namespace Heap

def occupant (h : Heap) (i : Nat) : Option Ref :=
  (h.slots.getD i .vacant).occupant

def fills (h : Heap) (i : Nat) : Nat :=
  (h.slots.getD i .vacant).fills

variable {h : Heap} {hs : Handles} {r : Ref} {i j : Nat}

theorem occupant_eq_none (hi : h.slots.size ≤ i) : h.occupant i = none := by
  simp [occupant, Array.getD_eq_getD_getElem?, Array.getElem?_eq_none hi, Slot.vacant]

theorem fills_eq_zero (hi : h.slots.size ≤ i) : h.fills i = 0 := by
  simp [fills, Array.getD_eq_getD_getElem?, Array.getElem?_eq_none hi, Slot.vacant]

theorem getD_push_vacant (slots : Array Slot) (i : Nat) :
    (slots.push .vacant)[i]?.getD .vacant = slots[i]?.getD .vacant := by
  rw [Array.getElem?_push]
  split
  · next hi => simp [hi]
  · rfl

theorem lt_size_of_occupant (ho : h.occupant i = some r) : i < h.slots.size := by
  by_contra hi
  rw [occupant_eq_none (Nat.le_of_not_lt hi)] at ho
  cases ho

theorem resolve_eq_some_iff {handle : Handle} :
    h.resolve handle = some r ↔ handle.gen ≠ 0 ∧ (h.fills handle.slot.toNat).toUInt32 = handle.gen ∧
      h.occupant handle.slot.toNat = some r := by
  simp only [resolve, Handle.isUnset, fills, occupant, Array.getD_eq_getD_getElem?, beq_iff_eq]
  by_cases hg : handle.gen = 0
  · simp [hg]
  · cases hs : h.slots[handle.slot.toNat]? <;> simp [hg, Slot.vacant, Slot.gen]

theorem contains_iff :
    h.contains hs r = true ↔ (hs.get r).gen ≠ 0 ∧
      (h.fills (hs.get r).slot.toNat).toUInt32 = (hs.get r).gen ∧
      h.occupant (hs.get r).slot.toNat = some r := by
  rw [contains, decide_eq_true_eq, resolve_eq_some_iff]

theorem contains_iff_resolve : h.contains hs r = true ↔ h.resolve (hs.get r) = some r := by
  rw [contains, decide_eq_true_eq]

theorem contains_of_unset (hr : hs.get r = .unset) : h.contains hs r = false := by
  rw [Bool.eq_false_iff]
  intro hc
  have hgen := (contains_iff.mp hc).1
  rw [hr] at hgen
  exact hgen rfl

theorem eq_of_slot_eq {r' : Ref} (hr : h.contains hs r = true) (hr' : h.contains hs r' = true)
    (he : (hs.get r).slot.toNat = (hs.get r').slot.toNat) : r = r' := by
  have ho := (contains_iff.mp hr).2.2
  rw [he, (contains_iff.mp hr').2.2] at ho
  exact (Option.some.inj ho).symm

/-- The slot that the next registration fills, unless the numbers of slots have run out. -/
def place (h : Heap) : Nat :=
  (h.free.map UInt32.toNat).headD h.slots.size

theorem next_eq : h.next = h.place.toUInt32 := by
  rw [next, place]
  cases h.free with
  | nil => rfl
  | cons i rest => exact UInt32.ofNat_toNat.symm

theorem toNat_next (hp : h.place < UInt32.size) : h.next.toNat = h.place := by
  rw [next_eq, toNat_toUInt32 hp]

theorem toNat_next_le : h.next.toNat ≤ h.place := by
  rw [next_eq]
  exact toNat_toUInt32_le _

/-- Slot numbers have not run out, and no count of fills has left the range of generations. -/
structure Fits (h : Heap) : Prop where
  size_le : h.slots.size ≤ UInt32.size
  fills_lt : ∀ i, h.fills i < UInt32.size

theorem register_of_contains (hc : h.contains hs r = true) : h.register hs r = (h, hs) := by
  simp [register, hc]

section Register

variable (hc : h.contains hs r = false)

include hc

theorem fst_register : (h.register hs r).1 =
    { h with
      slots := (if h.free = [] then h.slots.push .vacant else h.slots).setIfInBounds h.next.toNat
        ⟨some r, h.fills h.next.toNat + 1⟩
      free := h.free.tail
      live := h.live + 1 } := by
  cases hf : h.free with
  | nil =>
    simp [register, hc, hf, fill, fills, Array.getD_eq_getD_getElem?, getD_push_vacant]
  | cons i rest => simp [register, hc, hf, fill, fills]

theorem snd_register : (h.register hs r).2 =
    hs.set r ⟨h.next, (h.fills h.next.toNat + 1).toUInt32⟩ := by
  cases hf : h.free with
  | nil =>
    simp [register, hc, hf, fill, fills, Array.getD_eq_getD_getElem?, getD_push_vacant, Slot.gen]
  | cons i rest => simp [register, hc, hf, fill, fills, Slot.gen]

theorem size_register : (h.register hs r).1.slots.size =
    if h.free = [] then h.slots.size + 1 else h.slots.size := by
  rw [fst_register hc]
  split <;> simp

theorem slot_register_of_ne (hi : i ≠ h.next.toNat) :
    (h.register hs r).1.slots.getD i .vacant = h.slots.getD i .vacant := by
  rw [fst_register hc]
  simp only [Array.getD_eq_getD_getElem?, Array.getElem?_setIfInBounds, Ne.symm hi, if_false]
  split
  · exact getD_push_vacant _ i
  · rfl

theorem slot_register_of_lt (hlt : h.next.toNat < (h.register hs r).1.slots.size) :
    (h.register hs r).1.slots.getD h.next.toNat .vacant =
      ⟨some r, h.fills h.next.toNat + 1⟩ := by
  rw [fst_register hc] at hlt ⊢
  rw [Array.size_setIfInBounds] at hlt
  simp [Array.getD_eq_getD_getElem?, hlt]

theorem place_lt_of_register (hsize : (h.register hs r).1.slots.size ≤ UInt32.size) :
    h.place < UInt32.size := by
  rw [size_register hc] at hsize
  rw [place]
  cases hf : h.free with
  | nil =>
    rw [if_pos hf] at hsize
    exact hsize
  | cons i rest => exact i.toNat_lt

end Register

theorem size_le_register : h.slots.size ≤ (h.register hs r).1.slots.size := by
  cases hc : h.contains hs r with
  | true => rw [register_of_contains hc]
  | false =>
    rw [size_register hc]
    split
    · exact Nat.le_succ _
    · exact Nat.le_refl _

theorem fills_le_register : h.fills i ≤ (h.register hs r).1.fills i := by
  cases hc : h.contains hs r with
  | true => rw [register_of_contains hc]
  | false =>
    by_cases hi : i = h.next.toNat
    · subst hi
      by_cases hlt : h.next.toNat < (h.register hs r).1.slots.size
      · rw [fills, fills, slot_register_of_lt hc hlt]
        exact Nat.le_succ _
      · rw [fills_eq_zero (size_le_register.trans (Nat.le_of_not_lt hlt))]
        exact Nat.zero_le _
    · rw [fills, fills, slot_register_of_ne hc hi]

theorem Fits.of_register (hf : (h.register hs r).1.Fits) : h.Fits :=
  ⟨size_le_register.trans hf.size_le, fun i => fills_le_register.trans_lt (hf.fills_lt i)⟩

/-- The free list holds vacant slots, and each of them once. Only slots whose numbers have 32 bits
are ever occupied. -/
structure Spare (h : Heap) : Prop where
  nodup : h.free.Nodup
  vacant : ∀ i ∈ h.free, i.toNat < h.slots.size ∧ h.occupant i.toNat = none
  numbered : ∀ {i r}, h.occupant i = some r → i < UInt32.size

theorem spare_empty : empty.Spare where
  nodup := List.nodup_nil
  vacant _ hi := absurd hi List.not_mem_nil
  numbered ho := absurd (lt_size_of_occupant ho) (Nat.not_lt_zero _)

section Register

variable (hh : h.Spare)

include hh

theorem Spare.place_cases :
    (h.free = [] ∧ h.place = h.slots.size) ∨
      ∃ rest, h.free = h.next :: rest ∧ h.place = h.next.toNat ∧ h.place < h.slots.size ∧
        h.occupant h.place = none := by
  cases hf : h.free with
  | nil => exact .inl ⟨rfl, by simp [place, hf]⟩
  | cons i rest =>
    have hp : h.place = i.toNat := by simp [place, hf]
    have hn : h.next = i := by simp [next, hf]
    have hm := hh.vacant i (by simp [hf])
    exact .inr ⟨rest, by rw [hn], by rw [hp, hn], hp ▸ hm.1, hp ▸ hm.2⟩

theorem Spare.occupant_place : h.occupant h.place = none := by
  rcases hh.place_cases with ⟨_, hp⟩ | ⟨_, _, _, _, ho⟩
  · exact occupant_eq_none hp.ge
  · exact ho

variable (hc : h.contains hs r = false)

include hc

theorem Spare.size_register :
    (h.register hs r).1.slots.size = max h.slots.size (h.place + 1) := by
  rw [Heap.size_register hc]
  rcases hh.place_cases with ⟨hf, hp⟩ | ⟨rest, hf, _, hp, _⟩
  · rw [if_pos hf]
    omega
  · rw [if_neg (by simp [hf])]
    omega

theorem Spare.next_lt : h.next.toNat < (h.register hs r).1.slots.size := by
  have hle := h.toNat_next_le
  rw [hh.size_register hc]
  omega

theorem Spare.slot_register : (h.register hs r).1.slots.getD i .vacant =
    if i = h.next.toNat then ⟨some r, h.fills h.next.toNat + 1⟩ else h.slots.getD i .vacant := by
  split
  · next hi =>
    rw [hi]
    exact slot_register_of_lt hc (hh.next_lt hc)
  · next hi => exact slot_register_of_ne hc hi

theorem Spare.occupant_register : (h.register hs r).1.occupant i =
    if i = h.next.toNat then some r else h.occupant i := by
  rw [occupant, hh.slot_register hc]
  split <;> rfl

theorem Spare.fills_register : (h.register hs r).1.fills i =
    if i = h.next.toNat then h.fills h.next.toNat + 1 else h.fills i := by
  rw [fills, hh.slot_register hc]
  split <;> rfl

theorem Spare.mem_free_register {i : UInt32} :
    i ∈ (h.register hs r).1.free ↔ i ∈ h.free ∧ i ≠ h.next := by
  have hn := hh.nodup
  rw [fst_register hc]
  rcases hh.place_cases with ⟨hf, _⟩ | ⟨rest, hf, _⟩
  · simp [hf]
  · rw [hf] at hn
    rw [hf, List.tail_cons, List.mem_cons]
    constructor
    · intro hi
      exact ⟨.inr hi, fun he => (List.nodup_cons.mp hn).1 (he ▸ hi)⟩
    · rintro ⟨hi | hi, hne⟩
      · exact absurd hi hne
      · exact hi

end Register

theorem Spare.register (hh : h.Spare) : (h.register hs r).1.Spare := by
  by_cases hc : h.contains hs r = true
  · rwa [register_of_contains hc]
  rw [Bool.not_eq_true] at hc
  constructor
  · rw [fst_register hc]
    exact hh.nodup.tail
  · intro i hi
    obtain ⟨hfree, hne⟩ := (hh.mem_free_register hc).mp hi
    obtain ⟨hlt, ho⟩ := hh.vacant i hfree
    rw [hh.occupant_register hc, if_neg fun he => hne (UInt32.toNat_inj.mp he)]
    exact ⟨hlt.trans_le size_le_register, ho⟩
  · intro i r' ho
    rw [hh.occupant_register hc] at ho
    split at ho
    · next hi => exact hi ▸ h.next.toNat_lt
    · exact hh.numbered ho

/-- The occupant of a slot carries the handle that names the slot with its present generation. -/
structure Named (h : Heap) (hs : Handles) : Prop extends h.Spare where
  handle : ∀ {i r}, h.occupant i = some r → hs.get r = ⟨i.toUInt32, (h.fills i).toUInt32⟩
  fills_pos : ∀ {i r}, h.occupant i = some r → 0 < h.fills i

theorem named_empty (hs : Handles) : empty.Named hs where
  toSpare := spare_empty
  handle ho := absurd (lt_size_of_occupant ho) (Nat.not_lt_zero _)
  fills_pos ho := absurd (lt_size_of_occupant ho) (Nat.not_lt_zero _)

theorem Named.contains_of_occupant (hh : h.Named hs) (hf : ∀ i, h.fills i < UInt32.size)
    (ho : h.occupant i = some r) :
    h.contains hs r = true ∧ (hs.get r).slot.toNat = i := by
  have hr := hh.handle ho
  have hs' : (hs.get r).slot.toNat = i := by rw [hr]; exact toNat_toUInt32 (hh.numbered ho)
  refine ⟨contains_iff.mpr ?_, hs'⟩
  rw [hs', hr]
  exact ⟨toUInt32_ne_zero (hh.fills_pos ho) (hf i), rfl, ho⟩

theorem Named.occupant_ne (hh : h.Named hs) (hf : ∀ i, h.fills i < UInt32.size)
    (hc : h.contains hs r = false) : h.occupant i ≠ some r := by
  intro ho
  rw [(hh.contains_of_occupant hf ho).1] at hc
  cases hc

theorem Named.register (hh : h.Named hs) (hf : ∀ i, h.fills i < UInt32.size) :
    (h.register hs r).1.Named (h.register hs r).2 := by
  by_cases hc : h.contains hs r = true
  · rwa [register_of_contains hc]
  rw [Bool.not_eq_true] at hc
  refine ⟨hh.toSpare.register, fun {i r'} ho => ?_, fun {i r'} ho => ?_⟩
  · rw [hh.occupant_register hc] at ho
    rw [snd_register hc, Handles.get_set, hh.fills_register hc]
    split at ho
    · next hi =>
      cases ho
      rw [if_pos rfl, if_pos hi, hi]
      exact congrArg (Handle.mk · _) UInt32.ofNat_toNat.symm
    · next hi =>
      have hr : r' ≠ r := by
        rintro rfl
        exact hh.occupant_ne hf hc ho
      rw [if_neg hr, if_neg hi]
      exact hh.handle ho
  · rw [hh.occupant_register hc] at ho
    rw [hh.fills_register hc]
    split at ho
    · next hi =>
      rw [if_pos hi]
      exact Nat.succ_pos _
    · next hi =>
      rw [if_neg hi]
      exact hh.fills_pos ho

/-- Besides, the free list holds all of the vacant slots. -/
structure Consistent (h : Heap) (hs : Handles) : Prop extends h.Named hs where
  free_of_vacant : ∀ {i : UInt32}, i.toNat < h.slots.size → h.occupant i.toNat = none → i ∈ h.free

theorem consistent_empty (hs : Handles) : empty.Consistent hs where
  toNamed := named_empty hs
  free_of_vacant hlt := absurd hlt (Nat.not_lt_zero _)

theorem Consistent.mem_free (hh : h.Consistent hs) {i : UInt32} :
    i ∈ h.free ↔ i.toNat < h.slots.size ∧ h.occupant i.toNat = none :=
  ⟨hh.vacant i, fun hi => hh.free_of_vacant hi.1 hi.2⟩

section Register

variable (hh : h.Consistent hs) (hf : (h.register hs r).1.Fits)

include hh hf

theorem Consistent.occupant_register (hc : h.contains hs r = false) :
    (h.register hs r).1.occupant i = if i = h.place then some r else h.occupant i := by
  rw [hh.toSpare.occupant_register hc, toNat_next (place_lt_of_register hc hf.size_le)]

theorem Consistent.fills_register (hc : h.contains hs r = false) :
    (h.register hs r).1.fills i = if i = h.place then h.fills h.place + 1 else h.fills i := by
  rw [hh.toSpare.fills_register hc, toNat_next (place_lt_of_register hc hf.size_le)]

theorem Consistent.register : (h.register hs r).1.Consistent (h.register hs r).2 := by
  refine ⟨hh.toNamed.register hf.of_register.fills_lt, fun {i} hlt ho => ?_⟩
  by_cases hc : h.contains hs r = true
  · rw [register_of_contains hc] at hlt ho ⊢
    exact hh.free_of_vacant hlt ho
  rw [Bool.not_eq_true] at hc
  have hnext := toNat_next (place_lt_of_register hc hf.size_le)
  rw [hh.toSpare.size_register hc] at hlt
  rw [hh.occupant_register hf hc] at ho
  rw [hh.mem_free_register hc]
  split at ho
  · cases ho
  · next hi =>
    refine ⟨hh.free_of_vacant ?_ ho, fun he => hi (he ▸ hnext)⟩
    rcases hh.place_cases with ⟨_, hp⟩ | ⟨_, _, _, hp, _⟩ <;> omega

end Register

theorem Consistent.contains_register (hh : h.Consistent hs) (hf : (h.register hs r).1.Fits) :
    (h.register hs r).1.contains (h.register hs r).2 r = true := by
  by_cases hc : h.contains hs r = true
  · rwa [register_of_contains hc]
  · rw [Bool.not_eq_true] at hc
    refine ((hh.register hf).contains_of_occupant hf.fills_lt (i := h.place) ?_).1
    rw [hh.occupant_register hf hc, if_pos rfl]

theorem Consistent.contains_register_of_contains {r' : Ref} (hh : h.Consistent hs)
    (hf : (h.register hs r).1.Fits) (hr : h.contains hs r' = true) :
    (h.register hs r).1.contains (h.register hs r).2 r' = true := by
  by_cases hc : h.contains hs r = true
  · rwa [register_of_contains hc]
  · rw [Bool.not_eq_true] at hc
    have ho := (contains_iff.mp hr).2.2
    refine ((hh.register hf).contains_of_occupant hf.fills_lt (i := (hs.get r').slot.toNat) ?_).1
    rw [hh.occupant_register hf hc, if_neg, ho]
    intro he
    rw [he, hh.occupant_place] at ho
    cases ho

section Sweep

theorem mem_garbage : i ∈ h.garbage ↔ (h.occupant i).isSome ∧ h.marks.mem i = false := by
  have hg : h.slots[i]?.bind (·.occupant) = h.occupant i := by
    rw [occupant, Array.getD_eq_getD_getElem?]
    cases h.slots[i]? <;> rfl
  simp only [garbage, List.mem_filter, List.mem_range, hg, Bool.and_eq_true, Bool.not_eq_true']
  constructor
  · exact fun hi => hi.2
  · intro hi
    obtain ⟨r, hr⟩ := Option.isSome_iff_exists.mp hi.1
    exact ⟨lt_size_of_occupant hr, hi⟩

theorem nodup_garbage : h.garbage.Nodup :=
  List.nodup_range.filter _

@[simp] theorem size_sweep : h.sweep.2.slots.size = h.slots.size := by
  simp [sweep]

theorem slot_sweep : h.sweep.2.slots.getD i .vacant =
    if h.marks.mem i then h.slots.getD i .vacant
    else { h.slots.getD i .vacant with occupant := none } := by
  simp only [sweep, Array.getD_eq_getD_getElem?, Array.getElem?_mapIdx]
  cases h.slots[i]? with
  | none => simp [Slot.vacant]
  | some slot => split <;> simp_all

theorem occupant_sweep :
    h.sweep.2.occupant i = if h.marks.mem i then h.occupant i else none := by
  rw [occupant, slot_sweep]
  split <;> rfl

@[simp] theorem fills_sweep : h.sweep.2.fills i = h.fills i := by
  rw [fills, slot_sweep]
  split <;> rfl

theorem fits_sweep : h.sweep.2.Fits ↔ h.Fits :=
  ⟨fun hf => ⟨size_sweep (h := h) ▸ hf.size_le, fun i => fills_sweep (h := h) ▸ hf.fills_lt i⟩,
    fun hf => ⟨size_sweep.symm ▸ hf.size_le, fun i => fills_sweep.symm ▸ hf.fills_lt i⟩⟩

theorem Spare.garbage_lt (hh : h.Spare) : ∀ i ∈ h.garbage, i < UInt32.size := by
  intro i hi
  obtain ⟨r, hr⟩ := Option.isSome_iff_exists.mp (mem_garbage.mp hi).1
  exact hh.numbered hr

theorem Spare.mem_free_sweep (hh : h.Spare) {i : UInt32} :
    i ∈ h.sweep.2.free ↔ i.toNat ∈ h.garbage ∨ i ∈ h.free := by
  change i ∈ (h.garbage.map Nat.toUInt32).reverse ++ h.free ↔ _
  rw [List.mem_append, List.mem_reverse, mem_map_toUInt32 hh.garbage_lt]

theorem Spare.sweep (hh : h.Spare) : h.sweep.2.Spare where
  nodup := by
    have hgarbage := nodup_map_toUInt32 hh.garbage_lt nodup_garbage
    refine List.Nodup.append (List.nodup_reverse.mpr hgarbage) hh.nodup ?_
    intro i hi hf
    rw [List.mem_reverse, mem_map_toUInt32 hh.garbage_lt, mem_garbage, (hh.vacant i hf).2] at hi
    exact absurd hi.1 (by simp)
  vacant i hi := by
    rw [size_sweep, occupant_sweep]
    rcases hh.mem_free_sweep.mp hi with hi | hi
    · obtain ⟨ho, hm⟩ := mem_garbage.mp hi
      obtain ⟨r, hr⟩ := Option.isSome_iff_exists.mp ho
      exact ⟨lt_size_of_occupant hr, by rw [hm]; rfl⟩
    · obtain ⟨hlt, ho⟩ := hh.vacant i hi
      exact ⟨hlt, by rw [ho, ite_self]⟩
  numbered {i r} ho := by
    rw [occupant_sweep] at ho
    split at ho
    · exact hh.numbered ho
    · cases ho

theorem Named.sweep (hh : h.Named hs) : h.sweep.2.Named hs where
  toSpare := hh.toSpare.sweep
  handle {i r} ho := by
    rw [occupant_sweep] at ho
    rw [fills_sweep]
    split at ho
    · exact hh.handle ho
    · cases ho
  fills_pos {i r} ho := by
    rw [occupant_sweep] at ho
    rw [fills_sweep]
    split at ho
    · exact hh.fills_pos ho
    · cases ho

theorem Consistent.sweep (hh : h.Consistent hs) : h.sweep.2.Consistent hs where
  toNamed := hh.toNamed.sweep
  free_of_vacant {i} hlt ho := by
    rw [size_sweep] at hlt
    rw [hh.mem_free_sweep, mem_garbage, hh.mem_free]
    cases hi : h.occupant i.toNat with
    | none => simp [hlt]
    | some r =>
      rw [occupant_sweep, hi] at ho
      simpa using ho

/-- What a sweep leaves owned is what was owned and marked. -/
theorem contains_sweep_iff :
    h.sweep.2.contains hs r = true ↔
      h.contains hs r = true ∧ h.marks.mem (hs.get r).slot.toNat = true := by
  rw [contains_iff, contains_iff, occupant_sweep, fills_sweep]
  split <;> simp_all

end Sweep

end Heap

end CornScript
