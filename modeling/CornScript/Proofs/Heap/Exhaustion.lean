import CornScript.Proofs.Heap.Slots
import Mathlib.Algebra.Group.Nat.Defs

/-! # When the numbers run out

Generations and the numbers of slots have 32 bits. There are two ways to run out of them: one slot
can be filled again and again, and one object after another can be given a slot of its own. With the
fill number 2 ^ 32 the first way leads to an object that is not owned. With the object number
2 ^ 32 + 1 the second one leads back to the first slot, whose occupant is lost.
-/

namespace CornScript.Heap

variable {h : Heap} {hs : Handles} {r : Ref} {store : Store} {n : Nat}

def idle (n : Nat) : Heap :=
  ⟨#[⟨none, n⟩], [0], .empty, .empty, 0, n, n⟩

theorem occupant_idle (n i : Nat) : (idle n).occupant i = none := by
  rcases i with _ | i
  · rfl
  · exact occupant_eq_none (Nat.succ_le_succ (Nat.zero_le i))

theorem contains_idle (n : Nat) : (idle n).contains hs r = false := by
  rw [Bool.eq_false_iff]
  intro hc
  have ho := (contains_iff.mp hc).2.2
  rw [occupant_idle] at ho
  cases ho

theorem fits_idle {n : Nat} (hn : n < 2 ^ 32) : (idle n).Fits := by
  refine ⟨Nat.two_pow_pos 32, fun i => ?_⟩
  rcases i with _ | i
  · exact hn
  · exact Nat.two_pow_pos 32

theorem contains_empty : Heap.empty.contains hs r = false := by
  rw [Bool.eq_false_iff]
  intro hc
  exact Nat.not_lt_zero _ (lt_size_of_occupant (contains_iff.mp hc).2.2)

theorem sweep_register_empty : (Heap.empty.register hs r).1.sweep.2 = idle 1 := by
  rw [fst_register contains_empty]
  simp [sweep, garbage, idle, empty, next, fills, Slot.vacant]

theorem register_idle (n : Nat) :
    ((idle n).register hs r).1 = ⟨#[⟨some r, n + 1⟩], [], .empty, .empty, 1, n, n⟩ := by
  rw [fst_register (contains_idle n)]
  simp [idle, next, fills]

theorem sweep_register_idle (n : Nat) : ((idle n).register hs r).1.sweep.2 = idle (n + 1) := by
  rw [register_idle]
  simp [sweep, garbage, idle]

/-- With the fill number 2 ^ 32 a slot comes to the generation zero, which no handle names. -/
theorem contains_register_full (hs' : Handles) (r' : Ref) :
    ((idle (2 ^ 32 - 1)).register hs r).1.contains hs' r' = false := by
  rw [Bool.eq_false_iff]
  intro hc
  obtain ⟨hgen, hfills, ho⟩ := contains_iff.mp hc
  have hslot := lt_size_of_occupant ho
  rw [register_idle] at hfills hslot
  have hzero : (hs'.get r').slot.toNat = 0 := Nat.lt_one_iff.mp hslot
  have hfull : (2 ^ 32 - 1 + 1 : Nat).toUInt32 = 0 := rfl
  rw [hzero] at hfills
  exact hgen (hfills.symm.trans hfull)

theorem trace_of_not_contains (hc : h.contains hs r = false) :
    h.trace store hs [.object r] = h := by
  have he : enter? store hs h (.object r) = none := by simp [enter?, hc]
  rw [trace]
  split
  · next he' =>
    rw [he] at he'
    cases he'
  · rw [trace]

theorem sweep_trace_scope {id : ScopeId}
    (hid : (Item.scope id).successors store = []) :
    (h.trace store hs [.scope id]).sweep = h.sweep := by
  rw [trace]
  split
  · next h' he =>
    rw [hid, List.nil_append, trace]
    simp only [enter?] at he
    split at he
    · cases he
      rfl
    · cases he
  · rw [trace]

structure Packed (n : Nat) (h : Heap) : Prop where
  size : h.slots.size = n
  free : h.free = []
  slot : ∀ i < n, ∃ r, h.slots.getD i .vacant = ⟨some r, 1⟩

theorem packed_empty : Packed 0 .empty :=
  ⟨rfl, rfl, fun _ hi => absurd hi (Nat.not_lt_zero _)⟩

section Packed

variable (hp : Packed n h)

include hp

theorem Packed.next_eq : h.next = n.toUInt32 := by
  rw [next, hp.free, hp.size]
  rfl

theorem Packed.fills_le (i : Nat) : h.fills i ≤ 1 := by
  rcases Nat.lt_or_ge i n with hi | hi
  · obtain ⟨r, hr⟩ := hp.slot i hi
    rw [fills, hr]
  · rw [fills_eq_zero (hp.size.trans_le hi)]
    exact Nat.zero_le _

theorem Packed.register (hn : n < UInt32.size) (hc : h.contains hs r = false) :
    Packed (n + 1) (h.register hs r).1 := by
  have hnext : h.next.toNat = n := by rw [hp.next_eq, toNat_toUInt32 hn]
  have hsize : (h.register hs r).1.slots.size = n + 1 := by
    rw [size_register hc, if_pos hp.free, hp.size]
  refine ⟨hsize, ?_, fun i hi => ?_⟩
  · rw [fst_register hc, hp.free]
    rfl
  · rcases Nat.lt_succ_iff_lt_or_eq.mp hi with hlt | rfl
    · rw [slot_register_of_ne hc (hnext.symm ▸ hlt.ne)]
      exact hp.slot i hlt
    · have hslot := slot_register_of_lt hc (by omega)
      rw [hnext, fills_eq_zero hp.size.le] at hslot
      exact ⟨r, hslot⟩

end Packed

/-- With all numbers given out, an object gets the first slot, and the new slot stays vacant. -/
structure Wrapped (h : Heap) (r : Ref) : Prop where
  size : h.slots.size = UInt32.size + 1
  free : h.free = []
  first : h.occupant 0 = some r
  last : h.occupant UInt32.size = none
  fills_le : ∀ i, h.fills i ≤ 2

theorem Packed.register_full (hp : Packed UInt32.size h) (hc : h.contains hs r = false) :
    Wrapped (h.register hs r).1 r := by
  have hnext : h.next.toNat = 0 := by
    rw [hp.next_eq]
    rfl
  have hsize : (h.register hs r).1.slots.size = UInt32.size + 1 := by
    rw [size_register hc, if_pos hp.free, hp.size]
  have hslot := slot_register_of_lt hc (by omega)
  rw [hnext] at hslot
  constructor
  case size => exact hsize
  case free =>
    rw [fst_register hc, hp.free]
    rfl
  case first => rw [occupant, hslot]
  case last =>
    have hne : UInt32.size ≠ h.next.toNat := by
      rw [hnext]
      decide
    rw [occupant, slot_register_of_ne hc hne]
    exact occupant_eq_none hp.size.le
  case fills_le =>
    intro i
    by_cases hi : i = 0
    · rw [hi, fills, hslot]
      exact Nat.succ_le_succ (hp.fills_le 0)
    · rw [fills, slot_register_of_ne hc (hnext.symm ▸ hi)]
      exact (hp.fills_le i).trans (Nat.le_succ 1)

end CornScript.Heap
