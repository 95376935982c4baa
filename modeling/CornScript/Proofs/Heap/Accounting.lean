import CornScript.Proofs.Heap.Collection

/-! # The books of a heap

A heap keeps books about itself: a list of its vacant slots, the number of its live objects, how
many objects it has given up, and how many sweeps there were. Whatever is done with a heap and in
whatever order, the books agree with the slots and with what was done.
-/

namespace CornScript.Heap

inductive Op where
  | register (r : Ref)
  | mark (store : Store) (r : Ref)
  | markScope (store : Store) (id : ScopeId)
  | sweep
  | collect (store : Store) (root : Option ScopeId) (extra : List Ref)

namespace Op

def apply (h : Heap) (hs : Handles) : Op → Heap × Handles
  | register r => h.register hs r
  | mark store r => (h.mark store hs r, hs)
  | markScope store id => (h.markScope store hs id, hs)
  | sweep => (h.sweep.2, hs)
  | collect store root extra => ((h.collect store hs root extra).2, hs)

/-- One for a registration of an object that the heap does not own, and otherwise zero. -/
def admissions (h : Heap) (hs : Handles) : Op → Nat
  | register r => if h.contains hs r then 0 else 1
  | _ => 0

def sweeps : Op → Nat
  | sweep | collect _ _ _ => 1
  | _ => 0

end Op

/-- A heap with the handles of all objects and with its history: the largest number of live objects
that it ever had, the registrations that were not in vain, and the sweeps. -/
structure Chronicle where
  heap : Heap
  handles : Handles
  peak : Nat
  admissions : Nat
  sweeps : Nat

namespace Chronicle

def start (hs : Handles) : Chronicle :=
  ⟨.empty, hs, 0, 0, 0⟩

def step (c : Chronicle) (op : Op) : Chronicle where
  heap := (op.apply c.heap c.handles).1
  handles := (op.apply c.heap c.handles).2
  peak := max c.peak (op.apply c.heap c.handles).1.live
  admissions := c.admissions + op.admissions c.heap c.handles
  sweeps := c.sweeps + op.sweeps

def run (hs : Handles) (ops : List Op) : Chronicle :=
  ops.foldl step (start hs)

end Chronicle

variable {h h' : Heap} {hs : Handles} {r : Ref} {i : Nat} {store : Store}

def occupied (h : Heap) : Finset Nat :=
  (Finset.range h.slots.size).filter fun i => (h.occupant i).isSome

theorem mem_occupied : i ∈ h.occupied ↔ (h.occupant i).isSome := by
  rw [occupied, Finset.mem_filter, Finset.mem_range, and_iff_right_iff_imp]
  intro ho
  obtain ⟨r, hr⟩ := Option.isSome_iff_exists.mp ho
  exact lt_size_of_occupant hr

theorem SamePlaces.occupied_eq (hp : SamePlaces h h') : h'.occupied = h.occupied := by
  rw [hp]
  rfl

theorem Consistent.nodup_map_free (hh : h.Consistent hs) : (h.free.map UInt32.toNat).Nodup :=
  hh.nodup.map fun _ _ => UInt32.toNat_inj.mp

theorem Consistent.mem_map_free (hh : h.Consistent hs) (hf : h.Fits) :
    i ∈ h.free.map UInt32.toNat ↔ i < h.slots.size ∧ h.occupant i = none := by
  rw [List.mem_map]
  constructor
  · rintro ⟨j, hj, rfl⟩
    exact hh.mem_free.mp hj
  · rintro ⟨hlt, ho⟩
    have hi := toNat_toUInt32 (hlt.trans_le hf.size_le)
    exact ⟨i.toUInt32, hh.mem_free.mpr (by rw [hi]; exact ⟨hlt, ho⟩), hi⟩

theorem Consistent.occupied_add_free (hh : h.Consistent hs) (hf : h.Fits) :
    h.occupied.card + h.free.length = h.slots.size := by
  have hfree : (h.free.map UInt32.toNat).toFinset =
      (Finset.range h.slots.size).filter fun i => ¬ (h.occupant i).isSome := by
    ext i
    rw [List.mem_toFinset, hh.mem_map_free hf, Finset.mem_filter, Finset.mem_range,
      Bool.not_eq_true, Option.isSome_eq_false_iff, Option.isNone_iff_eq_none]
  rw [← h.free.length_map UInt32.toNat, ← List.toFinset_card_of_nodup hh.nodup_map_free, hfree,
    occupied, Finset.card_filter_add_card_filter_not, Finset.card_range]

theorem Consistent.occupied_register (hh : h.Consistent hs) (hf : (h.register hs r).1.Fits)
    (hc : h.contains hs r = false) :
    (h.register hs r).1.occupied.card = h.occupied.card + 1 := by
  have hplace : h.place ∉ h.occupied := by
    rw [mem_occupied, hh.occupant_place]
    simp
  have hins : (h.register hs r).1.occupied = insert h.place h.occupied := by
    ext i
    rw [mem_occupied, hh.occupant_register hf hc, Finset.mem_insert, mem_occupied]
    split
    · next hi => simp [hi]
    · next hi => simp [hi]
  rw [hins, Finset.card_insert_of_notMem hplace]

theorem occupied_sweep : h.sweep.2.occupied.card + h.garbage.length = h.occupied.card := by
  have hkept : h.sweep.2.occupied = h.occupied.filter fun i => h.marks.mem i = true := by
    ext i
    rw [mem_occupied, occupant_sweep, Finset.mem_filter, mem_occupied]
    split
    · next hm => simp [hm]
    · next hm => simp [hm]
  have hgone : h.garbage.toFinset = h.occupied.filter fun i => ¬ h.marks.mem i = true := by
    ext i
    rw [List.mem_toFinset, mem_garbage, Finset.mem_filter, mem_occupied, Bool.not_eq_true]
  rw [hkept, ← List.toFinset_card_of_nodup nodup_garbage, hgone,
    Finset.card_filter_add_card_filter_not]

def MarksOccupied (h : Heap) : Prop :=
  ∀ i, h.marks.mem i = true → (h.occupant i).isSome

theorem MarksOccupied.register (hm : h.MarksOccupied) (hh : h.Consistent hs) :
    (h.register hs r).1.MarksOccupied := by
  intro i hi
  rw [marks_register] at hi
  cases hc : h.contains hs r with
  | true =>
    rw [register_of_contains hc]
    exact hm i hi
  | false =>
    rw [hh.toSpare.occupant_register hc]
    split
    · rfl
    · exact hm i hi

theorem MarksOccupied.trace (hm : h.MarksOccupied) (items : List Item) :
    (h.trace store hs items).MarksOccupied := by
  intro i hi
  have ho : (h.trace store hs items).occupant i = h.occupant i := by
    rw [samePlaces_trace store hs h items]
    rfl
  rw [ho]
  rcases mem_marks_trace hi with hi | ⟨r, hr, rfl⟩
  · exact hm i hi
  · rw [(contains_iff.mp hr).2.2]
    rfl

theorem marksOccupied_sweep : h.sweep.2.MarksOccupied := by
  intro i hi
  change BitSet.empty.mem i = true at hi
  rw [BitSet.mem_empty] at hi
  cases hi

namespace Chronicle

variable {c : Chronicle}

structure Balanced (c : Chronicle) : Prop where
  consistent : c.heap.Consistent c.handles
  live : c.heap.live = c.heap.occupied.card
  peak : c.heap.slots.size = c.peak
  marks : c.heap.MarksOccupied
  admissions : c.heap.live + c.heap.freed = c.admissions
  sweeps : c.heap.cycles = c.sweeps

theorem balanced_start (hs : Handles) : (start hs).Balanced where
  consistent := consistent_empty hs
  live := rfl
  peak := rfl
  marks i hi := by
    change BitSet.empty.mem i = true at hi
    rw [BitSet.mem_empty] at hi
    cases hi
  admissions := rfl
  sweeps := rfl

theorem Balanced.live_add_free (hb : c.Balanced) (hf : c.heap.Fits) :
    c.heap.live + c.heap.free.length = c.heap.slots.size := by
  rw [hb.live, hb.consistent.occupied_add_free hf]

theorem Balanced.register (hb : c.Balanced) (r : Ref) (hf : (c.step (.register r)).heap.Fits) :
    (c.step (.register r)).Balanced := by
  have hlive := hb.live_add_free hf.of_register
  have hpeak := hb.peak
  cases hc : c.heap.contains c.handles r with
  | true =>
    have hstep : c.step (.register r) = { c with peak := max c.peak c.heap.live } := by
      simp [step, Op.apply, Op.admissions, Op.sweeps, hc, register_of_contains hc]
    have hmax : max c.peak c.heap.live = c.peak := by omega
    rw [hstep, hmax]
    exact hb
  | false =>
    have hh := hb.consistent
    have hlive' : (c.heap.register c.handles r).1.live = c.heap.live + 1 := by
      rw [fst_register hc]
    refine ⟨hh.register hf, ?_, ?_, hb.marks.register hh, ?_, ?_⟩
    · change (c.heap.register c.handles r).1.live = (c.heap.register c.handles r).1.occupied.card
      rw [hlive', hh.occupied_register hf hc, hb.live]
    · -- A new slot is made only when every slot is taken, and then the number of live objects is
      -- larger than it ever was.
      change (c.heap.register c.handles r).1.slots.size =
        max c.peak (c.heap.register c.handles r).1.live
      rw [hh.toSpare.size_register hc, hlive']
      rcases hh.toSpare.place_cases with ⟨hfree, hp⟩ | ⟨rest, hfree, -, hp, -⟩
      · rw [hfree, List.length_nil] at hlive
        omega
      · rw [hfree, List.length_cons] at hlive
        omega
    · change (c.heap.register c.handles r).1.live + (c.heap.register c.handles r).1.freed =
        c.admissions + if c.heap.contains c.handles r then 0 else 1
      rw [hlive', fst_register hc, hc, ← hb.admissions]
      simp only [Bool.false_eq_true, if_false]
      omega
    · change (c.heap.register c.handles r).1.cycles = c.sweeps + 0
      rw [fst_register hc]
      exact hb.sweeps

theorem Balanced.trace (hb : c.Balanced) (store : Store) (items : List Item) :
    Balanced { c with heap := c.heap.trace store c.handles items } := by
  have hp := samePlaces_trace store c.handles c.heap items
  refine ⟨hp.consistent_iff.mpr hb.consistent, ?_, ?_, hb.marks.trace items, ?_, ?_⟩
  · change (c.heap.trace store c.handles items).live = _
    rw [hp.occupied_eq, hp]
    exact hb.live
  · change (c.heap.trace store c.handles items).slots.size = _
    rw [hp]
    exact hb.peak
  · change (c.heap.trace store c.handles items).live +
      (c.heap.trace store c.handles items).freed = _
    rw [hp]
    exact hb.admissions
  · change (c.heap.trace store c.handles items).cycles = _
    rw [hp]
    exact hb.sweeps

theorem Balanced.sweep (hb : c.Balanced) :
    Balanced { c with heap := c.heap.sweep.2, sweeps := c.sweeps + 1 } := by
  have hcard := occupied_sweep (h := c.heap)
  have hlive := hb.live
  have hadm := hb.admissions
  refine ⟨hb.consistent.sweep, ?_, ?_, marksOccupied_sweep, ?_, ?_⟩
  · change c.heap.live - c.heap.garbage.length = c.heap.sweep.2.occupied.card
    omega
  · exact size_sweep.trans hb.peak
  · change c.heap.live - c.heap.garbage.length + (c.heap.freed + c.heap.garbage.length) =
      c.admissions
    omega
  · change c.heap.cycles + 1 = c.sweeps + 1
    rw [hb.sweeps]

theorem Fits.of_step {op : Op} (hf : (c.step op).heap.Fits) : c.heap.Fits := by
  cases op with
  | register r => exact hf.of_register
  | mark store r => exact (samePlaces_trace store c.handles c.heap _).fits_iff.mp hf
  | markScope store id => exact (samePlaces_trace store c.handles c.heap _).fits_iff.mp hf
  | sweep => exact fits_sweep.mp hf
  | collect store root extra => exact fits_collect.mp hf

theorem Balanced.peak_of_live_le (hb : c.Balanced) (hf : c.heap.Fits) {n : Nat}
    (hn : n ≤ c.heap.live) : max c.peak n = c.peak := by
  have hlive := hb.live_add_free hf
  have hpeak := hb.peak
  omega

theorem Balanced.step (hb : c.Balanced) (op : Op) (hf : (c.step op).heap.Fits) :
    (c.step op).Balanced := by
  have settle {h : Heap} {n : Nat} (hl : h.live ≤ c.heap.live)
      (hb' : Balanced { c with heap := h, sweeps := n }) :
      Balanced { c with heap := h, peak := max c.peak h.live, sweeps := n } := by
    rw [hb.peak_of_live_le (Fits.of_step hf) hl]
    exact hb'
  have live_trace (store : Store) (items : List Item) :
      (c.heap.trace store c.handles items).live ≤ c.heap.live := by
    rw [samePlaces_trace store c.handles c.heap items]
  cases op with
  | register r => exact hb.register r hf
  | mark store r => exact settle (live_trace store _) (hb.trace store _)
  | markScope store id => exact settle (live_trace store _) (hb.trace store _)
  | sweep => exact settle (Nat.sub_le _ _) hb.sweep
  | collect store root extra =>
    exact settle ((Nat.sub_le _ _).trans (live_trace store (rootItems root extra)))
      (hb.trace store (rootItems root extra)).sweep

theorem balanced_run (hs : Handles) (ops : List Op) (hf : (run hs ops).heap.Fits) :
    (run hs ops).Balanced := by
  induction ops using List.reverseRecOn with
  | nil => exact balanced_start hs
  | append_singleton ops op ih =>
    rw [run, List.foldl_concat] at hf ⊢
    exact (ih (Fits.of_step hf)).step op hf

/-- The books of a heap are right: they agree with its slots and with what was done to it. -/
structure Kept (c : Chronicle) : Prop where
  free_nodup : c.heap.free.Nodup
  mem_free : ∀ i, i ∈ c.heap.free.map UInt32.toNat ↔
    i < c.heap.capacity ∧ c.heap.occupant i = none
  live : c.heap.live = c.heap.occupied.card
  live_add_free : c.heap.live + c.heap.free.length = c.heap.capacity
  capacity : c.heap.capacity = c.peak
  handle : ∀ i r, c.heap.occupant i = some r →
    (c.handles.get r).slot.toNat = i ∧ (c.handles.get r).gen = (c.heap.slots.getD i .vacant).gen
  occupant_injective : ∀ i j r, c.heap.occupant i = some r → c.heap.occupant j = some r → i = j
  marks : ∀ i, c.heap.marks.mem i = true → i ∈ c.heap.occupied
  live_add_freed : c.heap.live + c.heap.freed = c.admissions
  cycles : c.heap.cycles = c.sweeps

/-- The books of a heap are right after any operations in any order, as long as slots and
generations can be numbered with 32 bits. -/
theorem kept_run (hs : Handles) (ops : List Op) (hf : (run hs ops).heap.Fits) :
    (run hs ops).Kept := by
  have hb := balanced_run hs ops hf
  have hslot {i : Nat} {r : Ref} (ho : (run hs ops).heap.occupant i = some r) :=
    (hb.consistent.contains_of_occupant hf.fills_lt ho).2
  refine ⟨hb.consistent.nodup, fun i => hb.consistent.mem_map_free hf, hb.live,
    hb.live_add_free hf, hb.peak, fun i r ho => ⟨hslot ho, ?_⟩,
    fun i j r hi hj => (hslot hi).symm.trans (hslot hj),
    fun i hi => mem_occupied.mpr (hb.marks i hi), hb.admissions, hb.sweeps⟩
  rw [hb.consistent.handle ho]
  rfl

/-- Two objects are registered and the second is swept. A third gets its slot, and the second is
registered anew, twice over. -/
def reused : List Op :=
  [.register ⟨0⟩, .register ⟨1⟩, .mark ⟨#[.null, .null, .null], #[]⟩ ⟨0⟩, .sweep, .register ⟨2⟩,
    .register ⟨1⟩, .register ⟨1⟩]

theorem slots_reused : (run .none reused).heap.slots =
    #[⟨some ⟨0⟩, 1⟩, ⟨some ⟨2⟩, 2⟩, ⟨some ⟨1⟩, 1⟩] := by
  cbv

theorem fits_reused : (run .none reused).heap.Fits := by
  refine ⟨?_, fun i => ?_⟩
  · rw [slots_reused]
    decide
  · rw [fills, slots_reused]
    rcases i with _ | _ | _ | i
    · decide
    · decide
    · decide
    · exact Nat.two_pow_pos 32

theorem kept_reused : (run .none reused).heap.Fits ∧ (run .none reused).Kept :=
  ⟨fits_reused, kept_run .none reused fits_reused⟩

def crowd (n : Nat) : List Op :=
  (List.range n).map fun i => .register ⟨i⟩

theorem run_crowd_succ (hs : Handles) (n : Nat) :
    run hs (crowd (n + 1)) = (run hs (crowd n)).step (.register ⟨n⟩) := by
  rw [crowd, List.range_succ, List.map_append, run, List.map_singleton, List.foldl_concat]
  rfl

theorem get_crowd {n : Nat} (hr : n ≤ r.index) :
    (run .none (crowd n)).handles.get r = .unset := by
  induction n with
  | zero => rfl
  | succ n ih =>
    have hget := ih (Nat.le_of_succ_le hr)
    have hne : r ≠ ⟨n⟩ := by
      rintro rfl
      exact Nat.lt_irrefl _ hr
    rw [run_crowd_succ]
    generalize run .none (crowd n) = c at hget
    change (c.heap.register c.handles ⟨n⟩).2.get r = .unset
    cases hc : c.heap.contains c.handles ⟨n⟩ with
    | true => rwa [register_of_contains hc]
    | false => rwa [snd_register hc, Handles.get_set, if_neg hne]

theorem packed_crowd {n : Nat} (hn : n ≤ UInt32.size) :
    Packed n (run .none (crowd n)).heap := by
  induction n with
  | zero => exact packed_empty
  | succ n ih =>
    rw [run_crowd_succ]
    exact (ih (Nat.le_of_succ_le hn)).register hn (contains_of_unset (get_crowd (Nat.le_refl n)))

theorem wrapped_step (hp : Packed UInt32.size c.heap)
    (hr : c.handles.get r = .unset) : Wrapped (c.step (.register r)).heap r :=
  hp.register_full (contains_of_unset hr)

theorem not_kept_of_wrapped (hw : Wrapped c.heap r) : ¬ c.Kept := by
  intro hk
  have hlt : UInt32.size < c.heap.slots.size := hw.size ▸ Nat.lt_succ_self _
  have hmem := (hk.mem_free UInt32.size).mpr ⟨hlt, hw.last⟩
  rw [hw.free] at hmem
  exact List.not_mem_nil hmem

/-- Two things put the books out of order. An object whose handle was overwritten comes to occupy
two slots. And when there are 2 ^ 32 slots, a new one has the number of the first: that one is
filled anew, and the new slot is vacant but not free. -/
theorem not_kept_crowd :
    ¬ ({ run .none [.register ⟨0⟩] with handles := Handles.none.set ⟨0⟩ ⟨7, 7⟩ }.step
      (.register ⟨0⟩)).Kept ∧
    (∀ i, (run .none (crowd (2 ^ 32 + 1))).heap.fills i < 2 ^ 32) ∧
      ¬ (run .none (crowd (2 ^ 32 + 1))).Kept := by
  constructor
  · intro hk
    exact absurd (hk.occupant_injective 0 1 ⟨0⟩ (by cbv) (by cbv)) (by decide)
  · have hw := wrapped_step (packed_crowd (Nat.le_refl UInt32.size))
      (get_crowd (r := ⟨UInt32.size⟩) (Nat.le_refl _))
    have hn : (2 ^ 32 + 1 : Nat) = UInt32.size + 1 := rfl
    rw [hn, run_crowd_succ]
    exact ⟨fun i => (hw.fills_le i).trans_lt (by decide), not_kept_of_wrapped hw⟩

end Chronicle

end CornScript.Heap
