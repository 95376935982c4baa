import CornScript.Proofs.Heap.Accounting

/-! # Fresh handles

A registration gives its slot a generation that the slot has not had before, as long as no slot has
been filled 2 ^ 32 times. So no handle is given out twice, a handle never comes to name another
object, and once its object is swept it names nothing for good. With the fill number 2 ^ 32 the
generations begin anew at zero, which stands for no handle at all: the object that gets the slot is
not owned, no mark phase can reach it, and the next sweep vacates the slot.
-/

namespace CornScript.Heap

variable {h h' : Heap} {hs : Handles} {r r' : Ref} {d : Handle} {i : Nat} {store : Store}

/-- The slot of the handle has been filled as often as the handle says. -/
structure Issued (h : Heap) (d : Handle) : Prop where
  gen_ne : d.gen ≠ 0
  gen_le : d.gen.toNat ≤ h.fills d.slot.toNat

theorem Issued.mono (hd : h.Issued d) (hle : ∀ i, h.fills i ≤ h'.fills i) : h'.Issued d :=
  ⟨hd.gen_ne, hd.gen_le.trans (hle _)⟩

theorem issued_of_contains (hf : h.Fits) (hc : h.contains hs r = true) : h.Issued (hs.get r) := by
  obtain ⟨hgen, hfills, -⟩ := contains_iff.mp hc
  refine ⟨hgen, ?_⟩
  rw [← hfills, toNat_toUInt32 (hf.fills_lt _)]

theorem SamePlaces.resolve_eq (hp : SamePlaces h h') (d : Handle) : h'.resolve d = h.resolve d := by
  rw [hp]
  rfl

theorem SamePlaces.fills_eq (hp : SamePlaces h h') (i : Nat) : h'.fills i = h.fills i := by
  rw [hp]
  rfl

theorem resolve_of_sweep (hr : h.sweep.2.resolve d = some r) : h.resolve d = some r := by
  rw [resolve_eq_some_iff, fills_sweep, occupant_sweep] at hr
  obtain ⟨hgen, hfills, ho⟩ := hr
  refine resolve_eq_some_iff.mpr ⟨hgen, hfills, ?_⟩
  split at ho
  · exact ho
  · cases ho

section Register

variable (hh : h.Consistent hs) (hf : (h.register hs r).1.Fits)

include hh hf

theorem Consistent.issued_register : (h.register hs r).1.Issued ((h.register hs r).2.get r) :=
  issued_of_contains hf (hh.contains_register hf)

variable (hc : h.contains hs r = false)

include hc

theorem Consistent.get_register : ((h.register hs r).2.get r).slot.toNat = h.place ∧
    ((h.register hs r).2.get r).gen.toNat = h.fills h.place + 1 := by
  have hslot := place_lt_of_register hc hf.size_le
  have hfills : h.fills h.place + 1 < UInt32.size := by
    have hlt := hf.fills_lt h.place
    rwa [hh.fills_register hf hc, if_pos rfl] at hlt
  rw [snd_register hc, Handles.get_set, if_pos rfl, toNat_next hslot]
  exact ⟨rfl, toNat_toUInt32 hfills⟩

theorem Consistent.not_issued_register : ¬ h.Issued ((h.register hs r).2.get r) := by
  intro hd
  obtain ⟨hslot, hgen⟩ := hh.get_register hf hc
  have hle := hd.gen_le
  rw [hslot, hgen] at hle
  omega

theorem Consistent.resolve_of_register (hd : h.Issued d)
    (hr : (h.register hs r).1.resolve d = some r') : h.resolve d = some r' := by
  obtain ⟨hgen, hfills, ho⟩ := resolve_eq_some_iff.mp hr
  by_cases hi : d.slot.toNat = h.place
  · -- The slot was filled once more than the handle says.
    have hlt := hf.fills_lt d.slot.toNat
    have hlast := congrArg UInt32.toNat hfills
    rw [toNat_toUInt32 hlt, hh.fills_register hf hc, if_pos hi] at hlast
    have hle := hd.gen_le
    rw [hi] at hle
    omega
  · rw [hh.fills_register hf hc, if_neg hi] at hfills
    rw [hh.occupant_register hf hc, if_neg hi] at ho
    exact resolve_eq_some_iff.mpr ⟨hgen, hfills, ho⟩

end Register

/-- The handle that a registration gives out. The registration of an owned object gives out none. -/
def Op.issue? (h : Heap) (hs : Handles) : Op → Option Handle
  | register r => if h.contains hs r then none else some ((h.register hs r).2.get r)
  | mark _ _ | markScope _ _ | sweep | collect _ _ _ => none

namespace Chronicle

variable {c : Chronicle} {op : Op} {ops : List Op}

def extend (c : Chronicle) (ops : List Op) : Chronicle :=
  ops.foldl step c

@[simp] theorem extend_nil (c : Chronicle) : c.extend [] = c := rfl

@[simp] theorem extend_cons (c : Chronicle) (op : Op) (ops : List Op) :
    c.extend (op :: ops) = (c.step op).extend ops := rfl

theorem run_append (hs : Handles) (ops ops' : List Op) :
    run hs (ops ++ ops') = (run hs ops).extend ops' :=
  List.foldl_append

theorem run_snoc (hs : Handles) (ops : List Op) (op : Op) :
    run hs (ops ++ [op]) = (run hs ops).step op :=
  run_append hs ops [op]

def issued (c : Chronicle) : List Op → List Handle
  | [] => []
  | op :: ops => (op.issue? c.heap c.handles).toList ++ issued (c.step op) ops

def Owns (c : Chronicle) (r : Ref) : Prop :=
  c.heap.contains c.handles r = true

theorem step_cases (c : Chronicle) (op : Op) :
    (∃ r, op = .register r) ∨
      (c.step op).handles = c.handles ∧ ∃ store items,
        op.sweeps = 0 ∧ (c.step op).heap = c.heap.trace store c.handles items ∨
        op.sweeps = 1 ∧ (c.step op).heap = (c.heap.trace store c.handles items).sweep.2 := by
  cases op with
  | register r => exact .inl ⟨r, rfl⟩
  | mark store r => exact .inr ⟨rfl, store, [.object r], .inl ⟨rfl, rfl⟩⟩
  | markScope store id => exact .inr ⟨rfl, store, [.scope id], .inl ⟨rfl, rfl⟩⟩
  | sweep =>
    refine .inr ⟨rfl, .initial, [], .inr ⟨rfl, ?_⟩⟩
    rw [trace]
    rfl
  | collect store root extra => exact .inr ⟨rfl, store, rootItems root extra, .inr ⟨rfl, rfl⟩⟩

theorem fills_le_step (c : Chronicle) (op : Op) (i : Nat) :
    c.heap.fills i ≤ (c.step op).heap.fills i := by
  rcases c.step_cases op with ⟨r, rfl⟩ | ⟨-, store, items, ⟨-, heq⟩ | ⟨-, heq⟩⟩
  · exact fills_le_register
  · rw [heq, (samePlaces_trace ..).fills_eq]
  · rw [heq, fills_sweep, (samePlaces_trace ..).fills_eq]

theorem Fits.of_extend (hf : (c.extend ops).heap.Fits) : c.heap.Fits := by
  induction ops generalizing c with
  | nil => exact hf
  | cons op ops ih => exact Fits.of_step (ih hf)

theorem Fits.of_run_append {ops' : List Op} (hf : (run hs (ops ++ ops')).heap.Fits) :
    (run hs ops).heap.Fits := by
  rw [run_append] at hf
  exact Fits.of_extend hf

theorem Balanced.resolve_of_step (hb : c.Balanced) (hf : (c.step op).heap.Fits)
    (hd : c.heap.Issued d) (hr : (c.step op).heap.resolve d = some r) :
    c.heap.resolve d = some r := by
  rcases c.step_cases op with ⟨r', rfl⟩ | ⟨-, store, items, ⟨-, heq⟩ | ⟨-, heq⟩⟩
  · change (c.heap.register c.handles r').1.resolve d = some r at hr
    cases hc : c.heap.contains c.handles r' with
    | true => rwa [register_of_contains hc] at hr
    | false => exact hb.consistent.resolve_of_register hf hc hd hr
  · rwa [heq, (samePlaces_trace ..).resolve_eq] at hr
  · rw [heq] at hr
    have htraced := resolve_of_sweep hr
    rwa [(samePlaces_trace ..).resolve_eq] at htraced

theorem Balanced.resolve_of_extend (hb : c.Balanced) (hf : (c.extend ops).heap.Fits)
    (hd : c.heap.Issued d) (hr : (c.extend ops).heap.resolve d = some r) :
    c.heap.resolve d = some r := by
  induction ops generalizing c with
  | nil => exact hr
  | cons op ops ih =>
    have hstep : (c.step op).heap.Fits := Fits.of_extend hf
    exact hb.resolve_of_step hstep hd
      (ih (hb.step op hstep) hf (hd.mono (c.fills_le_step op)) hr)

theorem Balanced.not_issued (hb : c.Balanced) (hf : (c.extend ops).heap.Fits)
    (hd : d ∈ c.issued ops) : ¬ c.heap.Issued d := by
  induction ops generalizing c with
  | nil => cases hd
  | cons op ops ih =>
    have hstep : (c.step op).heap.Fits := Fits.of_extend hf
    rcases List.mem_append.mp hd with hd | hd
    · cases op with
      | register r =>
        obtain ⟨hc, hd⟩ := Option.ite_none_left_eq_some.mp (Option.mem_toList.mp hd)
        cases hd
        exact hb.consistent.not_issued_register hstep (Bool.not_eq_true _ ▸ hc)
      | _ => cases hd
    · intro hissued
      exact ih (hb.step op hstep) hf hd (hissued.mono (c.fills_le_step op))

theorem Balanced.issued_issue (hb : c.Balanced) (hf : (c.step op).heap.Fits)
    (hd : op.issue? c.heap c.handles = some d) : (c.step op).heap.Issued d := by
  cases op with
  | register r =>
    obtain ⟨-, hd⟩ := Option.ite_none_left_eq_some.mp hd
    cases hd
    exact hb.consistent.issued_register hf
  | _ => cases hd

theorem Balanced.nodup_issued (hb : c.Balanced) (hf : (c.extend ops).heap.Fits) :
    (c.issued ops).Nodup := by
  induction ops generalizing c with
  | nil => exact List.nodup_nil
  | cons op ops ih =>
    have hstep : (c.step op).heap.Fits := Fits.of_extend hf
    have hbstep := hb.step op hstep
    refine List.Nodup.append ?_ (ih hbstep hf) ?_
    · cases op.issue? c.heap c.handles with
      | none => exact List.nodup_nil
      | some d => exact List.nodup_singleton d
    · intro d hd hlater
      exact hbstep.not_issued hf hlater (hb.issued_issue hstep (Option.mem_toList.mp hd))

theorem Balanced.sweeps_of_lost (hb : c.Balanced) (hf : (c.step op).heap.Fits) (ho : c.Owns r)
    (hlost : ¬ (c.step op).Owns r) : op.sweeps = 1 ∧ (c.step op).handles = c.handles := by
  rcases c.step_cases op with ⟨r', rfl⟩ | ⟨hhs, store, items, ⟨-, heq⟩ | ⟨hop, -⟩⟩
  · exact absurd (hb.consistent.contains_register_of_contains hf ho) hlost
  · rw [Owns, heq, hhs, (samePlaces_trace ..).contains_eq] at hlost
    exact absurd ho hlost
  · exact ⟨hop, hhs⟩

/-- Every registration makes an object owned, no handle is given out twice, a handle names no other
object than the one it was given to, and it names nothing any more once this object is swept. -/
structure Fresh (hs : Handles) (ops : List Op) : Prop where
  owned : ∀ {before r after}, ops = before ++ .register r :: after →
    (run hs (before ++ [.register r])).Owns r
  distinct : ((start hs).issued ops).Nodup
  faithful : ∀ {before r after r'}, ops = before ++ .register r :: after →
    (run hs ops).heap.resolve ((run hs (before ++ [.register r])).handles.get r) = some r' → r' = r
  swept : ∀ {before op after r}, ops = before ++ op :: after → (run hs before).Owns r →
    ¬ (run hs (before ++ [op])).Owns r → op.sweeps = 1 ∧
      (run hs ops).heap.resolve ((run hs before).handles.get r) = none

theorem fresh_of_fits (hs : Handles) (ops : List Op) (hf : (run hs ops).heap.Fits) :
    Fresh hs ops := by
  have owned {before after : List Op} {r : Ref} (hops : ops = before ++ .register r :: after) :
      (run hs (before ++ [.register r])).heap.Fits ∧
        (run hs (before ++ [.register r])).Owns r := by
    rw [hops, List.append_cons] at hf
    have hfit := Fits.of_run_append hf
    refine ⟨hfit, ?_⟩
    rw [run_snoc] at hfit ⊢
    exact (balanced_run hs before (Fits.of_step hfit)).consistent.contains_register hfit
  constructor
  case owned => exact fun hops => (owned hops).2
  case distinct => exact (balanced_start hs).nodup_issued hf
  case faithful =>
    intro before r after r' hops hr'
    obtain ⟨hfit, hown⟩ := owned hops
    rw [hops, List.append_cons] at hf hr'
    rw [run_append] at hf hr'
    have hr := (balanced_run hs _ hfit).resolve_of_extend hf (issued_of_contains hfit hown) hr'
    rw [contains_iff_resolve.mp hown] at hr
    exact (Option.some.inj hr).symm
  case swept =>
    intro before op after r hops hown hlost
    rw [hops, List.append_cons] at hf ⊢
    have hfit := Fits.of_run_append hf
    have hb := balanced_run hs _ hfit
    rw [run_append] at hf ⊢
    rw [run_snoc] at hfit hlost hb hf ⊢
    have hfit' := Fits.of_step hfit
    have hb' := balanced_run hs before hfit'
    obtain ⟨hop, hhs⟩ := hb'.sweeps_of_lost hfit hown hlost
    refine ⟨hop, Option.eq_none_iff_forall_ne_some.mpr fun r' hr' => hlost ?_⟩
    -- Whatever the handle names later, it names right after the sweep and right before it.
    have hissued := issued_of_contains hfit' hown
    have hafter := hb.resolve_of_extend hf (hissued.mono (fills_le_step _ op)) hr'
    have hbefore := hb'.resolve_of_step hfit hissued hafter
    rw [contains_iff_resolve.mp hown] at hbefore
    cases hbefore
    rw [Owns, contains_iff_resolve, hhs]
    exact hafter

end Chronicle

section Overrun

/-- The object has a slot whose generation is zero. It cannot be marked there. -/
structure Adrift (h : Heap) (i : Nat) (r : Ref) : Prop where
  occupant : h.occupant i = some r
  gen : (h.fills i).toUInt32 = 0
  not_free : i ∉ h.free.map UInt32.toNat
  not_marked : h.marks.mem i = false

theorem Adrift.ne_place (ha : h.Adrift i r) : i ≠ h.place := by
  rintro rfl
  cases hfree : h.free with
  | nil =>
    have hlt := lt_size_of_occupant ha.occupant
    simp [place, hfree] at hlt
  | cons j rest => exact ha.not_free (by simp [place, hfree])

theorem Adrift.register (ha : h.Adrift i r)
    (hsize : (h.register hs r').1.slots.size ≤ UInt32.size) :
    (h.register hs r').1.Adrift i r := by
  cases hc : h.contains hs r' with
  | true => rwa [register_of_contains hc]
  | false =>
    have hne : i ≠ h.next.toNat := by
      rw [toNat_next (place_lt_of_register hc hsize)]
      exact ha.ne_place
    have hslot := slot_register_of_ne hc hne
    constructor
    case occupant =>
      rw [Heap.occupant, hslot]
      exact ha.occupant
    case gen =>
      rw [fills, hslot]
      exact ha.gen
    case not_free =>
      rw [fst_register hc, List.map_tail]
      exact fun hi => ha.not_free (List.mem_of_mem_tail hi)
    case not_marked =>
      rw [marks_register]
      exact ha.not_marked

theorem Adrift.trace (ha : h.Adrift i r) (items : List Item) :
    (h.trace store hs items).Adrift i r := by
  have hp := samePlaces_trace store hs h items
  constructor
  case occupant =>
    rw [hp]
    exact ha.occupant
  case gen =>
    rw [hp.fills_eq]
    exact ha.gen
  case not_free =>
    rw [hp]
    exact ha.not_free
  case not_marked =>
    by_contra hmark
    rw [Bool.not_eq_false] at hmark
    rcases mem_marks_trace hmark with hmark | ⟨r', hr', rfl⟩
    · rw [ha.not_marked] at hmark
      cases hmark
    · -- An owned object has a handle with the generation of its slot, which is not zero.
      obtain ⟨hgen, hfills, -⟩ := contains_iff.mp hr'
      exact hgen (hfills.symm.trans ha.gen)

theorem Adrift.sweep (ha : h.Adrift i r) : h.sweep.2.occupant i = none := by
  rw [occupant_sweep, ha.not_marked]
  rfl

theorem occupant_of_register (ho : (h.register hs r').1.occupant i = some r) (hne : r' ≠ r) :
    h.occupant i = some r := by
  cases hc : h.contains hs r' with
  | true => rwa [register_of_contains hc] at ho
  | false =>
    by_cases hi : i = h.next.toNat
    · subst hi
      rw [occupant, slot_register_of_lt hc (lt_size_of_occupant ho)] at ho
      exact absurd (Option.some.inj ho) hne
    · rwa [occupant, slot_register_of_ne hc hi] at ho

namespace Chronicle

variable {c : Chronicle} {op : Op} {ops : List Op}

theorem size_le_step (c : Chronicle) (op : Op) :
    c.heap.slots.size ≤ (c.step op).heap.slots.size := by
  rcases c.step_cases op with ⟨r, rfl⟩ | ⟨-, store, items, ⟨-, heq⟩ | ⟨-, heq⟩⟩
  · exact size_le_register
  · rw [heq, samePlaces_trace]
  · rw [heq, size_sweep, samePlaces_trace]

theorem size_le_extend (c : Chronicle) (ops : List Op) :
    c.heap.slots.size ≤ (c.extend ops).heap.slots.size := by
  induction ops generalizing c with
  | nil => exact Nat.le_refl _
  | cons op ops ih => exact (c.size_le_step op).trans (ih (c.step op))

theorem adrift_step (ha : c.heap.Adrift i r) (hop : op.sweeps = 0)
    (hsize : (c.step op).heap.slots.size ≤ UInt32.size) : (c.step op).heap.Adrift i r := by
  rcases c.step_cases op with ⟨r', rfl⟩ | ⟨-, store, items, ⟨-, heq⟩ | ⟨hsweep, -⟩⟩
  · exact ha.register hsize
  · rw [heq]
    exact ha.trace items
  · rw [hop] at hsweep
    cases hsweep

theorem adrift_extend (ha : c.heap.Adrift i r) (hops : ∀ op ∈ ops, op.sweeps = 0)
    (hsize : (c.extend ops).heap.slots.size ≤ UInt32.size) :
    (c.extend ops).heap.Adrift i r := by
  induction ops generalizing c with
  | nil => exact ha
  | cons op ops ih =>
    rw [List.forall_mem_cons] at hops
    have hstep := ((c.step op).size_le_extend ops).trans hsize
    exact ih (adrift_step ha hops.1 hstep) hops.2 hsize

theorem occupant_of_step (hop : op ≠ .register r) (ho : (c.step op).heap.occupant i = some r) :
    c.heap.occupant i = some r := by
  have traced (store : Store) (items : List Item) :
      (c.heap.trace store c.handles items).occupant i = c.heap.occupant i := by
    rw [samePlaces_trace store c.handles c.heap items]
    rfl
  rcases c.step_cases op with ⟨r', rfl⟩ | ⟨-, store, items, ⟨-, heq⟩ | ⟨-, heq⟩⟩
  · exact occupant_of_register ho fun he => hop (he ▸ rfl)
  · rwa [heq, traced] at ho
  · rw [heq, occupant_sweep, traced] at ho
    split at ho
    · exact ho
    · cases ho

theorem occupant_of_extend (hops : ∀ op ∈ ops, op ≠ .register r)
    (ho : (c.extend ops).heap.occupant i = some r) : c.heap.occupant i = some r := by
  induction ops generalizing c with
  | nil => exact ho
  | cons op ops ih =>
    rw [List.forall_mem_cons] at hops
    exact occupant_of_step hops.1 (ih hops.2 ho)

/-- A registration that comes to the generation zero: the object is not owned, and the next
collection vacates its slot, whatever the roots are. -/
structure Overrun (c : Chronicle) (r : Ref) : Prop where
  gen : ((c.step (.register r)).handles.get r).gen = 0
  not_owned : ¬ (c.step (.register r)).Owns r
  vacated : ∀ {ops}, (∀ op ∈ ops, op.sweeps = 0) →
    ((c.step (.register r)).extend ops).heap.slots.size ≤ UInt32.size → ∀ store root extra,
    ((c.step (.register r)).extend ops).heap.occupant c.heap.place = some r ∧
      (((c.step (.register r)).extend ops).step (.collect store root extra)).heap.occupant
        c.heap.place = none
  /-- Unless it is registered anew, the object has no slot then. -/
  gone : ∀ {ops}, (∀ op ∈ ops, op.sweeps = 0 ∧ op ≠ .register r) →
    ((c.step (.register r)).extend ops).heap.slots.size ≤ UInt32.size → ∀ store root extra i,
    (((c.step (.register r)).extend ops).step (.collect store root extra)).heap.occupant i ≠ some r

theorem place_lt_of_full (hf : h.Fits) (hfull : h.fills h.place + 1 = 2 ^ 32) :
    h.place < UInt32.size := by
  by_contra hge
  rw [fills_eq_zero (hf.size_le.trans (Nat.le_of_not_lt hge))] at hfull
  exact absurd hfull (by decide)

theorem Balanced.adrift_register (hb : c.Balanced) (hc : c.heap.contains c.handles r = false)
    (hplace : c.heap.place < UInt32.size)
    (hfull : (c.heap.fills c.heap.place + 1).toUInt32 = 0) :
    (c.step (.register r)).heap.Adrift c.heap.place r := by
  have hh := hb.consistent
  have hnext := toNat_next hplace
  change (c.heap.register c.handles r).1.Adrift _ _
  constructor
  case occupant => rw [hh.toSpare.occupant_register hc, if_pos hnext.symm]
  case gen =>
    rw [hh.toSpare.fills_register hc, if_pos hnext.symm, hnext]
    exact hfull
  case not_free =>
    rintro hi
    obtain ⟨i, hi, heq⟩ := List.mem_map.mp hi
    exact ((hh.toSpare.mem_free_register hc).mp hi).2 (UInt32.toNat_inj.mp (heq.trans hnext.symm))
  case not_marked =>
    rw [marks_register]
    by_contra hmark
    rw [Bool.not_eq_false] at hmark
    have ho := hb.marks _ hmark
    rw [hh.occupant_place] at ho
    cases ho

theorem Balanced.overrun (hb : c.Balanced) (hf : c.heap.Fits) (hc : ¬ c.Owns r)
    (hfull : c.heap.fills c.heap.place + 1 = 2 ^ 32) : c.Overrun r := by
  have hh := hb.consistent
  rw [Owns, Bool.not_eq_true] at hc
  have hplace := place_lt_of_full hf hfull
  have hnext := toNat_next hplace
  have hzero : (c.heap.fills c.heap.place + 1).toUInt32 = 0 := by
    rw [hfull]
    rfl
  have hgen : ((c.heap.register c.handles r).2.get r).gen = 0 := by
    rw [snd_register hc, Handles.get_set, if_pos rfl, hnext]
    exact hzero
  have hadrift := hb.adrift_register hc hplace hzero
  have collected {ops : List Op} (hops : ∀ op ∈ ops, op.sweeps = 0)
      (hsize : ((c.step (.register r)).extend ops).heap.slots.size ≤ UInt32.size) (store : Store)
      (root : Option ScopeId) (extra : List Ref) :
      (((c.step (.register r)).extend ops).step (.collect store root extra)).heap.occupant
        c.heap.place = none :=
    ((adrift_extend hadrift hops hsize).trace _).sweep
  constructor
  case gen => exact hgen
  case not_owned => exact fun hown => (contains_iff.mp hown).1 hgen
  case vacated =>
    intro ops hops hsize store root extra
    exact ⟨(adrift_extend hadrift hops hsize).occupant, collected hops hsize store root extra⟩
  case gone =>
    intro ops hops hsize store root extra i ho
    have hreg : ∀ op ∈ ops, op ≠ .register r := fun op hop => (hops op hop).2
    have hcollect : Op.collect store root extra ≠ .register r := nofun
    have hfirst := occupant_of_extend hreg (occupant_of_step hcollect ho)
    change (c.heap.register c.handles r).1.occupant i = some r at hfirst
    rw [hh.toSpare.occupant_register hc, hnext] at hfirst
    split at hfirst
    · next hi =>
      rw [hi, collected (fun op hop => (hops op hop).1) hsize] at ho
      cases ho
    · exact hh.occupant_ne hf.fills_lt hc hfirst

def refill (r : Ref) (n : Nat) : List Op :=
  (List.replicate n [.register r, .sweep]).flatten

theorem heap_registered_swept (c : Chronicle) (r : Ref) :
    (c.extend [.register r, .sweep]).heap = (c.heap.register c.handles r).1.sweep.2 :=
  rfl

theorem heap_refill (hs : Handles) (r : Ref) (n : Nat) :
    (run hs (refill r (n + 1))).heap = idle (n + 1) := by
  induction n with
  | zero => exact sweep_register_empty
  | succ n ih =>
    have hsnoc : refill r (n + 1 + 1) = refill r (n + 1) ++ [.register r, .sweep] := by
      rw [refill, List.replicate_succ', List.flatten_concat, refill]
    rw [hsnoc, run_append, heap_registered_swept, ih, sweep_register_idle]

/-- There are runs of registrations and sweeps after which a registration comes to the generation
zero. -/
theorem exists_full (hs : Handles) (r r' : Ref) : ∃ ops,
    (∀ op ∈ ops, op = .register r ∨ op = .sweep) ∧ (run hs ops).heap.Fits ∧
      ¬ (run hs ops).Owns r' ∧
      (run hs ops).heap.fills (run hs ops).heap.place + 1 = 2 ^ 32 := by
  refine ⟨refill r (2 ^ 32 - 2 + 1), fun op hop => ?_, ?_, ?_, ?_⟩
  · obtain ⟨pair, hpair, hop⟩ := List.mem_flatten.mp hop
    rw [List.eq_of_mem_replicate hpair] at hop
    simpa using hop
  · rw [heap_refill]
    exact fits_idle (by decide)
  · rw [Owns, heap_refill, contains_idle]
    nofun
  · rw [heap_refill]
    rfl

/-- Handles are fresh as long as no slot has been filled 2 ^ 32 times, and no longer: the object
that is the first to fill a slot for the 2 ^ 32nd time is not owned, and it is lost with the next
collection. -/
theorem fresh_run (hs : Handles) :
    (∀ ops, (run hs ops).heap.Fits → Fresh hs ops) ∧
    (∀ ops r, (run hs ops).heap.Fits → ¬ (run hs ops).Owns r →
      (run hs ops).heap.fills (run hs ops).heap.place + 1 = 2 ^ 32 → (run hs ops).Overrun r) ∧
    ∀ r, ∃ ops, (∀ op ∈ ops, op = .register r ∨ op = .sweep) ∧ (run hs ops).heap.Fits ∧
      (run hs ops).Overrun r := by
  have overrun {ops : List Op} {r : Ref} (hf : (run hs ops).heap.Fits)
      (hc : ¬ (run hs ops).Owns r)
      (hfull : (run hs ops).heap.fills (run hs ops).heap.place + 1 = 2 ^ 32) :
      (run hs ops).Overrun r :=
    (balanced_run hs ops hf).overrun hf hc hfull
  refine ⟨fresh_of_fits hs, fun ops r => overrun, fun r => ?_⟩
  obtain ⟨ops, hops, hf, hc, hfull⟩ := exists_full hs r r
  exact ⟨ops, hops, hf, overrun hf hc hfull⟩

def recycled : List Op := [.register ⟨0⟩, .sweep, .register ⟨1⟩]

theorem slots_recycled : (run .none recycled).heap.slots = #[⟨some ⟨1⟩, 2⟩] := by
  cbv

theorem fits_recycled : (run .none recycled).heap.Fits := by
  refine ⟨?_, fun i => ?_⟩
  · rw [slots_recycled]
    decide
  · rw [fills, slots_recycled]
    rcases i with _ | i
    · decide
    · exact Nat.two_pow_pos 32

theorem fresh_recycled :
    (run .none recycled).heap.Fits ∧ Fresh .none recycled ∧
    (run .none recycled).heap.resolve ((run .none [.register ⟨0⟩]).handles.get ⟨0⟩) = none ∧
    ∃ ops, (run .none ops).heap.Fits ∧ ¬ (run .none ops).Owns ⟨1⟩ ∧
      (run .none ops).heap.fills (run .none ops).heap.place + 1 = 2 ^ 32 ∧
      (run .none ops).Overrun ⟨1⟩ := by
  have hfresh := (fresh_run .none).1 recycled fits_recycled
  have hown : (run .none [.register ⟨0⟩]).Owns ⟨0⟩ := by cbv
  have hlost : ¬ (run .none ([.register ⟨0⟩] ++ [.sweep])).Owns ⟨0⟩ := by
    cbv
    exact Bool.false_ne_true
  obtain ⟨ops, -, hf, hc, hfull⟩ := exists_full .none ⟨0⟩ ⟨1⟩
  exact ⟨fits_recycled, hfresh, (hfresh.swept rfl hown hlost).2,
    ops, hf, hc, hfull, (fresh_run .none).2.1 ops ⟨1⟩ hf hc hfull⟩

end Chronicle

end Overrun

end CornScript.Heap
