import CornScript.BitSet
import CornScript.Store

/-! # The heap

The heap owns objects by giving them slots. An object carries a handle, which names a slot and a
generation: a slot counts its occupants, so the handle of an object that has lost its slot does not
resolve to a later occupant. Generations are the low 32 bits of that count, and generation zero
means that an object was never registered. Slots are numbered with 32 bits too: once there are
2 ^ 32 of them, a new slot has the number of an old one.
-/

namespace CornScript

structure Handle where
  slot : UInt32
  gen : UInt32
  deriving DecidableEq, Repr

namespace Handle

def unset : Handle := ⟨0, 0⟩

def isUnset (h : Handle) : Bool :=
  h.gen == 0

end Handle

structure Handles where
  table : Array Handle
  deriving DecidableEq, Repr

namespace Handles

def none : Handles := ⟨#[]⟩

def get (h : Handles) (r : Ref) : Handle :=
  h.table.getD r.index .unset

def set (h : Handles) (r : Ref) (handle : Handle) : Handles :=
  if r.index < h.table.size then ⟨h.table.setIfInBounds r.index handle⟩
  else ⟨(h.table ++ Array.replicate (r.index - h.table.size) Handle.unset).push handle⟩

end Handles

/-- A slot counts how often it was filled, also when it is vacated. -/
structure Slot where
  occupant : Option Ref
  fills : Nat
  deriving DecidableEq, Repr

namespace Slot

def vacant : Slot := ⟨none, 0⟩

def gen (s : Slot) : UInt32 :=
  s.fills.toUInt32

end Slot

/--
The heap. `free` lists the vacant slots, the one to be filled next first. `marks` and `visited`
hold the slots and scopes that the current mark phase has reached.
-/
structure Heap where
  slots : Array Slot
  free : List UInt32
  marks : BitSet
  visited : BitSet
  live : Nat
  cycles : Nat
  freed : Nat
  deriving DecidableEq, Repr

namespace Heap

def empty : Heap := ⟨#[], [], .empty, .empty, 0, 0, 0⟩

def capacity (h : Heap) : Nat :=
  h.slots.size

def resolve (h : Heap) (handle : Handle) : Option Ref :=
  if handle.isUnset then none
  else match h.slots[handle.slot.toNat]? with
    | some slot => if slot.gen = handle.gen then slot.occupant else none
    | none => none

def contains (h : Heap) (handles : Handles) (r : Ref) : Bool :=
  h.resolve (handles.get r) = some r

def next (h : Heap) : UInt32 :=
  h.free.headD h.slots.size.toUInt32

def fill (h : Heap) (i : UInt32) (r : Ref) : Heap × Handle :=
  let slot : Slot := ⟨some r, (h.slots.getD i.toNat .vacant).fills + 1⟩
  ({ h with slots := h.slots.setIfInBounds i.toNat slot, live := h.live + 1 }, ⟨i, slot.gen⟩)

/-- Gives an object a slot, a vacant one if there is any. An object that is owned keeps its slot. -/
def register (h : Heap) (handles : Handles) (r : Ref) : Heap × Handles :=
  if h.contains handles r then (h, handles)
  else
    let i := h.next
    let h := match h.free with
      | _ :: rest => { h with free := rest }
      | [] => { h with slots := h.slots.push .vacant }
    let (h, handle) := h.fill i r
    (h, handles.set r handle)

def marked (h : Heap) (handles : Handles) (r : Ref) : Bool :=
  h.contains handles r && h.marks.mem (handles.get r).slot.toNat

def garbage (h : Heap) : List Nat :=
  (List.range h.slots.size).filter fun i =>
    (h.slots[i]?.bind (·.occupant)).isSome && !h.marks.mem i

/-- Vacates every slot without a mark and ends the mark phase. -/
def sweep (h : Heap) : Nat × Heap :=
  let garbage := h.garbage
  (garbage.length,
    { slots := h.slots.mapIdx fun i s => if h.marks.mem i then s else { s with occupant := none }
      free := (garbage.map Nat.toUInt32).reverse ++ h.free
      marks := .empty
      visited := .empty
      live := h.live - garbage.length
      cycles := h.cycles + 1
      freed := h.freed + garbage.length })

end Heap

end CornScript
