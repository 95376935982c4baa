import CornScript.Heap

/-! # The mark phase

Marking starts from roots and follows the elements of arrays, the values of hashes, and the scope of
a function with all scopes around it. An object that the heap does not own is not entered. A slot
that is marked and a scope that is visited are not entered again, so the phase ends on any graph.
-/

namespace CornScript.Heap

inductive Item where
  | object (r : Ref)
  | scope (id : ScopeId)
  deriving DecidableEq, Repr

def Item.successors (store : Store) : Item → List Item
  | object r => match store.get r with
    | .array elements => elements.map object
    | .hash pairs => pairs.values.map object
    | .function _ _ (some id) => [scope id]
    | _ => []
  | scope id => match store.scope? id with
    | some sc => sc.bindings.values.map object ++ sc.outer.toList.map scope
    | none => []

/-- Marks an item, unless it is marked already or cannot be entered. -/
def enter? (store : Store) (handles : Handles) (h : Heap) : Item → Option Heap
  | .object r =>
    let i := (handles.get r).slot.toNat
    if h.contains handles r && !h.marks.mem i then some { h with marks := h.marks.insert i }
    else none
  | .scope id =>
    if id.index < store.scopes.size && !h.visited.mem id.index then
      some { h with visited := h.visited.insert id.index }
    else none

def pending (store : Store) (h : Heap) : Nat :=
  h.marks.absent h.slots.size + h.visited.absent store.scopes.size

theorem slot_lt_of_contains {h : Heap} {handles : Handles} {r : Ref}
    (hc : h.contains handles r = true) : (handles.get r).slot.toNat < h.slots.size := by
  simp only [contains, resolve] at hc
  split at hc
  · cases hc
  · split at hc
    · rename_i slot hs
      exact (Array.getElem?_eq_some_iff.mp hs).1
    · cases hc

theorem pending_enter_lt {store : Store} {handles : Handles} {h h' : Heap} {item : Item}
    (he : enter? store handles h item = some h') : pending store h' < pending store h := by
  cases item with
  | object r =>
    simp only [enter?] at he
    split at he
    · rename_i hc
      rw [Bool.and_eq_true, Bool.not_eq_true'] at hc
      cases he
      exact Nat.add_lt_add_right
        (BitSet.absent_insert_lt (slot_lt_of_contains hc.1) hc.2) _
    · cases he
  | scope id =>
    simp only [enter?] at he
    split at he
    · rename_i hc
      rw [Bool.and_eq_true, decide_eq_true_eq, Bool.not_eq_true'] at hc
      cases he
      exact Nat.add_lt_add_left (BitSet.absent_insert_lt hc.1 hc.2) _
    · cases he

def trace (store : Store) (handles : Handles) (h : Heap) : List Item → Heap
  | [] => h
  | item :: rest => match _he : enter? store handles h item with
    | some h' => trace store handles h' (item.successors store ++ rest)
    | none => trace store handles h rest
termination_by items => (pending store h, items.length)
decreasing_by
  · exact Prod.Lex.left _ _ (pending_enter_lt _he)
  · exact Prod.Lex.right _ (Nat.lt_succ_self _)

def mark (store : Store) (handles : Handles) (h : Heap) (r : Ref) : Heap :=
  h.trace store handles [.object r]

def markScope (store : Store) (handles : Handles) (h : Heap) (id : ScopeId) : Heap :=
  h.trace store handles [.scope id]

/-- A whole cycle with a scope and further objects as roots. The first part is the number of objects
that the heap gives up. -/
def collect (store : Store) (handles : Handles) (h : Heap) (root : Option ScopeId)
    (extra : List Ref) : Nat × Heap :=
  (h.trace store handles (root.toList.map .scope ++ extra.map .object)).sweep

end CornScript.Heap
