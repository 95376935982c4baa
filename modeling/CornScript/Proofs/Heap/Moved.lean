import CornScript.Heap.Trace
import CornScript.Proofs.Tree.Moved

/-! # Stores apart from places

A function keeps its body, so moving tokens moves what a store holds. Names, scopes and references
stay as they are, and so does all that the collector follows.
-/

namespace CornScript

open Heap (Item)

variable {f : Pos → Pos}

def Object.moved (f : Pos → Pos) : Object → Object
  | .function params body scope => .function params (body.moved f) scope
  | o => o

namespace Object

@[simp] theorem moved_id (o : Object) : o.moved id = o := by
  cases o <;> simp [moved]

@[simp] theorem kind_moved (o : Object) : (o.moved f).kind = o.kind := by
  cases o <;> rfl

@[simp] theorem inspect_moved (o : Object) : (o.moved f).inspect = o.inspect := by
  cases o <;> rfl

end Object

def Store.moved (f : Pos → Pos) (s : Store) : Store :=
  { s with objects := s.objects.map (Object.moved f) }

namespace Store

@[simp] theorem moved_id (s : Store) : s.moved id = s := by
  have h : (Object.moved id : Object → Object) = id := funext Object.moved_id
  simp [moved, h]

@[simp] theorem get_moved (s : Store) (r : Ref) : (s.moved f).get r = (s.get r).moved f := by
  simp only [get, moved, Array.getD_eq_getD_getElem?, Array.getElem?_map]
  cases s.objects[r.index]? <;> rfl

theorem alloc_moved (s : Store) (o : Object) :
    (s.moved f).alloc (o.moved f) = ((s.alloc o).1, (s.alloc o).2.moved f) := by
  simp [alloc, moved]

theorem newScope_moved (s : Store) (outer : Option ScopeId) :
    (s.moved f).newScope outer = ((s.newScope outer).1, (s.newScope outer).2.moved f) := rfl

@[simp] theorem lookup_moved (s : Store) (id : ScopeId) (name : Bytes) :
    (s.moved f).lookup id name = s.lookup id name := by
  have within (n : Nat) (id : ScopeId) :
      (s.moved f).lookupWithin name n id = s.lookupWithin name n id := by
    induction n generalizing id with
    | zero => rfl
    | succ n ih =>
      unfold lookupWithin
      simp only [ih]
      rfl
  exact within _ _

@[simp] theorem successors_moved (s : Store) (item : Item) :
    item.successors (s.moved f) = item.successors s := by
  cases item with
  | object r =>
    unfold Item.successors
    dsimp only
    rw [get_moved]
    cases s.get r with
    | function params body scope => cases scope <;> rfl
    | _ => rfl
  | scope id => rfl

@[simp] theorem enter?_moved (s : Store) (handles : Handles) (h : Heap) (item : Item) :
    h.enter? (s.moved f) handles item = h.enter? s handles item := by
  cases item <;> rfl

theorem trace_moved (s : Store) (handles : Handles) (h : Heap) (items : List Item) :
    h.trace (s.moved f) handles items = h.trace s handles items := by
  fun_induction Heap.trace s handles h items with
  | case1 h => rw [Heap.trace]
  | case2 h item rest h' he ih =>
    rw [Heap.trace]
    split
    · next he' =>
      rw [enter?_moved, he] at he'
      cases he'
      rw [successors_moved, ih]
    · next he' =>
      rw [enter?_moved, he] at he'
      cases he'
  | case3 h item rest he ih =>
    rw [Heap.trace]
    split
    · next he' =>
      rw [enter?_moved, he] at he'
      cases he'
    · exact ih

theorem collect_moved (s : Store) (handles : Handles) (h : Heap) (root : Option ScopeId)
    (extra : List Ref) :
    h.collect (s.moved f) handles root extra = h.collect s handles root extra := by
  rw [Heap.collect, trace_moved]
  rfl

end Store

end CornScript
