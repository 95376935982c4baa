import CornScript.Object

/-! # The store

All objects and scopes that have been created. Nothing is ever removed: the collector decides only
who owns an object.
-/

namespace CornScript

structure Scope where
  bindings : Dict Ref
  outer : Option ScopeId

structure Store where
  objects : Array Object
  scopes : Array Scope

/-- The two truth values come first in every store. -/
def Ref.ofBool (b : Bool) : Ref := ⟨b.toNat⟩

def Ref.null : Ref := ⟨2⟩

def Ref.ofBuiltin : Builtin → Ref
  | .size => ⟨3⟩
  | .type => ⟨4⟩
  | .push => ⟨5⟩
  | .print => ⟨6⟩

namespace Store

def initial : Store where
  objects := #[.boolean false, .boolean true, .null, .builtin .size, .builtin .type,
    .builtin .push, .builtin .print]
  scopes := #[]

/-- The object of a reference. A reference to no object counts as null. -/
def get (s : Store) (r : Ref) : Object :=
  s.objects.getD r.index .null

def alloc (s : Store) (o : Object) : Ref × Store :=
  (⟨s.objects.size⟩, { s with objects := s.objects.push o })

def put (s : Store) (r : Ref) (o : Object) : Store :=
  { s with objects := s.objects.setIfInBounds r.index o }

/-- Creates a scope without bindings. A scope around it must exist. -/
def newScope (s : Store) (outer : Option ScopeId) : ScopeId × Store :=
  let outer := outer.filter fun o => o.index < s.scopes.size
  (⟨s.scopes.size⟩, { s with scopes := s.scopes.push ⟨.empty, outer⟩ })

def scope? (s : Store) (id : ScopeId) : Option Scope :=
  s.scopes[id.index]?

def bind (s : Store) (id : ScopeId) (name : Bytes) (r : Ref) : Store :=
  { s with scopes := s.scopes.modify id.index fun sc =>
      { sc with bindings := sc.bindings.insert name r } }

def lookupWithin (s : Store) (name : Bytes) : Nat → ScopeId → Option Ref
  | 0, _ => none
  | n + 1, id => do
    let sc ← s.scope? id
    match sc.bindings.get? name with
    | some r => some r
    | none => s.lookupWithin name n (← sc.outer)

/-- The value of a name in a scope or the nearest scope around it that binds the name. A scope is
created after those around it, so there are no more of them than its number. -/
def lookup (s : Store) (id : ScopeId) (name : Bytes) : Option Ref :=
  s.lookupWithin name (id.index + 1) id

end Store

end CornScript
