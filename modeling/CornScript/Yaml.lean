import CornScript.Bytes

/-! # YAML documents

A document is a tree of mappings, sequences and scalars. Every node knows the line that it begins
on. A node with an anchor can stand in several places, also inside itself: there a reference gives
its number.
-/

namespace CornScript

/-- A node. `tag` is the tag that is written before it. -/
inductive Yaml where
  | scalar (line : Nat) (tag : Option Bytes) (quoted : Bool) (value : Bytes)
  | mapping (line : Nat) (tag : Option Bytes) (entries : List (Yaml × Yaml))
  | sequence (line : Nat) (tag : Option Bytes) (items : List Yaml)
  | reference (line : Nat) (name : Bytes) (target : Nat)

namespace Yaml

def line : Yaml → Nat
  | scalar n _ _ _ | mapping n _ _ | sequence n _ _ | reference n _ _ => n

def absent (line : Nat) : Yaml :=
  scalar line none false []

structure Document where
  root : Yaml
  anchored : List (Nat × Yaml)

/-- The node that stands behind a reference; no reference stands behind one. -/
def Document.resolve (d : Document) : Yaml → Yaml
  | reference n _ target => (d.anchored.lookup target).getD (absent n)
  | y => y

end Yaml

end CornScript
