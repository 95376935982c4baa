import CornScript.Bytes

/-! # Output

What a program has printed. The total may be limited; a write that would pass the limit fails and
leaves nothing behind.
-/

namespace CornScript

/-- The writes so far, the last one first. -/
structure Output where
  writes : List Bytes
  limit : Option Nat
  deriving DecidableEq, Repr

namespace Output

def unlimited : Output := ⟨[], none⟩

def size (o : Output) : Nat :=
  o.writes.foldl (fun n b => n + b.length) 0

def contents (o : Output) : Bytes :=
  o.writes.reverse.flatten

def append (o : Output) (b : Bytes) : Output :=
  { o with writes := b :: o.writes }

def write? (o : Output) (b : Bytes) : Option Output :=
  match o.limit with
  | some n => if o.size + b.length ≤ n then some (o.append b) else none
  | none => some (o.append b)

def drain (o : Output) : Output :=
  ⟨[], o.limit.map (· - o.size)⟩

theorem contents_append (o : Output) (b : Bytes) : (o.append b).contents = o.contents ++ b := by
  simp [append, contents]

end Output

end CornScript
