import CornScript.Bytes

/-! # White space

The code points with the Unicode property White_Space, and removing them from both ends of a text
in UTF-8. A byte that belongs to no such encoding stays.
-/

namespace CornScript.Bytes

def blankCodePoints : List Nat :=
  [0x09, 0x0A, 0x0B, 0x0C, 0x0D, 0x20, 0x85, 0xA0, 0x1680, 0x2000, 0x2001, 0x2002, 0x2003, 0x2004,
   0x2005, 0x2006, 0x2007, 0x2008, 0x2009, 0x200A, 0x2028, 0x2029, 0x202F, 0x205F, 0x3000]

def blanks : List Bytes :=
  blankCodePoints.map fun n => text (String.singleton (Char.ofNat n))

def dropOne? (marks : List Bytes) (s : Bytes) : Option Bytes :=
  marks.findSome? fun m => if m.isPrefixOf s then some (s.drop m.length) else none

def dropMarks (marks : List Bytes) : Nat → Bytes → Bytes
  | 0, s => s
  | n + 1, s => match dropOne? marks s with
    | some rest => dropMarks marks n rest
    | none => s

def trim (s : Bytes) : Bytes :=
  let front := dropMarks blanks s.length s
  (dropMarks (blanks.map List.reverse) front.length front.reverse).reverse

end CornScript.Bytes
