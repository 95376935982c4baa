import CornScript.Bytes.Utf8
import CornScript.Yaml.Character

/-! # YAML texts in pieces

A text is in UTF-8, unless a byte order mark says that it is in UTF-16. It is read in pieces of 512
bytes, and no further than its characters are needed, so that a malformed piece counts only if it is
reached. A character that is cut off by the end of a piece belongs to the next one.
-/

namespace CornScript.Yaml

inductive Encoding where
  | utf8
  | utf16 (bigEndian : Bool)
  deriving DecidableEq, Repr

inductive Front where
  | character (c : Char) (width : Nat)
  /-- Bytes that more have to follow. -/
  | incomplete
  | malformed
  deriving DecidableEq, Repr

structure Piece where
  characters : List Char
  /-- Whether these are all of its characters: the next one is malformed otherwise. -/
  sound : Bool
  deriving DecidableEq, Repr

namespace Piece

def size : Nat := 512

def empty : Piece := ⟨[], true⟩

def malformed : Piece := ⟨[], false⟩

def cons (c : Char) (p : Piece) : Piece := ⟨c :: p.characters, p.sound⟩

end Piece

namespace Encoding

def ofMark : Bytes → Encoding × Nat
  | 0xFF :: 0xFE :: _ => (.utf16 false, 2)
  | 0xFE :: 0xFF :: _ => (.utf16 true, 2)
  | 0xEF :: 0xBB :: 0xBF :: _ => (.utf8, 3)
  | _ => (.utf8, 0)

def front8 (s : Bytes) : Front :=
  match s.head?.map Bytes.width? with
  | none => .incomplete
  | some none => .malformed
  | some (some width) =>
    if (s.take width).length < width then .incomplete
    else match Bytes.character? s with
      | some (n, _) => .character (Char.ofNat n) width
      | none => .malformed

def unit (bigEndian : Bool) (a b : UInt8) : Nat :=
  if bigEndian then 256 * a.toNat + b.toNat else 256 * b.toNat + a.toNat

def isHigh (u : Nat) : Bool :=
  0xD800 ≤ u && u ≤ 0xDBFF

def isLow (u : Nat) : Bool :=
  0xDC00 ≤ u && u ≤ 0xDFFF

/-- The front of bytes in UTF-16. Surrogates come in pairs, the high one first. -/
def front16 (bigEndian : Bool) : Bytes → Front
  | a :: b :: rest =>
    let u := unit bigEndian a b
    if isLow u then .malformed
    else if isHigh u then
      match rest with
      | c :: d :: _ =>
        let v := unit bigEndian c d
        if isLow v then .character (Char.ofNat (0x10000 + (u - 0xD800) * 0x400 + (v - 0xDC00))) 4
        else .malformed
      | _ => .incomplete
    else .character (Char.ofNat u) 2
  | _ => .incomplete

def front (e : Encoding) (s : Bytes) : Front :=
  let f := match e with
    | .utf8 => front8 s
    | .utf16 bigEndian => front16 bigEndian s
  match f with
  | .character c width => if isAllowed c then .character c width else .malformed
  | f => f

/-- A piece of at most `n` characters, and the bytes that are left of an incomplete one. -/
def piece (e : Encoding) : Nat → Bytes → Piece × Bytes
  | 0, s => (.empty, s)
  | n + 1, s => match e.front s with
    | .character c width =>
      let (p, left) := e.piece n (s.drop width)
      (p.cons c, left)
    | .incomplete => (.empty, s)
    | .malformed => (.malformed, [])

/-- The pieces of some bytes, of which the first has `size` bytes. Nothing follows a malformed
piece. -/
def pieces (e : Encoding) : Nat → Nat → Bytes → List Piece
  | 0, _, _ => []
  | n + 1, size, s =>
    if s.isEmpty then []
    else
      let (p, left) := e.piece size (s.take size)
      let later := s.drop size
      if !p.sound then [p]
      else if later.isEmpty && !left.isEmpty then [p, .malformed]
      else p :: e.pieces n Piece.size (left ++ later)

end Encoding

/-- The pieces of a text. A byte order mark takes up room in the first piece. -/
def pieces (source : Bytes) : List Piece :=
  let (e, mark) := Encoding.ofMark source
  e.pieces source.length (Piece.size - mark) (source.drop mark)

end CornScript.Yaml
