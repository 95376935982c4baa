import CornScript.Bytes.Printable
import CornScript.Bytes.Utf8

/-! # Quoted text in messages

A message shows foreign text between quotes. Printable characters stand for themselves; the quote
and the backslash are escaped, control characters have the usual short escapes, and any other
character is written by its number.
-/

namespace CornScript.Bytes

def hex (width n : Nat) : Bytes :=
  let digits := (Nat.toDigits 16 n).map Char.toUInt8
  List.replicate (width - digits.length) 0x30 ++ digits

def shortEscapes : List (Nat × String) :=
  [(0x07, "\\a"), (0x08, "\\b"), (0x09, "\\t"), (0x0A, "\\n"), (0x0B, "\\v"), (0x0C, "\\f"),
   (0x0D, "\\r")]

def escape (quote : UInt8) (n : Nat) : Bytes :=
  if n = quote.toNat || n = 0x5C then [0x5C, n.toUInt8]
  else if isPrintable n then text (String.singleton (Char.ofNat n))
  else match shortEscapes.lookup n with
    | some e => text e
    | none =>
      if n < 0x80 then text "\\x" ++ hex 2 n
      else if n < 0x10000 then text "\\u" ++ hex 4 n
      else text "\\U" ++ hex 8 n

def quoteCharacter (b : UInt8) : Bytes :=
  0x27 :: escape 0x27 b.toNat ++ [0x27]

/-- The inside of a quoted text of at most `n` characters. A byte that belongs to no character is
written by its number. -/
def quoteInside : Nat → Bytes → Bytes
  | 0, _ => []
  | _ + 1, [] => []
  | n + 1, b :: rest => match character? (b :: rest) with
    | some (c, width) => escape 0x22 c ++ quoteInside n ((b :: rest).drop width)
    | none => text "\\x" ++ hex 2 b.toNat ++ quoteInside n rest

def quote (s : Bytes) : Bytes :=
  0x22 :: quoteInside s.length s ++ [0x22]

end CornScript.Bytes
