/-! # Byte strings

Program text, printed output and messages are sequences of bytes. Lengths, columns and indices
count bytes, and no encoding is assumed of a text that comes from outside.
-/

namespace CornScript

abbrev Bytes := List UInt8

def text (s : String) : Bytes :=
  s.toUTF8.data.toList

namespace Bytes

def newline : UInt8 := 0x0A

def isDigit (b : UInt8) : Bool :=
  0x30 ≤ b && b ≤ 0x39

def isLetter (b : UInt8) : Bool :=
  (0x61 ≤ b && b ≤ 0x7A) || (0x41 ≤ b && b ≤ 0x5A)

def ofNat (n : Nat) : Bytes :=
  (Nat.toDigits 10 n).map Char.toUInt8

def ofInt : Int → Bytes
  | .ofNat n => ofNat n
  | .negSucc n => 0x2D :: ofNat (n + 1)

def toNat (digits : Bytes) : Nat :=
  digits.foldl (fun n b => 10 * n + (b.toNat - 0x30)) 0

/-- The code point with the value of a byte, in UTF-8. -/
def ofCodePoint (b : UInt8) : Bytes :=
  text (String.singleton (Char.ofUInt8 b))

def join (separator : Bytes) (parts : List Bytes) : Bytes :=
  separator.intercalate parts

def consPart (b : UInt8) : List Bytes → List Bytes
  | [] => [[b]]
  | part :: rest => (b :: part) :: rest

/-- The parts of a text between the separators in it: one more than there are separators. -/
def splitOn (separator : UInt8) (s : Bytes) : List Bytes :=
  s.foldr (fun b parts => if b = separator then [] :: parts else consPart b parts) [[]]

/-- The lines of a text: `\n` divides two lines, so a text without one is a single line. -/
def lines (s : Bytes) : List Bytes :=
  splitOn newline s

end Bytes

end CornScript
