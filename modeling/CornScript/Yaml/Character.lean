import CornScript.Bytes

/-! # The characters of a YAML text

The classes of characters that the format knows. A text holds no control characters but tabs and
line ends.
-/

namespace CornScript.Yaml

def isBlank (c : Char) : Bool :=
  c == ' ' || c == '\t'

def isBreak (c : Char) : Bool :=
  c == '\n' || c == '\r' || c == '\u0085' || c == '\u2028' || c == '\u2029'

def isWideBreak (c : Char) : Bool :=
  isBreak c && 0x80 ≤ c.toNat

/-- Nothing of a word stands here: a blank, a line end, or the end of the text. -/
def isGap : Option Char → Bool
  | none => true
  | some c => isBlank c || isBreak c

def isNameCharacter (c : Char) : Bool :=
  c.isAlphanum || c == '_' || c == '-'

def isAllowed (c : Char) : Bool :=
  let n := c.toNat
  n = 0x09 || n = 0x0A || n = 0x0D || (0x20 ≤ n && n ≤ 0x7E) || n = 0x85 ||
    (0xA0 ≤ n && n ≤ 0xFFFD) || 0x10000 ≤ n

def encode (s : List Char) : Bytes :=
  text (String.ofList s)

end CornScript.Yaml
