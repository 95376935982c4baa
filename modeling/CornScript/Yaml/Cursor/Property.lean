import CornScript.Yaml.Cursor.Scalar
import CornScript.Yaml.Token

/-! # Anchors, tags and directives

What may stand before a node, and before a document.
-/

namespace CornScript.Yaml.Scan

def endsName (c : Option Char) : Bool :=
  isGap c || c.any fun x => ['?', ':', ',', ']', '}', '%', '@', '\x60'].contains x

def name : Scan Bytes := do
  step
  let s ← takeWhile isNameCharacter
  guard (!s.isEmpty && endsName (← peek))
  return encode s

def isTagCharacter (c : Char) : Bool :=
  isNameCharacter c ||
    [';', '/', '?', ':', '@', '&', '=', '+', '$', ',', '.', '!', '~', '*', '\x27', '(', ')', '[',
      ']'].contains c

def octet : Scan UInt8 := do
  need 3
  match (← get).rest with
  | '%' :: a :: b :: _ =>
    match hexadecimal? [a, b] with
    | none => failure
    | some n =>
      advanceBy 3
      return n.toUInt8
  | _ => failure

def octets : Nat → Scan Bytes
  | 0 => return []
  | n + 1 => do
    let b ← octet
    guard (Bytes.isContinuation b)
    return b :: (← octets n)

/-- The bytes of a character, of which the first tells how many there are. -/
def octetsOfCharacter : Scan Bytes := do
  let b ← octet
  match Bytes.width? b with
  | none => failure
  | some width => return b :: (← octets (width - 1))

def tagPartFor : Nat → Scan Bytes
  | 0 => return []
  | n + 1 => do
    need 1
    match ← peek with
    | none => return []
    | some c =>
      if c == '%' then
        let s ← octetsOfCharacter
        return s ++ (← tagPartFor n)
      else if isTagCharacter c then
        advance
        return encode [c] ++ (← tagPartFor n)
      else return []

def tagPart : Scan Bytes := do
  tagPartFor (← bound)

/-- The handle of a tag: `!`, or a name between two of them. Without the second one the name does
not belong to a handle. -/
def tagHandle : Scan (List Char) := do
  guard ((← peek) = some '!')
  step
  let s ← takeWhile isNameCharacter
  if (← peek) = some '!' then
    step
    return '!' :: s ++ ['!']
  else return '!' :: s

/-- A tag as its handle and the rest. A tag between angle brackets has no handle. -/
def tagForm : Scan (Bytes × Bytes) := do
  need 2
  if (← get).rest[1]? = some '<' then
    advanceBy 2
    let s ← tagPart
    guard (!s.isEmpty && (← peek) = some '>')
    step
    return ([], s)
  else
    let h ← tagHandle
    let s ← tagPart
    if h.length > 1 && h.getLast? = some '!' then
      guard !s.isEmpty
      return (encode h, s)
    else
      let s := encode (h.drop 1) ++ s
      return if s.isEmpty then ([], text "!") else (text "!", s)

def tag : Scan Token.Kind := do
  let (handle, suffix) ← tagForm
  guard (isGap (← peek))
  return .tag handle suffix

def versionNumber : Scan Nat := do
  let s ← takeWhile Char.isDigit
  guard (1 ≤ s.length && s.length ≤ 2)
  return Bytes.toNat (encode s)

/-- `%YAML`, or `%TAG` with a handle and what it stands for. There is no other directive. -/
def directive : Scan Token.Kind := do
  step
  let s ← takeWhile isNameCharacter
  guard (isGap (← peek))
  skipWhile isBlank
  if s = "YAML".toList then
    let major ← versionNumber
    guard ((← peek) = some '.')
    step
    let minor ← versionNumber
    endLine
    return .version major minor
  else if s = "TAG".toList then
    let h ← tagHandle
    guard (h = ['!'] || (h.length > 1 && h.getLast? = some '!'))
    guard ((← peek).any isBlank)
    skipWhile isBlank
    let meaning ← tagPart
    guard (!meaning.isEmpty && isGap (← peek))
    endLine
    return .handle (encode h) meaning
  else failure

end CornScript.Yaml.Scan
