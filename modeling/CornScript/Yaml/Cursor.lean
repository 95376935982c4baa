import CornScript.Yaml.Piece

/-! # Moving through a YAML text

A cursor knows what is left of the text and the place of its first character. Characters have to be
fetched before they are looked at, and the text is read piece by piece as they are. Loops over the
text are bounded by its size.
-/

namespace CornScript.Yaml

structure Cursor where
  /-- The number of characters of the whole text. -/
  size : Nat
  rest : List Char
  index : Nat
  line : Nat
  column : Nat
  /-- The number of line ends since the last character that is no blank. -/
  breaks : Nat
  /-- The number of characters at the front that have been fetched. Each time that the end of the
  text is met, it counts as one more. -/
  ready : Nat
  /-- The pieces of the text that have not been read yet. -/
  pieces : List Piece
  /-- Whether the characters that were last fetched began at a byte order mark. -/
  marked : Bool
  deriving DecidableEq, Repr

namespace Cursor

/-- The first line has number one, the first column number zero. -/
def start (pieces : List Piece) : Cursor where
  size := (pieces.flatMap Piece.characters).length
  rest := pieces.flatMap Piece.characters
  index := 0
  line := 1
  column := 0
  breaks := 0
  ready := 0
  pieces := pieces
  marked := false

def pass (c : Cursor) : Cursor :=
  { c with
    rest := c.rest.tail
    index := c.index + 1
    column := c.column + 1
    breaks := if c.rest.head?.any isBlank then c.breaks else 0
    ready := c.ready - 1 }

def passLine (c : Cursor) (width : Nat) : Cursor :=
  { c with
    rest := c.rest.drop width
    index := c.index + width
    line := c.line + 1
    column := 0
    breaks := c.breaks + 1
    ready := c.ready - width }

/-- Goes past a character. A carriage return and the line feed behind it are one line end. -/
def advance (c : Cursor) : Cursor :=
  match c.rest with
  | [] => c
  | '\r' :: '\n' :: _ => c.passLine 2
  | x :: _ => if isBreak x then c.passLine 1 else c.pass

def advanceBy : Nat → Cursor → Cursor
  | 0, c => c
  | n + 1, c => advanceBy n c.advance

/-- Reads pieces until at least `n` characters are ready, or up to the end of the text. -/
def load (n : Nat) : Nat → List Piece → Option (Nat × List Piece)
  | ready, [] => some (ready + 1, [])
  | ready, p :: pieces =>
    let ready := ready + p.characters.length
    if !p.sound then none
    else if n ≤ ready then some (ready, pieces)
    else load n ready pieces

def fetch (n : Nat) (c : Cursor) : Option Cursor :=
  if n ≤ c.ready then some c
  else (load n c.ready c.pieces).map fun (ready, pieces) =>
    { c with ready := ready, pieces := pieces, marked := c.rest.head? = some '\uFEFF' }

/-- Whether three characters `mark` begin a line here, alone or before a blank. -/
def atMark (mark : Char) (c : Cursor) : Bool :=
  c.column = 0 && c.rest.take 3 = [mark, mark, mark] && isGap c.rest[3]?

def atDocumentMark (c : Cursor) : Bool :=
  c.atMark '-' || c.atMark '.'

def finish (c : Cursor) : Cursor :=
  if c.column = 0 then c else { c with line := c.line + 1, column := 0 }

end Cursor

abbrev Scan := StateT Cursor Option

namespace Scan

def peek : Scan (Option Char) :=
  return (← get).rest.head?

def need (n : Nat) : Scan Unit := do
  set (← ((← get).fetch n : Option _))

def advance : Scan Unit :=
  modify Cursor.advance

def advanceBy (n : Nat) : Scan Unit :=
  modify (Cursor.advanceBy n)

def step : Scan Unit := do
  advance
  need 1

def bound : Scan Nat :=
  return (← get).size + 1

def guard (b : Bool) : Scan Unit :=
  if b then return else failure

def takeWhileFor (p : Char → Bool) : Nat → Scan (List Char)
  | 0 => return []
  | n + 1 => do
    match ← peek with
    | none => return []
    | some c =>
      if p c then
        step
        return c :: (← takeWhileFor p n)
      else return []

def takeWhile (p : Char → Bool) : Scan (List Char) := do
  takeWhileFor p (← bound)

def skipWhile (p : Char → Bool) : Scan Unit := do
  let _ ← takeWhile p

/-- After a byte order mark, a line is read without its first character. -/
def skipMark : Scan Unit := do
  need 1
  let c ← get
  if c.marked && c.column = 0 then
    set c.pass
    need 1

/-- Takes a line end, if there is one. All of them count as line feeds, but for the separators of
lines and of paragraphs. -/
def takeBreak : Scan (List Char) := do
  match ← peek with
  | none => return []
  | some c =>
    if isBreak c then
      need 2
      advance
      return if c == '\u2028' || c == '\u2029' then [c] else ['\n']
    else return []

def skipComment : Scan Unit := do
  if (← peek) = some '#' then skipWhile fun c => !isBreak c

/-- How far a comment is looked for. -/
def reach : Nat := 512

/-- Whether a comment begins within `n` characters behind the first `offset` ones, with nothing but
`idle` ones before it. Only the line ends of one byte can stand between comments. -/
def commentAhead (idle : Char → Bool) : Nat → Nat → Scan Bool
  | 0, _ => return false
  | n + 1, offset => do
    need (offset + 1)
    match (← get).rest[offset]? with
    | none => return false
    | some c =>
      if c == '#' then return true
      else if idle c then
        if isWideBreak c then
          if n ≠ 0 then need (offset + 2)
          return false
        else commentAhead idle n (offset + 1)
      else return false

def skipTrailingComment : Scan Unit := do
  if (← get).breaks = 0 then
    if ← commentAhead isBlank reach 0 then
      skipWhile isBlank
      skipComment

/-- Skips a comment, and the comments on the lines below it. Tabs may indent these. -/
def skipComments : Nat → Scan Unit
  | 0 => return
  | n + 1 => do
    skipComment
    if (← peek).any isWideBreak then need 2
    else if ← commentAhead (isGap ∘ some) (reach - 1) 1 then
      skipWhile (isGap ∘ some)
      skipComments n

def endLine : Scan Unit := do
  skipWhile isBlank
  skipComment
  guard ((← peek).all isBreak)
  let _ ← takeBreak

end Scan

end CornScript.Yaml
