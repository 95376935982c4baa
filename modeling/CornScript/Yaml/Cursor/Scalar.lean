import CornScript.Number.Integer
import CornScript.Yaml.Cursor

/-! # The text of scalars

A scalar in flow style is a row of words with gaps between them. A gap without a line end counts as
it is written; in any other gap the blanks do not count, a single line end is a space, and of
several the first is dropped. Block scalars keep their lines, or fold them in much the same way.
-/

namespace CornScript.Yaml

structure Gap where
  blanks : List Char
  /-- Whether a line has ended. -/
  broken : Bool
  first : List Char
  more : List Char
  deriving DecidableEq, Repr

namespace Gap

def empty : Gap := ⟨[], false, [], []⟩

/-- An escaped line end counts for nothing, and so do the blanks behind it. -/
def escaped : Gap := ⟨[], true, [], []⟩

/-- What a gap means. The separators of lines and of paragraphs are never dropped. -/
def fold (g : Gap) : List Char :=
  if g.broken then
    if g.first = ['\n'] then if g.more.isEmpty then [' '] else g.more
    else g.first ++ g.more
  else g.blanks

end Gap

namespace Scan

/-- Reads what is left of a gap. A tab may not indent a line to the left of `column`. -/
def gap (column : Nat) : Nat → Gap → Scan Gap
  | 0, g => return g
  | n + 1, g => do
    let c ← get
    match c.rest with
    | [] => return g
    | x :: _ =>
      if isBlank x then
        guard !(g.broken && x == '\t' && c.column < column)
        step
        gap column n (if g.broken then g else { g with blanks := g.blanks ++ [x] })
      else if isBreak x then
        let b ← takeBreak
        need 1
        gap column n (if g.broken then { g with more := g.more ++ b } else ⟨[], true, b, []⟩)
      else return g

def isFlowMark (c : Char) : Bool :=
  c == ',' || c == '?' || c == '[' || c == ']' || c == '{' || c == '}'

/-- A word without quotes. A colon at the end of a word does not belong to it. -/
def plainWord (flow : Bool) : Nat → Scan (List Char)
  | 0 => return []
  | n + 1 => do
    match (← get).rest with
    | [] => return []
    | c :: rest =>
      if isGap (some c) || (c == ':' && isGap rest.head?) || (flow && isFlowMark c) then return []
      else
        advance
        need 2
        return c :: (← plainWord flow n)

/--
A scalar without quotes after a gap, or what is left of it. Further lines stand at `column` or to
the right of it, unless they are in a flow collection. The result says whether the lines of the
scalar have ended.
-/
def plainFrom (flow : Bool) (column : Nat) : Nat → Gap → Scan (List Char × Bool)
  | 0, g => return ([], g.broken)
  | n + 1, g => do
    need 4
    let c ← get
    if c.atDocumentMark || c.rest.head? = some '#' then return ([], g.broken)
    else
      let w ← plainWord flow (← bound)
      if w.isEmpty then return ([], g.broken)
      else
        let next ← gap column (← bound) .empty
        if next = .empty || (!flow && (← get).column < column) then
          return (g.fold ++ w, next.broken)
        else
          let (more, ended) ← plainFrom flow column n next
          return (g.fold ++ w ++ more, ended)

def plain (flow : Bool) (column : Nat) : Scan (List Char × Bool) := do
  plainFrom flow column (← bound) .empty

def singleQuotedWord : Nat → Scan (List Char)
  | 0 => return []
  | n + 1 => do
    match (← get).rest with
    | [] => return []
    | '\x27' :: '\x27' :: _ =>
      advanceBy 2
      need 2
      return '\x27' :: (← singleQuotedWord n)
    | c :: _ =>
      if c == '\x27' || isGap (some c) then return []
      else
        advance
        need 2
        return c :: (← singleQuotedWord n)

def escapes : List (Char × Nat) :=
  [('0', 0x00), ('a', 0x07), ('b', 0x08), ('t', 0x09), ('\t', 0x09), ('n', 0x0A), ('v', 0x0B),
   ('f', 0x0C), ('r', 0x0D), ('e', 0x1B), (' ', 0x20), ('\x22', 0x22), ('\x27', 0x27),
   ('\x5c', 0x5C), ('N', 0x85), ('_', 0xA0), ('L', 0x2028), ('P', 0x2029)]

def hexadecimal? (digits : List Char) : Option Nat :=
  digits.foldlM (fun n c => do
    let d ← Integer.digit? c.toUInt8
    if c.toNat < 0x80 && d < 16 then some (16 * n + d) else none) 0

def numbered (width : Nat) : Scan Char := do
  need width
  let digits := (← get).rest.take width
  guard (digits.length = width)
  match hexadecimal? digits with
  | none => failure
  | some n =>
    guard n.isValidChar
    advanceBy width
    return Char.ofNat n

def escape (c : Char) : Scan Char := do
  advance
  match escapes.lookup c with
  | some n => return Char.ofNat n
  | none =>
    if c == 'x' then numbered 2
    else if c == 'u' then numbered 4
    else if c == 'U' then numbered 8
    else failure

/-- A word between double quotes, and the gap that begins when a line end is escaped. -/
def doubleQuotedWord : Nat → Scan (List Char × Gap)
  | 0 => return ([], .empty)
  | n + 1 => do
    match (← get).rest with
    | [] => return ([], .empty)
    | '\x5c' :: c :: _ =>
      if isBreak c then
        need 3
        advanceBy 2
        return ([], .escaped)
      else
        advance
        let x ← escape c
        need 2
        let (w, g) ← doubleQuotedWord n
        return (x :: w, g)
    | c :: _ =>
      if c == '\x22' || isGap (some c) then return ([], .empty)
      else
        advance
        need 2
        let (w, g) ← doubleQuotedWord n
        return (c :: w, g)

def quotedFrom (quote : Char) : Nat → Scan (List Char)
  | 0 => failure
  | n + 1 => do
    need 4
    guard !(← get).atDocumentMark
    let (w, g) ← if quote = '\x27' then
        pure (← singleQuotedWord (← bound), Gap.empty)
      else doubleQuotedWord (← bound)
    need 1
    match ← peek with
    | none => failure
    | some c =>
      if c = quote then
        advance
        return w
      else
        let g ← gap 0 (← bound) g
        return w ++ g.fold ++ (← quotedFrom quote n)

def quoted (quote : Char) : Scan (List Char) := do
  advance
  quotedFrom quote (← bound)

inductive Chomping where
  /-- The last line keeps its end. -/
  | clip
  | strip
  | keep
  deriving DecidableEq, Repr

def chomping : Scan (Option Chomping) := do
  match ← peek with
  | some '+' =>
    step
    return some .keep
  | some '-' =>
    step
    return some .strip
  | _ => return none

def depth : Scan (Option Nat) := do
  match ← peek with
  | none => return none
  | some c =>
    if c.isDigit then
      guard (c ≠ '0')
      step
      return some (c.toNat - 0x30)
    else return none

def header : Scan (Chomping × Option Nat) := do
  match ← chomping with
  | some how => return (how, ← depth)
  | none =>
    let d ← depth
    return ((← chomping).getD .clip, d)

def indentation (indent : Option Nat) : Nat → Scan Unit
  | 0 => return
  | n + 1 => do
    let c ← get
    if c.rest.head? = some ' ' && indent.all fun i => c.column < i then
      step
      indentation indent n

/--
The line ends up to the next line of a block scalar that holds something, and the widest
indentation on the way. Lines are indented by `indent`, if that is known; no tab indents them.
-/
def emptyLines (indent : Option Nat) : Nat → Nat → Scan (List Char × Nat)
  | 0, widest => return ([], widest)
  | n + 1, widest => do
    need 1
    indentation indent (← bound)
    let c ← get
    let widest := max widest c.column
    guard !(c.rest.head? = some '\t' && indent.all fun i => c.column < i)
    let b ← takeBreak
    if b.isEmpty then return ([], widest)
    else
      let (more, widest) ← emptyLines indent n widest
      return (b ++ more, widest)

/--
The lines of a block scalar. `first` is the end of the line before and `more` the line ends after
it; a line that begins with a blank is not folded, nor is its neighbour. The result has these parts
of the last line too.
-/
def blockLines (folded : Bool) (indent : Nat) :
    Nat → List Char → List Char → Bool → Scan (List Char × List Char × List Char)
  | 0, first, more, _ => return ([], first, more)
  | n + 1, first, more, blank => do
    let c ← get
    if c.column ≠ indent || c.rest.isEmpty then return ([], first, more)
    else
      let startsBlank := c.rest.head?.any isBlank
      let joint :=
        if folded && !blank && !startsBlank && first = ['\n'] then
          if more.isEmpty then [' '] else more
        else first ++ more
      let l ← takeWhile fun c => !isBreak c
      need 2
      let first ← takeBreak
      let (more, _) ← emptyLines (some indent) (← bound) 0
      let (s, last) ← blockLines folded indent n first more startsBlank
      return (joint ++ l ++ s, last)

/-- A block scalar from its mark on. What it belongs to stands at column `outer`, or at -1. -/
def block (outer : Int) : Scan (List Char) := do
  let folded := (← peek) = some '>'
  step
  let (how, given) ← header
  endLine
  let indent := given.map fun d => outer.toNat + d
  let (more, widest) ← emptyLines indent (← bound) 0
  let column := indent.getD (max 1 (max widest (outer + 1).toNat))
  let (s, first, more) ← blockLines folded column (← bound) [] more false
  return match how with
    | .clip => s ++ first
    | .strip => s
    | .keep => s ++ first ++ more

end Scan

end CornScript.Yaml
