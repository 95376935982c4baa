import CornScript.Yaml.Cursor.Property
import CornScript.Yaml.Token

/-! # Tokens from a YAML text

Tokens are made as they are asked for. Whether a word begins a mapping is known only at the colon
behind it: until then it is a candidate for a key, and its token waits in a queue, so that the
tokens that open a mapping can still be put in front of it. A candidate has to find its colon on
its line and within 1024 characters.
-/

namespace CornScript.Yaml

structure Candidate where
  /-- The number of its first token. -/
  token : Nat
  index : Nat
  line : Nat
  column : Nat
  /-- Whether it may still be a key. -/
  alive : Bool
  /-- Whether nothing but a key can stand there. -/
  required : Bool
  /-- Whether its first token waits until that is decided. -/
  awaited : Bool
  deriving DecidableEq, Repr

structure Lexer where
  cursor : Cursor
  /-- The column of the innermost block collection, or -1, and those around it. -/
  indent : Int
  outer : List Int
  keyAllowed : Bool
  candidate : Candidate
  /-- The candidates outside the open flow collections, innermost first: one for each of these. -/
  suspended : List Candidate
  queue : List Token
  /-- The number of the first token in the queue. -/
  taken : Nat
  deriving DecidableEq, Repr

abbrev Lexing := StateT Lexer Option

namespace Lexer

def start (pieces : List Piece) : Lexer where
  cursor := .start pieces
  indent := -1
  outer := []
  keyAllowed := true
  candidate := ⟨0, 0, 1, 0, false, false, false⟩
  suspended := []
  queue := [⟨.streamStart, 1⟩]
  taken := 0

def inFlow (l : Lexer) : Bool :=
  !l.suspended.isEmpty

def maxDepth : Nat := 10000

def next (l : Lexer) : Nat :=
  l.taken + l.queue.length

/-- Puts a token before the one with the given number. If that one is gone, it comes last. -/
def insert (l : Lexer) (number : Nat) (t : Token) : Lexer :=
  let i := if number < l.taken then l.queue.length else number - l.taken
  { l with queue := l.queue.take i ++ t :: l.queue.drop i }

/-- Opens a block collection at a column to the right of the innermost one, with a token before the
one with the given number. -/
def openBlock (l : Lexer) (column number : Nat) (t : Token) : Lexer :=
  if !l.inFlow && l.indent < column then
    { l.insert number t with indent := column, outer := l.indent :: l.outer }
  else l

def closeBlocks (column : Int) : Nat → Lexer → Lexer
  | 0, l => l
  | n + 1, l => match l.outer with
    | [] => l
    | i :: outer =>
      if column < l.indent then
        closeBlocks column n
          { l.insert l.next ⟨.close, l.cursor.line⟩ with indent := i, outer := outer }
      else l

def closeTo (l : Lexer) (column : Int) : Lexer :=
  if l.inFlow then l else closeBlocks column l.outer.length l

def candidateHere (l : Lexer) (alive : Bool) : Candidate where
  token := l.next
  index := l.cursor.index
  line := l.cursor.line
  column := l.cursor.column
  alive := alive
  required := !l.inFlow && l.indent = l.cursor.column
  awaited := true

def isPast (l : Lexer) (k : Candidate) : Bool :=
  k.line < l.cursor.line || k.index + 1024 < l.cursor.index

end Lexer

namespace Lexing

def scan {α : Type} (s : Scan α) : Lexing α := do
  let l ← get
  let (a, c) ← (s.run l.cursor : Option _)
  set { l with cursor := c }
  return a

def guard (b : Bool) : Lexing Unit :=
  if b then return else failure

def allowKey (b : Bool) : Lexing Unit :=
  modify fun l => { l with keyAllowed := b }

def emit (line : Nat) (kind : Token.Kind) : Lexing Unit :=
  modify fun l => l.insert l.next ⟨kind, line⟩

def mark (width : Nat) (kind : Token.Kind) : Lexing Unit := do
  let n := (← get).cursor.line
  scan (Scan.advanceBy width)
  emit n kind

def dropCandidate : Lexing Unit := do
  let k := (← get).candidate
  guard !(k.alive && k.required)
  modify fun l => { l with candidate := { k with alive := false } }

def proposeKey : Lexing Unit := do
  if (← get).keyAllowed then
    dropCandidate
    modify fun l => { l with candidate := l.candidateHere true }

/-- Whether a candidate can still be a key. One that is required has to be. -/
def isOpen (k : Candidate) : Lexing Bool := do
  if k.alive && (← get).isPast k then
    guard !k.required
    return false
  else return k.alive

/-- Goes to the next token, past blanks, comments and line ends. Tabs do not indent what may begin
with a key. A key may begin on a new line. -/
def toToken : Nat → Lexing Unit
  | 0 => return
  | n + 1 => do
    scan Scan.skipMark
    let l ← get
    let tabs := l.inFlow || !l.keyAllowed
    scan (Scan.skipWhile fun c => c == ' ' || (tabs && c == '\t'))
    if (← scan Scan.peek) = some '#' then scan (do Scan.skipComments (← Scan.bound))
    if !(← scan Scan.takeBreak).isEmpty then
      if !l.inFlow then allowKey true
      toToken n

def endBlocks : Lexing Unit := do
  modify fun l => l.closeTo (-1)
  dropCandidate
  allowKey false

def openFlow (kind : Token.Kind) : Lexing Unit := do
  proposeKey
  modify fun l => { l with
    candidate := l.candidateHere false
    suspended := l.candidate :: l.suspended }
  guard ((← get).suspended.length ≤ Lexer.maxDepth)
  allowKey true
  mark 1 kind

/-- A closing bracket. A collection without candidates inside is not waited for, even if it may be a
key. -/
def closeFlow (kind : Token.Kind) : Lexing Unit := do
  dropCandidate
  modify fun l => match l.suspended with
    | [] => l
    | k :: rest =>
      let awaited := k.awaited && k.token ≠ l.candidate.token
      { l with candidate := { k with awaited := awaited }, suspended := rest }
  allowKey false
  mark 1 kind

def comma : Lexing Unit := do
  dropCandidate
  allowKey true
  mark 1 .comma

def openBlock (column number : Nat) (t : Token) : Lexing Unit := do
  modify fun l => l.openBlock column number t
  guard ((← get).outer.length ≤ Lexer.maxDepth)

def openHere (kind : Token.Kind) : Lexing Unit := do
  let l ← get
  if !l.inFlow then
    guard l.keyAllowed
    openBlock l.cursor.column l.next ⟨kind, l.cursor.line⟩

def item : Lexing Unit := do
  openHere .openSequence
  dropCandidate
  allowKey true
  mark 1 .item

def key : Lexing Unit := do
  openHere .openMapping
  dropCandidate
  allowKey !(← get).inFlow
  mark 1 .key

/-- The colon of a value: it reveals a key. -/
def value : Lexing Unit := do
  let k := (← get).candidate
  if ← isOpen k then
    modify fun l => l.insert k.token ⟨.key, k.line⟩
    openBlock k.column k.token ⟨.openMapping, k.line⟩
    modify fun l => { l with candidate := { k with alive := false } }
    allowKey false
  else
    openHere .openMapping
    allowKey !(← get).inFlow
  mark 1 .value

/-- An anchor, a tag, a reference or a scalar in flow style. It may begin a key, and no other key
begins before the next mark. -/
def leaf (read : Scan Token.Kind) : Lexing Unit := do
  let n := (← get).cursor.line
  proposeKey
  allowKey false
  emit n (← scan read)

def quoted (quote : Char) : Lexing Unit :=
  leaf do return .scalar true (encode (← Scan.quoted quote))

def plain : Lexing Unit := do
  let l ← get
  proposeKey
  let (s, ended) ← scan (Scan.plain l.inFlow (l.indent + 1).toNat)
  allowKey ended
  emit l.cursor.line (.scalar false (encode s))

def blockScalar : Lexing Unit := do
  let l ← get
  dropCandidate
  allowKey true
  emit l.cursor.line (.scalar true (encode (← scan (Scan.block l.indent))))

def startsPlain (inFlow : Bool) (c : Char) (next : Option Char) : Bool :=
  if c == '-' then !next.any isBlank
  else if c == '?' || c == ':' then !inFlow && !isGap next
  else !(isGap (some c) || [',', '[', ']', '{', '}', '#', '&', '*', '!', '|', '>', '\x27', '\x22',
    '%', '@', '\x60'].contains c)

def content (c : Char) (next : Option Char) : Lexing Unit := do
  let flow := (← get).inFlow
  let alone := isGap next
  if c == '[' then openFlow .openFlowSequence
  else if c == '{' then openFlow .openFlowMapping
  else if c == ']' then closeFlow .closeFlowSequence
  else if c == '}' then closeFlow .closeFlowMapping
  else if c == ',' then comma
  else if c == '-' && alone then item
  else if c == '?' && (flow || alone) then key
  else if c == ':' && (flow || alone) then value
  else if c == '*' then leaf do return .reference (← Scan.name)
  else if c == '&' then leaf do return .anchor (← Scan.name)
  else if c == '!' then leaf Scan.tag
  else if (c == '|' || c == '>') && !flow then blockScalar
  else if c == '\x27' || c == '\x22' then quoted c
  else if startsPlain flow c next then plain
  else failure
  if (← get).queue.getLast?.all fun t => t.kind ≠ .item then scan Scan.skipTrailingComment

def fetch : Lexing Unit := do
  toToken (← scan Scan.bound)
  modify fun l => l.closeTo l.cursor.column
  scan (Scan.need 4)
  let c := (← get).cursor
  match c.rest with
  | [] =>
    scan (modify Cursor.finish)
    endBlocks
    emit c.line .streamEnd
  | x :: rest =>
    if c.column = 0 && x == '%' then
      endBlocks
      emit c.line (← scan Scan.directive)
    else if c.atDocumentMark then
      endBlocks
      mark 3 (if x == '-' then .documentStart else .documentEnd)
    else content x rest.head?

def headIsOpen : Lexing Bool := do
  let l ← get
  match (l.candidate :: l.suspended).find? fun k =>
      k.alive && k.awaited && k.token = l.taken with
  | some k => isOpen k
  | none => return false

/-- Makes tokens until there are three, and the first is certain. -/
def fill : Nat → Lexing Unit
  | 0 => failure
  | n + 1 => do
    let short := (← get).queue.length < 3
    if ← (if short then pure true else headIsOpen) then
      fetch
      fill n

def peek : Lexing Token := do
  fill ((← scan Scan.bound) + 3)
  match (← get).queue with
  | [] => failure
  | t :: _ => return t

def skip : Lexing Unit :=
  modify fun l => { l with queue := l.queue.drop 1, taken := l.taken + 1 }

end Lexing

end CornScript.Yaml
