import CornScript.Yaml
import CornScript.Yaml.Lexer

/-! # Documents from YAML tokens

The first document of a text is read as far as it reaches; what follows it is not read. The
recursion is bounded by the number of tokens.
-/

namespace CornScript.Yaml

structure Reader where
  lexer : Lexer
  /-- What the handles of tags stand for. -/
  handles : List (Bytes × Bytes)
  /-- The numbers of the names of anchors. A later anchor hides an earlier one. -/
  names : List (Bytes × Nat)
  anchored : List (Nat × Yaml)

abbrev Reading := StateT Reader Option

namespace Reading

def lex {α : Type} (x : Lexing α) : Reading α := do
  let r ← get
  let (a, l) ← (x.run r.lexer : Option _)
  set { r with lexer := l }
  return a

def peek : Reading Token :=
  lex Lexing.peek

def skip : Reading Unit :=
  lex Lexing.skip

def tagRoot : Bytes := text "tag:yaml.org,2002:"

/-- A tag of this format is shown with two exclamation marks. -/
def shorten (tag : Bytes) : Bytes :=
  if tagRoot.isPrefixOf tag then text "!!" ++ tag.drop tagRoot.length else tag

def wholeTag (handle suffix : Bytes) : Reading Bytes := do
  if handle.isEmpty then return suffix
  else match (← get).handles.lookup handle with
    | some s => return s ++ suffix
    | none => failure

structure Properties where
  anchor : Option Bytes
  tag : Option Bytes
  deriving DecidableEq, Repr

def anchor : Reading (Option Bytes) := do
  match (← peek).kind with
  | .anchor name =>
    skip
    return some name
  | _ => return none

def tag : Reading (Option Bytes) := do
  match (← peek).kind with
  | .tag handle suffix =>
    skip
    return some (← wholeTag handle suffix)
  | _ => return none

def properties : Reading Properties := do
  match ← anchor with
  | some name => return ⟨some name, ← tag⟩
  | none => match ← tag with
    | some t => return ⟨← anchor, some t⟩
    | none => return ⟨none, none⟩

/-- The tag `!` says nothing. -/
def Properties.shown (p : Properties) : Option Bytes :=
  (p.tag.filter (· ≠ text "!")).map shorten

def declare (name : Bytes) : Reading Nat := do
  let n := (← get).names.length
  modify fun r => { r with names := (name, n) :: r.names }
  return n

/-- Reads a node that may have an anchor. Inside it the anchor is known already. -/
def anchoring (name : Option Bytes) (read : Reading Yaml) : Reading Yaml := do
  match name with
  | none => read
  | some name =>
    let n ← declare name
    let y ← read
    modify fun r => { r with anchored := (n, y) :: r.anchored }
    return y

def endsEntry : Token.Kind → Bool
  | .key | .value | .close => true
  | _ => false

def endsFlowItem : Token.Kind → Bool
  | .comma | .closeFlowSequence => true
  | _ => false

def endsFlowEntry : Token.Kind → Bool
  | .comma | .closeFlowMapping => true
  | _ => false

/-- Reads a value after its colon. Without a colon, or before a token that ends it, there is
none. -/
def valueUnless (ends : Token.Kind → Bool) (read : Reading Yaml) : Reading Yaml := do
  let t ← peek
  if t.kind = .value then
    skip
    if ends (← peek).kind then return absent t.line else read
  else return absent t.line

def separate (first : Bool) (closing : Token.Kind) : Reading Unit := do
  let t ← peek
  if !first && t.kind ≠ closing then
    if t.kind = .comma then skip else failure

mutual

/-- A node. Block collections are allowed or not, and so is a sequence at the column of its key. -/
def node : Nat → Bool → Bool → Reading Yaml
  | 0, _, _ => failure
  | n + 1, block, unindented => do
    let first ← peek
    match first.kind with
    | .reference name =>
      skip
      match (← get).names.lookup name with
      | some target => return .reference first.line name target
      | none => failure
    | _ =>
      let p ← properties
      anchoring p.anchor (content n block unindented first.line p)

/-- A node without what is written before it. It may be empty only if there is something. -/
def content : Nat → Bool → Bool → Nat → Properties → Reading Yaml
  | 0, _, _, _, _ => failure
  | n + 1, block, unindented, line, p => do
    let empty : Reading Yaml :=
      if p.anchor.isNone && p.tag.isNone then failure else return .scalar line p.shown false []
    match (← peek).kind with
    | .scalar quoted value =>
      skip
      return .scalar line p.shown quoted value
    | .openFlowSequence =>
      skip
      return .sequence line p.shown (← flowItems n true)
    | .openFlowMapping =>
      skip
      return .mapping line p.shown (← flowEntries n true)
    | .openSequence =>
      if block then
        skip
        return .sequence line p.shown (← items n)
      else empty
    | .openMapping =>
      if block then
        skip
        return .mapping line p.shown (← entries n)
      else empty
    | .item => if unindented then return .sequence line p.shown (← unindentedItems n) else empty
    | _ => empty

def items : Nat → Reading (List Yaml)
  | 0 => failure
  | n + 1 => do
    let t ← peek
    match t.kind with
    | .item =>
      skip
      let next := (← peek).kind
      let y ← if next = .item || next = .close then pure (absent t.line) else node n true false
      return y :: (← items n)
    | .close =>
      skip
      return []
    | _ => failure

def unindentedItems : Nat → Reading (List Yaml)
  | 0 => failure
  | n + 1 => do
    let t ← peek
    match t.kind with
    | .item =>
      skip
      let next := (← peek).kind
      let y ← if next = .item || endsEntry next then pure (absent t.line) else node n true false
      return y :: (← unindentedItems n)
    | _ => return []

def entries : Nat → Reading (List (Yaml × Yaml))
  | 0 => failure
  | n + 1 => do
    let t ← peek
    match t.kind with
    | .key =>
      skip
      let k ← if endsEntry (← peek).kind then pure (absent t.line) else node n true true
      let v ← valueUnless endsEntry (node n true true)
      return (k, v) :: (← entries n)
    | .close =>
      skip
      return []
    | _ => failure

def flowItems : Nat → Bool → Reading (List Yaml)
  | 0, _ => failure
  | n + 1, first => do
    separate first .closeFlowSequence
    let t ← peek
    match t.kind with
    | .closeFlowSequence =>
      skip
      return []
    | .key =>
      skip
      let pair ← flowPair n
      return .mapping t.line none [pair] :: (← flowItems n false)
    | _ =>
      let y ← node n false false
      return y :: (← flowItems n false)

/-- A pair in a flow sequence. A token that ends its key before it has begun is passed over. -/
def flowPair : Nat → Reading (Yaml × Yaml)
  | 0 => failure
  | n + 1 => do
    let t ← peek
    let k ← if t.kind = .value || endsFlowItem t.kind then
        skip
        pure (absent t.line)
      else node n false false
    return (k, ← valueUnless endsFlowItem (node n false false))

/-- The entries of a flow mapping up to its closing brace. A node that is no key has no value. -/
def flowEntries : Nat → Bool → Reading (List (Yaml × Yaml))
  | 0, _ => failure
  | n + 1, first => do
    separate first .closeFlowMapping
    let t ← peek
    match t.kind with
    | .closeFlowMapping =>
      skip
      return []
    | .key =>
      skip
      let u ← peek
      let k ← if u.kind = .value || endsFlowEntry u.kind then pure (absent u.line)
        else node n false false
      let v ← valueUnless endsFlowEntry (node n false false)
      return (k, v) :: (← flowEntries n false)
    | _ =>
      let k ← node n false false
      return (k, absent (← peek).line) :: (← flowEntries n false)

end

/-- Directives up to the start of a document: at most one version, which has to be 1.1, and no
handle twice. -/
def directives : Nat → Bool → List (Bytes × Bytes) → Reading (List (Bytes × Bytes))
  | 0, _, _ => failure
  | n + 1, versioned, handles => do
    match (← peek).kind with
    | .version major minor =>
      if versioned || major ≠ 1 || minor ≠ 1 then failure
      skip
      directives n true handles
    | .handle name meaning =>
      if (handles.lookup name).isSome then failure
      skip
      directives n versioned (handles ++ [(name, meaning)])
    | _ => return handles

def isOutside : Token.Kind → Bool
  | .version _ _ | .handle _ _ | .documentStart | .documentEnd | .streamEnd => true
  | _ => false

def document (n : Nat) : Reading (Option Yaml) := do
  let _ ← peek
  skip
  let t ← peek
  if t.kind = .streamEnd then return none
  else
    let handles ← directives n false []
    modify fun r => { r with
      handles := handles ++ [(text "!", text "!"), (text "!!", tagRoot)] }
    let y ← if isOutside t.kind then
        if (← peek).kind ≠ .documentStart then failure
        skip
        let u ← peek
        if isOutside u.kind then pure (absent u.line) else node n true false
      else node n true false
    let _ ← peek
    return some y

end Reading

/-- Reads the first document of a text. There is none in a text of blanks and comments; a malformed
text has no reading. -/
def read (source : Bytes) : Option (Option Document) := do
  let l := Lexer.start (pieces source)
  let (y, r) ← (Reading.document (8 * l.cursor.size + 16)).run ⟨l, [], [], []⟩
  return y.map (⟨·, r.anchored⟩)

end CornScript.Yaml
