import CornScript.Config.Problem
import CornScript.Yaml.Document
import CornScript.Yaml.Scalar

/-! # Reading single settings

What the document does not mention, or leaves empty, keeps its value; what it mentions has to exist
and to fit. Keys of a mapping differ, and a mapping may take over the entries of others.
-/

namespace CornScript.Config

structure Context where
  document : Yaml.Document
  /-- Whether the nodes are read in the place of a reference. -/
  referred : Bool

structure Progress where
  problems : List Problem
  /-- The number of nodes that have been read. -/
  nodes : Nat
  /-- How many of them were read in the place of references. -/
  copies : Nat
  deriving DecidableEq, Repr

/-- Whether references make up too much of what has been read: more than 99 parts of 100 in small
documents, and in large ones down to 10 parts of 100. -/
def Progress.isExcessive (p : Progress) : Bool :=
  p.copies > 100 && p.nodes > 1000 &&
    if p.nodes ≤ 400000 then 99 * p.nodes < 100 * p.copies
    else if 4000000 ≤ p.nodes then p.nodes < 10 * p.copies
    else p.nodes * (99 * 3600000 - 89 * (p.nodes - 400000)) < 100 * 3600000 * p.copies

/-- Reading settings from a document: problems are collected, and a document that contradicts itself
cannot be read. -/
abbrev Decoder := ReaderT Context (StateT Progress (Except Error))

def reportAll (problems : List Problem) : Decoder Unit :=
  modify fun p => { p with problems := p.problems ++ problems }

def report (line : Nat) (misfit : Misfit) : Decoder Unit :=
  reportAll [⟨line, misfit⟩]

def count : Decoder Unit := do
  let referred := (← read).referred
  modify fun p => { p with
    nodes := p.nodes + 1
    copies := if referred then p.copies + 1 else p.copies }
  if (← get).isExcessive then throw .malformed

/-- Reads a node, or the one that stands behind it if it is a reference. -/
def visit {α : Type} (y : Yaml) (decode : Yaml → Decoder α) : Decoder α := do
  count
  match y with
  | .reference _ _ _ =>
    withReader (fun c => { c with referred := true }) do
      count
      decode ((← read).document.resolve y)
  | y => decode y

def meaningOf (y : Yaml) : Decoder (Option Yaml.Meaning) :=
  match y.meaning? with
  | some m => return m
  | none => throw .malformed

def valueOf : Yaml → Bytes
  | .scalar _ _ _ value => value
  | _ => []

def reportType (y : Yaml) (target : Target) : Decoder Unit :=
  report y.line (.wrongType y.tag (valueOf y) target)

/-- A number as an integer: fractions are cut off. Numbers below the range become its least. -/
def intOf? : Yaml.Meaning → Option Int
  | .int i => if i ≤ Integer.maxInt then some i else none
  | .float v => match Number.parts v with
    | .nan | .infinite false => none
    | .infinite true => some Integer.minInt
    | .finite negative mantissa exponent =>
      let i := Integer.truncate negative mantissa exponent
      if i > Integer.maxInt + 1 then none
      else if i = Integer.maxInt + 1 || i < Integer.minInt then some Integer.minInt
      else some i
  | _ => none

def yesWords : List Bytes :=
  [text "y", text "Y", text "yes", text "Yes", text "YES", text "on", text "On", text "ON"]

def noWords : List Bytes :=
  [text "n", text "N", text "no", text "No", text "NO", text "off", text "Off", text "OFF"]

def boolOf? : Yaml.Meaning → Option Bool
  | .bool b => some b
  | .str s =>
    if yesWords.contains s then some true else if noWords.contains s then some false else none
  | _ => none

/-- What two keys of a mapping may not share. Collections as keys differ only in their form. -/
inductive Key where
  | scalar (value : Bytes)
  | reference (name : Bytes)
  | mapping
  | sequence
  deriving DecidableEq, Repr

def Key.of : Yaml → Key
  | .scalar _ _ _ value => scalar value
  | .reference _ name _ => reference name
  | .mapping _ _ _ => mapping
  | .sequence _ _ _ => sequence

def Key.name : Key → Bytes
  | scalar value => value
  | reference name => name
  | mapping | sequence => []

def repeats (key : Yaml) (later : List (Yaml × Yaml)) : List Problem :=
  later.filterMap fun (k, _) =>
    if Key.of k = Key.of key then some ⟨k.line, .repeatedKey (Key.of k).name key.line⟩ else none

def repeatedKeys : List (Yaml × Yaml) → List Problem
  | [] => []
  | (k, _) :: rest => repeats k rest ++ repeatedKeys rest

/-- A node that does not fit its target. Of a mapping with repeated keys only these are reported. -/
def reject (y : Yaml) (target : Target) : Decoder Unit :=
  match y with
  | .mapping _ _ entries => match repeatedKeys entries with
    | [] => reportType y target
    | problems => reportAll problems
  | _ => reportType y target

def decodeAs {α : Type} (target : Target) (convert : Yaml.Meaning → Option α) (old : α) (y : Yaml) :
    Decoder α :=
  visit y fun y => do
    match ← meaningOf y with
    | some .null => return old
    | m => match m.bind convert with
      | some v => return v
      | none =>
        reject y target
        return old

def decodeInt : Int → Yaml → Decoder Int :=
  decodeAs .int intOf?

def decodeBool : Bool → Yaml → Decoder Bool :=
  decodeAs .bool boolOf?

/-- A scalar as a string: what it means, if that is a string, or else as it is written. Null is
none, and neither is a collection. -/
def stringOf? (y : Yaml) : Decoder (Option Bytes) := do
  match y, ← meaningOf y with
  | _, some .null => return none
  | _, some (.str s) => return some s
  | .scalar _ _ _ value, _ => return some value
  | _, _ =>
    reject y .string
    return none

def decodeString (old : Bytes) (y : Yaml) : Decoder Bytes := do
  return (← visit y stringOf?).getD old

def isMerge : Yaml → Bool
  | .scalar _ tag quoted value =>
    value = Yaml.mergeKey && (match tag with
      | none => !quoted
      | some t => t = text "!!merge")
  | _ => false

def mergeSources (entries : List (Yaml × Yaml)) : Option (List Yaml) :=
  (entries.find? fun e => isMerge e.1).map fun
    | (_, .sequence _ _ items) => items
    | (_, y) => [y]

inductive Content where
  | scalar (m : Yaml.Meaning)
  | collection (f : Form)

def formOf (entries : List (Yaml × Yaml)) : Decoder Form := do
  let d := (← read).document
  let isString := fun (k : Yaml) => [text "!!str", text "!!merge"].contains (d.resolve k).tag
  return if entries.all fun (k, _) => isString k then .dictionary else .mapping

/--
Reads a node for which there is no target, and nodes inside it at most `n` deep. A mapping with a
repeated key has no content, and collections are no keys. `merging` says that keys are looked up
among others.
-/
def examine : Nat → Bool → Yaml → Decoder (Option Content)
  | 0, _, _ => throw .malformed
  | n + 1, merging, y => visit y fun
    | .sequence _ _ items => do
      items.forM fun y => discard (examine n merging y)
      return some (.collection .sequence)
    | .mapping _ _ entries => match repeatedKeys entries with
      | [] => do
        entries.forM fun (k, v) => do
          if !isMerge k then
            match ← examine n false k with
            | some (.collection f) => throw (if merging then .unhashable f else .malformed)
            | some (.scalar _) => discard (examine n false v)
            | none => return
        match mergeSources entries with
        | none => pure ()
        | some sources =>
          if !merging then entries.forM fun (k, _) => discard (examine n true k)
          sources.forM fun y => do
            match ← examine n true y with
            | some (.collection .sequence) | some (.scalar _) => throw .malformed
            | _ => return
        return some (.collection (← formOf entries))
      | problems => do
        reportAll problems
        return none
    | y => return (← meaningOf y).map .scalar

/-- The names of the keys of a mapping that takes over others. These have to be scalars. -/
def names (n : Nat) (entries : List (Yaml × Yaml)) : Decoder (List Bytes) := do
  let keys ← entries.mapM fun (k, _) => do
    match ← examine n true k with
    | some (.scalar (.str name)) => return [name]
    | some (.collection f) => throw (.unhashable f)
    | _ => return []
  return keys.flatten

end CornScript.Config
