import CornScript.Config.Decoder

/-! # Settings from a YAML document

A document has three sections. Each knows its fields, and how the value of a field changes what is
set.
-/

namespace CornScript.Config

structure Section (α : Type) where
  target : Target
  field? : Bytes → Option (α → Yaml → Decoder α)

namespace Section

variable {α : Type}

/--
Reads the entries of a section one by one. `done` are the fields that are set. A section that takes
over entries of others has the names that these may not set again in `taken`, and the entries of
this mapping are added to them.
-/
def decodeEntries (s : Section α) :
    List Bytes → Option (List Bytes) → α → List (Yaml × Yaml) → Decoder (α × Option (List Bytes))
  | _, taken, a, [] => return (a, taken)
  | done, taken, a, (k, v) :: rest => do
    if isMerge k then s.decodeEntries done taken a rest
    else match ← visit k stringOf? with
      | none => s.decodeEntries done taken a rest
      | some name =>
        if taken.any (·.contains name) then s.decodeEntries done taken a rest
        else
          let taken := taken.map (name :: ·)
          match s.field? name with
          | none =>
            report k.line (.unknownField name s.target)
            s.decodeEntries done taken a rest
          | some set =>
            if done.contains name then
              report k.line (.repeatedField name s.target)
              s.decodeEntries done taken a rest
            else s.decodeEntries (name :: done) taken (← set a v) rest

/-- Reads a mapping, at most `n` of which are merged one into the other. One with a repeated key is
not read at all. What it takes over from other mappings comes last and only fills in. -/
def decodeMapping (s : Section α) : Nat → Option (List Bytes) → α → List (Yaml × Yaml) →
    Decoder (α × Option (List Bytes))
  | 0, _, _, _ => throw .malformed
  | n + 1, taken, a, entries => do
    match repeatedKeys entries with
    | [] =>
      let (a, taken) ← s.decodeEntries [] taken a entries
      match mergeSources entries with
      | none => return (a, taken)
      | some sources =>
        let known ← match taken with
          | some names => pure names
          | none => names n entries
        let (a, known) ← sources.foldlM (fun (a, known) y => visit y fun
          | .mapping _ _ entries => s.decodeMapping n known a entries
          | _ => throw .malformed) (a, some known)
        return (a, if taken.isSome then known else none)
    | problems =>
      reportAll problems
      return (a, taken)

/-- Reads a section; null keeps what is there. -/
def decode (s : Section α) (n : Nat) (old : α) (y : Yaml) : Decoder α :=
  visit y fun y => do
    match y, ← meaningOf y with
    | _, some .null => return old
    | .mapping _ _ entries, _ => return (← s.decodeMapping n none old entries).1
    | _, _ =>
      reportType y s.target
      return old

end Section

def gcSection : Section Int where
  target := .gc
  field? name := if name = text "threshold" then some decodeInt else none

def logSection : Section Bytes where
  target := .log
  field? name := if name = text "level" then some decodeString else none

def replSection : Section Repl.Options where
  target := .repl
  field? name :=
    if name = text "prompt" then
      some fun o y => do return { o with prompt := ← decodeString o.prompt y }
    else if name = text "banner" then
      some fun o y => do return { o with banner := ← decodeBool o.banner y }
    else none

def configSection (n : Nat) : Section Config where
  target := .config
  field? name :=
    if name = text "gc" then
      some fun c y => do return { c with threshold := ← gcSection.decode n c.threshold y }
    else if name = text "log" then
      some fun c y => do return { c with level := ← logSection.decode n c.level y }
    else if name = text "repl" then
      some fun c y => do return { c with repl := ← replSection.decode n c.repl y }
    else none

/-- The settings of a document, with the problems in it. The document counts as a node. A mapping
that is merged into itself ends the reading, which the length of the text bounds. -/
def ofDocument (n : Nat) (d : Yaml.Document) : Except Error (Config × List Problem) := do
  let (c, p) ← (((configSection n).decode n standard d.root).run ⟨d, false⟩).run ⟨[], 1, 0⟩
  return (c, p.problems)

def decode (source : Bytes) : Except Error Config := do
  let (c, problems) ← match Yaml.read source with
    | none => throw .malformed
    | some none => pure (standard, [])
    | some (some d) => ofDocument (source.length + 1) d
  if !problems.isEmpty then throw (.misfits problems)
  match c.invalid? with
  | some reason => throw (.invalid reason)
  | none => return c

end CornScript.Config
