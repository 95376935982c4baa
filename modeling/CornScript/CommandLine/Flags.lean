import CornScript.Bytes.Quoted
import CornScript.Number.Integer

/-! # Flags

A flag begins with one dash or two. Its value follows after `=` or as the next argument; a flag that
is on or off has a value only after `=`. Flags end at the first argument that is none, at a single
dash, and after two dashes alone.
-/

namespace CornScript.CommandLine

/-- The values of the flags. Empty texts and zero stand for flags that were not given. -/
structure Flags where
  config : Bytes
  threshold : Int
  level : Bytes
  stats : Bool
  program : Bytes
  deriving DecidableEq, Repr

namespace Flags

def none : Flags := ⟨[], 0, [], false, []⟩

inductive Fault where
  | help
  | badForm (arg : Bytes)
  | undefined (name : Bytes)
  | needsArgument (name : Bytes)
  | badValue (value name : Bytes) (reason : Integer.Fault)
  | badSwitch (value name : Bytes)
  deriving DecidableEq, Repr

def reasonText : Integer.Fault → Bytes
  | .malformed => text "parse error"
  | .outOfRange => text "value out of range"

def Fault.message : Fault → Bytes
  | help => []
  | badForm arg => text "bad flag syntax: " ++ arg ++ text "\n"
  | undefined name => text "flag provided but not defined: -" ++ name ++ text "\n"
  | needsArgument name => text "flag needs an argument: -" ++ name ++ text "\n"
  | badValue value name reason =>
    text "invalid value " ++ Bytes.quote value ++ text " for flag -" ++ name ++ text ": " ++
      reasonText reason ++ text "\n"
  | badSwitch value name =>
    text "invalid boolean value " ++ Bytes.quote value ++ text " for -" ++ name ++
      text ": parse error\n"

def switch? (value : Bytes) : Option Bool :=
  let on := ["1", "t", "T", "true", "TRUE", "True"]
  let off := ["0", "f", "F", "false", "FALSE", "False"]
  if (on.map text).contains value then some true
  else if (off.map text).contains value then some false
  else Option.none

inductive Name where
  | config | threshold | level | stats | program
  deriving DecidableEq, Repr

def Name.ofText? (s : Bytes) : Option Name :=
  if s = text "config" then some .config
  else if s = text "gc-threshold" then some .threshold
  else if s = text "loglevel" then some .level
  else if s = text "stats" then some .stats
  else if s = text "e" then some .program
  else Option.none

def set (f : Flags) (name : Bytes) (value : Bytes) : Name → Except Fault Flags
  | .config => .ok { f with config := value }
  | .level => .ok { f with level := value }
  | .program => .ok { f with program := value }
  | .threshold => match Integer.read value with
    | .ok n => .ok { f with threshold := n }
    | .error reason => .error (.badValue value name reason)
  | .stats => match switch? value with
    | some b => .ok { f with stats := b }
    | Option.none => .error (.badSwitch value name)

/-- The name and the value of `name=value`; the name has at least one byte. -/
def splitValue : Bytes → Bytes × Option Bytes
  | [] => ([], Option.none)
  | b :: rest =>
    let name := b :: rest.takeWhile (· ≠ 0x3D)
    match rest.dropWhile (· ≠ 0x3D) with
    | [] => (name, Option.none)
    | _ :: value => (name, some value)

/-- An argument without its dashes, if it is a flag. `some none` ends the flags. -/
def body? : Bytes → Option (Option Bytes)
  | [0x2D, 0x2D] => some Option.none
  | 0x2D :: 0x2D :: rest => some (some rest)
  | 0x2D :: b :: rest => some (some (b :: rest))
  | _ => Option.none

def read (f : Flags) : List Bytes → Except Fault (Flags × List Bytes)
  | [] => .ok (f, [])
  | arg :: rest => match body? arg with
    | Option.none => .ok (f, arg :: rest)
    | some Option.none => .ok (f, rest)
    | some (some body) =>
      if body.isEmpty || body.head? = some 0x2D || body.head? = some 0x3D then
        .error (.badForm arg)
      else
        let (name, value) := splitValue body
        match Name.ofText? name, value with
        | Option.none, _ =>
          if name = text "help" || name = text "h" then .error .help else .error (.undefined name)
        | some .stats, value => do
          let f ← f.set name (value.getD (text "true")) .stats
          f.read rest
        | some flag, some value => do
          let f ← f.set name value flag
          f.read rest
        | some flag, Option.none => match rest with
          | [] => .error (.needsArgument name)
          | value :: rest => do
            let f ← f.set name value flag
            f.read rest

end Flags

end CornScript.CommandLine
