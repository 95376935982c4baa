import CornScript.Bytes.Quoted
import CornScript.Config

/-! # What can be wrong with settings

A document with settings may be no document at all, or parts of it may not fit. All parts that do
not fit are reported together.
-/

namespace CornScript.Config

inductive Target where
  | config | gc | log | repl
  | int | bool | string
  deriving DecidableEq, Repr

def Target.name : Target → Bytes
  | config => text "config.Config"
  | gc => text "config.GC"
  | log => text "config.Log"
  | repl => text "config.REPL"
  | int => text "int"
  | bool => text "bool"
  | string => text "string"

inductive Misfit where
  | unknownField (name : Bytes) (target : Target)
  /-- A collection has no value. -/
  | wrongType (tag value : Bytes) (target : Target)
  | repeatedKey (name : Bytes) (firstLine : Nat)
  /-- The same name comes from two keys that are written in different ways. -/
  | repeatedField (name : Bytes) (target : Target)
  deriving DecidableEq, Repr

def abbreviate (value : Bytes) : Bytes :=
  if value.length > 10 then value.take 7 ++ text "..." else value

def Misfit.message : Misfit → Bytes
  | unknownField name target => text "field " ++ name ++ text " not found in type " ++ target.name
  | wrongType tag value target =>
    let shown :=
      if tag = text "!!map" || tag = text "!!seq" then value
      else text " `" ++ abbreviate value ++ text "`"
    text "cannot unmarshal " ++ tag ++ shown ++ text " into " ++ target.name
  | repeatedKey name firstLine =>
    text "mapping key " ++ Bytes.quote name ++ text " already defined at line " ++
      Bytes.ofNat firstLine
  | repeatedField name target =>
    text "field " ++ name ++ text " already set in type " ++ target.name

structure Problem where
  line : Nat
  misfit : Misfit
  deriving DecidableEq, Repr

def problemsMessage (problems : List Problem) : Bytes :=
  text "yaml: unmarshal errors:" ++ (problems.map fun p =>
    text "\n  line " ++ Bytes.ofNat p.line ++ text ": " ++ p.misfit.message).flatten

inductive Form where
  | sequence
  | mapping
  /-- A mapping whose keys are strings. -/
  | dictionary
  deriving DecidableEq, Repr

def Form.name : Form → Bytes
  | sequence => text "[]interface \x7b\x7d"
  | mapping => text "map[interface \x7b\x7d]interface \x7b\x7d"
  | dictionary => text "map[string]interface \x7b\x7d"

inductive Error where
  /-- The text is no YAML document. -/
  | malformed
  /-- A mapping that takes over the entries of others has a collection for a key, which cannot be
  told apart from theirs. -/
  | unhashable (key : Form)
  | misfits (problems : List Problem)
  | invalid (reason : Invalid)
  deriving DecidableEq, Repr

/-- What is reported. Why a text is no document is left to the words of `refusal`. -/
def Error.message (e : Error) (refusal : Bytes := []) : Bytes :=
  match e with
  | malformed => refusal
  | unhashable key => text "runtime error: hash of unhashable type " ++ key.name
  | misfits problems => problemsMessage problems
  | invalid reason => reason.message

end CornScript.Config
