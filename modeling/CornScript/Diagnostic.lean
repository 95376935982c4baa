import CornScript.Bytes

/-! # Diagnostics

A diagnostic shows an error with the line of the text that it is about and a caret under the column.
-/

namespace CornScript

/-- Line and column count from one; other values are shown but point nowhere. -/
structure Diagnostic where
  kind : Bytes
  message : Bytes
  line : Int
  column : Int
  deriving DecidableEq, Repr

namespace Diagnostic

def describe (d : Diagnostic) : Bytes :=
  d.kind ++ text ": " ++ d.message ++ text " (at " ++ Bytes.ofInt d.line ++ text ":" ++
    Bytes.ofInt d.column ++ text ")"

/-- As many blanks as come before column `n + 1`. Tabs are kept, so that the caret stands below its
column. -/
def indent (line : Bytes) (n : Nat) : Bytes :=
  (line.take n).map (fun b => if b = 0x09 then 0x09 else 0x20) ++
    List.replicate (n - line.length) 0x20

def line? (d : Diagnostic) (source : Bytes) : Option Bytes :=
  if d.line < 1 then none else (Bytes.lines source)[(d.line - 1).toNat]?

def render (d : Diagnostic) (file source : Bytes) : Bytes :=
  let file := if file.isEmpty then text "<input>" else file
  let heading := d.kind ++ text ": " ++ d.message ++ text "\n  --> " ++ file ++ text ":" ++
    Bytes.ofInt d.line ++ text ":" ++ Bytes.ofInt d.column ++ text "\n"
  match d.line? source with
  | none => heading
  | some line =>
    let number := Bytes.ofInt d.line
    let gutter := List.replicate number.length 0x20
    heading ++ text " " ++ gutter ++ text " |\n " ++ number ++ text " | " ++ line ++
      text "\n " ++ gutter ++ text " | " ++ indent line (d.column - 1).toNat ++ text "^\n"

end Diagnostic

end CornScript
