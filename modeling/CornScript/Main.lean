import CornScript.CommandLine

/-! # The program

Files are read before the plan is made, and output is written after each line, so that an
interactive session shows what a line did before the next one is read.
-/

namespace CornScript.Main

def depth : Nat := 1000000000

def write (h : IO.FS.Stream) (b : Bytes) : IO Unit := do
  unless b.isEmpty do
    h.write ⟨b.toArray⟩
    h.flush

def reveal (s : Session) : IO Session := do
  write (← IO.getStdout) s.state.output.contents
  write (← IO.getStderr) s.state.log.contents
  return s.drain

def emit (r : CommandLine.Result) : IO UInt32 := do
  write (← IO.getStdout) r.stdout
  write (← IO.getStderr) r.stderr
  return r.code.toUInt32

/-- Reads up to the end of a line, and no more than a line may hold. -/
partial def readLine (h : IO.FS.Stream) (line : Array UInt8) : IO (Option Bytes) := do
  let b ← h.read 1
  match b.data.toList.head? with
  | none => return if line.isEmpty then none else some line.toList
  | some 0x0A => return some line.toList
  | some c =>
    let line := line.push c
    if line.size ≥ Repl.lineLimit then return some line.toList else readLine h line

partial def readAll (h : IO.FS.Stream) (bytes : ByteArray) : IO Bytes := do
  let b ← h.read 4096
  if b.isEmpty then return bytes.data.toList else readAll h (bytes ++ b)

partial def interact (h : IO.FS.Stream) (prompt : Bytes) (s : Session) : IO Repl.Ending := do
  let s ← reveal (s.print prompt)
  match ← readLine h #[] with
  | none => return ⟨0, [], s⟩
  | some line => match Repl.serveLine depth line s with
    | .next s => interact h prompt s
    | .ended e => return e

/-- Only a file that cannot be opened is named by its error. -/
def readError : IO.Error → CommandLine.ReadError
  | .noFileOrDirectory .. => .missing
  | .inappropriateType (some _) .. => .notDirectory
  | .inappropriateType none .. => .directory
  | e => .other (text (toString e))

def readPath (path : Bytes) : IO (Except CommandLine.ReadError Bytes) := do
  match String.fromUTF8? ⟨path.toArray⟩ with
  | none => return .error .missing
  | some name =>
    try return .ok (← IO.FS.readBinFile name).data.toList
    catch e => return .error (readError e)

def surroundings (args : List Bytes) : IO CommandLine.Surroundings := do
  let directory := text (← IO.currentDir).toString
  let files ← (CommandLine.wanted directory args).mapM fun p => return (p, ← readPath p)
  return ⟨directory, fun p => (files.lookup p).getD (.error .missing)⟩

def run (p : CommandLine.Plan) : IO Repl.Ending := do
  let h ← IO.getStdin
  match p.job with
  | .script .. => return p.perform depth []
  | .input => return p.perform depth (← readAll h .empty)
  | .interactive => interact h p.repl.prompt (Repl.greet p.repl p.session)

end CornScript.Main

def main (args : List String) : IO UInt32 := do
  let args := args.map CornScript.text
  let w ← CornScript.Main.surroundings args
  match CornScript.CommandLine.plan w args with
  | .error r => CornScript.Main.emit r
  | .ok p => CornScript.Main.emit (p.finish (← CornScript.Main.run p))
