import CornScript.Bytes.Blank
import CornScript.Session

/-! # The interactive loop

Each line of the input is one program, and its value is shown. A prompt comes before every attempt
to read a line. A line may also be blank or a command: `version` shows the version and `quit` ends
the loop, as does the end of the input, a text that does not parse, and a line that is too long.
-/

namespace CornScript.Repl

def version : Bytes := text "1.0.1"

def logo : List String :=
  ["        ,\\", "        \\\\\\,_", "         \\' ,\\", "    __,.-\" =__)", "  .\"        )",
   ",_/   ,    \\/\\_", "\\_|    )_-\\ \\_-'", "'-----' '--'"]

def banner : Bytes :=
  text "CornyLang v" ++ version ++ text "\n" ++ Bytes.join (text "\n") (logo.map text) ++
    text "\nPlease feel free to type some valid commands or expressions!\n"

structure Options where
  prompt : Bytes
  banner : Bool
  deriving DecidableEq, Repr

/-- How the loop ended. `errors` is what belongs on the error stream. -/
structure Ending where
  code : Nat
  errors : Bytes
  session : Session

/-- A line has to be shorter than this many bytes. -/
def lineLimit : Nat := 65536

/-- The lines of an input. `\n` ends a line, and the last line may lack it. -/
def inputLines (input : Bytes) : List Bytes :=
  let pieces := Bytes.lines input
  if pieces.getLast? = some [] then pieces.dropLast else pieces

def dropReturn (line : Bytes) : Bytes :=
  if line.getLast? = some 0x0D then line.dropLast else line

inductive Request where
  | nothing | quit | version
  | program (source : Bytes)
  deriving DecidableEq, Repr

def Request.ofLine (line : Bytes) : Request :=
  let word := Bytes.trim line
  if word.isEmpty then .nothing
  else if word = text "quit" then .quit
  else if word = text "version" then .version
  else .program line

inductive Step where
  | next (s : Session)
  | ended (e : Ending)

def serveLine (fuel : Nat) (line : Bytes) (s : Session) : Step :=
  if line.length ≥ lineLimit then
    .ended ⟨1, [], s.log .error fun _ => text "reading input: bufio.Scanner: token too long"⟩
  else match Request.ofLine (dropReturn line) with
    | .nothing => .next s
    | .quit => .ended ⟨0, [], s⟩
    | .version => .next (s.print (version ++ text "\n"))
    | .program source => match s.exec fuel source with
      | (.fatal e, s) => .ended ⟨1, e.diagnostic.render (text "<stdin>") source, s⟩
      | (.finished (.value r), s) => .next (s.print ((s.object r).inspect ++ text "\n"))
      | (.finished _, s) => .ended ⟨2, [], s⟩

def serveLines (fuel : Nat) (prompt : Bytes) : List Bytes → Session → Ending
  | [], s => ⟨0, [], s.print prompt⟩
  | line :: rest, s => match serveLine fuel line (s.print prompt) with
    | .next s => serveLines fuel prompt rest s
    | .ended e => e

def greet (options : Options) (s : Session) : Session :=
  if options.banner then s.print banner else s

def serve (fuel : Nat) (options : Options) (input : Bytes) (s : Session) : Ending :=
  serveLines fuel options.prompt (inputLines input) (greet options s)

end CornScript.Repl
