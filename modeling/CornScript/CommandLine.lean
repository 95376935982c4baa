import CornScript.CommandLine.Flags
import CornScript.Config.Section
import CornScript.Session.Script

/-! # The command line

The arguments choose between a program in an argument, a program in a file or on the standard input,
and the interactive loop. Flags override the settings of a file, and these the standard ones.
-/

namespace CornScript.CommandLine

inductive ReadError where
  | missing
  | notDirectory
  | directory
  | other (reason : Bytes)
  deriving DecidableEq, Repr

def ReadError.message (path : Bytes) : ReadError → Bytes
  | missing => text "open " ++ path ++ text ": no such file or directory"
  | notDirectory => text "open " ++ path ++ text ": not a directory"
  | directory => text "read " ++ path ++ text ": is a directory"
  | other reason => text "open " ++ path ++ text ": " ++ reason

structure Surroundings where
  directory : Bytes
  file : Bytes → Except ReadError Bytes

structure Result where
  code : Nat
  stdout : Bytes
  stderr : Bytes
  deriving DecidableEq, Repr

def usage : Bytes :=
  text "Usage: corny [flags] [file | -]\n" ++
  text "  With no file an interactive session reads stdin line by line.\n" ++
  text "  \"-\" reads a whole program from stdin.\n" ++
  text "  -config file\n    \tYAML config file\n" ++
  text "  -e program\n    \tevaluate program and exit\n" ++
  text "  -gc-threshold int\n    \tstatements between collections (overrides config)\n" ++
  text "  -loglevel level\n    \tlog level (overrides config)\n" ++
  text "  -stats\n    \tprint heap statistics to stderr on exit\n"

/-- Adds a part to a path of parts in reverse order. -/
def pushPart (rooted : Bool) : List Bytes → Bytes → List Bytes
  | parts, [] => parts
  | parts, [0x2E] => parts
  | parts, [0x2E, 0x2E] => match parts with
    | [] => if rooted then [] else [[0x2E, 0x2E]]
    | p :: rest => if p = [0x2E, 0x2E] then [0x2E, 0x2E] :: parts else rest
  | parts, part => part :: parts

def cleanPath (path : Bytes) : Bytes :=
  let rooted := path.head? = some 0x2F
  let parts := (Bytes.splitOn 0x2F path).foldl (pushPart rooted) []
  let body := Bytes.join [0x2F] parts.reverse
  if rooted then 0x2F :: body else if body.isEmpty then [0x2E] else body

def absolutePath (directory path : Bytes) : Bytes :=
  if path.head? = some 0x2F then cleanPath path else cleanPath (directory ++ 0x2F :: path)

/-- Reads settings from a file. If the file holds no document then `refusal` says why. -/
def loadConfig (w : Surroundings) (path : Bytes) (refusal : Bytes → Bytes) :
    Except Bytes Config :=
  let place := absolutePath w.directory path
  match w.file place with
  | .error .directory =>
    .error (text "config: parse " ++ place ++ text ": yaml: input error: " ++
      ReadError.directory.message place)
  | .error e => .error (e.message place)
  | .ok source => match Config.decode source with
    | .ok c => .ok c
    | .error e => .error (text "config: parse " ++ place ++ text ": " ++ e.message (refusal source))

def override (f : Flags) (c : Config) : Config :=
  { c with
    threshold := if f.threshold ≠ 0 then f.threshold else c.threshold
    level := if f.level.isEmpty then c.level else f.level }

def baseConfig (w : Surroundings) (f : Flags) (log : Log) (refusal : Bytes → Bytes) :
    Except Bytes Config × Log :=
  if f.config.isEmpty then (.ok .standard, log)
  else match loadConfig w f.config refusal with
    | .ok c => (.ok c, log.add .info fun _ => text "using config " ++ f.config)
    | .error e => (.error e, log)

def resolveConfig (w : Surroundings) (f : Flags) (log : Log) (refusal : Bytes → Bytes) :
    Except Bytes Config × Log :=
  match baseConfig w f log refusal with
  | (.error e, log) => (.error e, log)
  | (.ok c, log) =>
    let c := override f c
    match c.invalid? with
    | some reason => (.error (text "config: " ++ reason.message), log)
    | none => (.ok c, log)

inductive Job where
  /-- A program from an argument or a file. -/
  | script (name source : Bytes)
  /-- A program from the standard input. -/
  | input
  | interactive
  deriving DecidableEq, Repr

def job (w : Surroundings) (f : Flags) (args : List Bytes) : Except Bytes Job :=
  if !f.program.isEmpty then .ok (.script (text "<expr>") f.program)
  else match args with
    | [] => .ok .interactive
    | name :: _ =>
      if name = text "-" then .ok .input
      else match w.file name with
        | .ok source => .ok (.script name source)
        | .error e => .error (text "read source: " ++ e.message name)

/-- Runs a named text. An error as its value is a failure too. -/
def runScript (fuel : Nat) (name source : Bytes) (s : Session) : Repl.Ending :=
  let s := s.log .verbose fun _ =>
    text "running " ++ name ++ text " (" ++ Bytes.ofNat source.length ++ text " bytes)"
  let script := s.runScript fuel name source
  let code := match script.answer with
    | .fatal _ => 1
    | .finished (.value r) => match script.session.object r with
      | .error _ => 1
      | _ => 0
    | .finished _ => 2
  ⟨code, script.errors, script.session⟩

def statsLine (h : Heap) : Bytes :=
  text "gc: cycles=" ++ Bytes.ofNat h.cycles ++ text " freed=" ++ Bytes.ofNat h.freed ++
    text " live=" ++ Bytes.ofNat h.live ++ text " capacity=" ++ Bytes.ofNat h.capacity ++ text "\n"

def newSession (c : Config) (log : Log) : Session :=
  .new c.threshold.toNat .unlimited log

/-- A job with everything that it needs but the standard input. -/
structure Plan where
  flags : Flags
  job : Job
  repl : Repl.Options
  session : Session

def abort (log : Log) (message : Bytes) : Result :=
  ⟨1, [], (log.add .error fun _ => message).contents⟩

def planFlags (w : Surroundings) (f : Flags) (args : List Bytes) (refusal : Bytes → Bytes) :
    Except Result Plan :=
  match resolveConfig w f (.start .info) refusal with
  | (.error e, log) => .error (abort log e)
  | (.ok c, log) =>
    let log := match Log.Level.ofName? c.level with
      | some level => log.setLevel level
      | none => log
    match job w f args with
    | .error e => .error (abort log e)
    | .ok job => .ok ⟨f, job, c.repl, newSession c log⟩

def plan (w : Surroundings) (args : List Bytes) (refusal : Bytes → Bytes := fun _ => []) :
    Except Result Plan :=
  match Flags.none.read args with
  | .error .help => .error ⟨0, [], usage⟩
  | .error fault => .error ⟨2, [], fault.message ++ usage⟩
  | .ok (f, rest) => if rest.length > 1 then .error ⟨2, [], usage⟩ else planFlags w f rest refusal

namespace Plan

def perform (p : Plan) (fuel : Nat) (stdin : Bytes) : Repl.Ending :=
  match p.job with
  | .script name source => runScript fuel name source p.session
  | .input => runScript fuel (text "-") stdin p.session
  | .interactive => Repl.serve fuel p.repl stdin p.session

def finish (p : Plan) (ending : Repl.Ending) : Result where
  code := ending.code
  stdout := ending.session.state.output.contents
  stderr := ending.session.state.log.contents ++ ending.errors ++
    if p.flags.stats then statsLine ending.session.state.heap else []

end Plan

def run (fuel : Nat) (w : Surroundings) (stdin : Bytes) (args : List Bytes)
    (refusal : Bytes → Bytes := fun _ => []) : Result :=
  match plan w args refusal with
  | .error r => r
  | .ok p => p.finish (p.perform fuel stdin)

/-- The files that a run may want. -/
def wanted (directory : Bytes) (args : List Bytes) : List Bytes :=
  match Flags.none.read args with
  | .error _ => []
  | .ok (f, rest) =>
    (if f.config.isEmpty then [] else [absolutePath directory f.config]) ++ rest.take 1

end CornScript.CommandLine
