import CornScript.Bytes

/-! # The log

A line is kept if its level is not below the level of the log. It begins with the first letter of
its level.
-/

namespace CornScript

namespace Log

inductive Level where
  | debug | verbose | info | warning | error | critical | fatal
  deriving DecidableEq, Repr

namespace Level

def all : List Level := [debug, verbose, info, warning, error, critical, fatal]

def rank : Level → Nat
  | debug => 0
  | verbose => 1
  | info => 2
  | warning => 3
  | error => 4
  | critical => 5
  | fatal => 6

def name : Level → Bytes
  | debug => text "Debug"
  | verbose => text "Verbose"
  | info => text "Info"
  | warning => text "Warning"
  | error => text "Error"
  | critical => text "Critical"
  | fatal => text "Fatal"

def lowerName : Level → Bytes
  | debug => text "debug"
  | verbose => text "verbose"
  | info => text "info"
  | warning => text "warning"
  | error => text "error"
  | critical => text "critical"
  | fatal => text "fatal"

def ofName? (n : Bytes) : Option Level :=
  all.find? fun l => l.name = n || l.lowerName = n

end Level

end Log

/-- The lines that were kept, the last one first. -/
structure Log where
  level : Log.Level
  lines : List Bytes
  deriving DecidableEq, Repr

namespace Log

def start (level : Level) : Log := ⟨level, []⟩

def keeps (l : Log) (level : Level) : Bool :=
  l.level.rank ≤ level.rank

def force (l : Log) (level : Level) (message : Bytes) : Log :=
  { l with lines :=
      (text "[" ++ level.name.take 1 ++ text "]> " ++ message ++ text "\n") :: l.lines }

/-- Adds a line if its level is high enough. The message is made only then. -/
def add (l : Log) (level : Level) (message : Unit → Bytes) : Log :=
  if l.keeps level then l.force level (message ()) else l

def contents (l : Log) : Bytes :=
  l.lines.reverse.flatten

def drain (l : Log) : Log :=
  { l with lines := [] }

/--
Changes the level and says so. Levels above `critical` would silence the log and are refused with a
line of their own.
-/
def setLevel (l : Log) (level : Level) : Log :=
  if level.rank > Level.critical.rank then
    l.force .error (text "SetLogLevel called with level " ++ Bytes.ofNat level.rank ++
      text " higher than Critical!")
  else if level = l.level then l
  else
    { l.add .info (fun _ => text "Log level is now " ++ Bytes.ofNat level.rank ++ text " " ++
        level.name ++ text " (was " ++ Bytes.ofNat l.level.rank ++ text " " ++ l.level.name ++
        text ")") with level := level }

end Log

end CornScript
