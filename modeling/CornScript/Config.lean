import CornScript.Log
import CornScript.Repl

/-! # Settings

What can be set, the standard settings, and which settings can be used.
-/

namespace CornScript

structure Config where
  /-- The number of statements between collections. -/
  threshold : Int
  level : Bytes
  repl : Repl.Options
  deriving DecidableEq, Repr

namespace Config

def standard : Config where
  threshold := 100
  level := text "info"
  repl := ⟨text ">> ", true⟩

inductive Invalid where
  | threshold (n : Int)
  | level
  deriving DecidableEq, Repr

def Invalid.message : Invalid → Bytes
  | threshold n => text "gc.threshold must be at least 1, got " ++ Bytes.ofInt n
  | level => text "log.level: should be one of [" ++
      Bytes.join (text " ") (Log.Level.all.map Log.Level.name) ++ text "]"

def invalid? (c : Config) : Option Invalid :=
  if c.threshold < 1 then some (.threshold c.threshold)
  else if (Log.Level.ofName? c.level).isNone then some .level
  else none

end Config

end CornScript
