import CornScript.Diagnostic
import CornScript.Eval
import CornScript.Tree.Parser

/-! # Sessions

A session keeps one state and one global scope, so that what one text binds is visible to the next.
A text that does not parse is not run at all.
-/

namespace CornScript

structure Session where
  state : State
  scope : ScopeId

namespace Session

inductive Answer where
  | fatal (e : SyntaxError)
  | finished (outcome : Outcome)

def new (threshold : Nat) (output : Output) (log : Log) : Session :=
  let state := State.initial threshold output log
  let (scope, store) := state.store.newScope none
  ⟨{ state with store := store }, scope⟩

def eval (s : Session) (fuel : Nat) (node : Node) : Outcome × Session :=
  let (outcome, state) := node.eval fuel s.scope s.state
  (outcome, { s with state := state })

def exec (s : Session) (fuel : Nat) (source : Bytes) : Answer × Session :=
  match Program.parse source with
  | .error e =>
    (.fatal e, { s with state := s.state.trace fun _ => text "parse failed: " ++ e.describe })
  | .ok p =>
    let (outcome, s) := s.eval fuel (.program p)
    (.finished outcome, s)

theorem exec_of_parse {s : Session} {fuel : Nat} {source : Bytes} {p : Program}
    (h : Program.parse source = .ok p) : s.exec fuel source =
      (.finished (Outcome.ofResult (p.run fuel s.scope s.state)).1,
        ⟨(Outcome.ofResult (p.run fuel s.scope s.state)).2, s.scope⟩) := by
  rw [exec, h]
  rfl

def print (s : Session) (b : Bytes) : Session :=
  { s with state := { s.state with output := s.state.output.append b } }

def log (s : Session) (level : Log.Level) (message : Unit → Bytes) : Session :=
  { s with state := { s.state with log := s.state.log.add level message } }

def drain (s : Session) : Session :=
  { s with state := { s.state with output := s.state.output.drain, log := s.state.log.drain } }

def object (s : Session) (r : Ref) : Object :=
  s.state.store.get r

end Session

def SyntaxError.fatal (e : SyntaxError) : Bytes :=
  text "parse error: " ++ e.describe

def SyntaxError.diagnostic (e : SyntaxError) : Diagnostic :=
  ⟨text "Parse error", e.message, e.pos.line, e.pos.column⟩

end CornScript
