import CornScript.Heap.Trace
import CornScript.Log
import CornScript.Output
import CornScript.Tree.Printer

/-! # The state of a running program

Running a program changes a state, and a step that does not end with a value ends abruptly: a return
statement is on its way to its call, or an error to the end of the program.
-/

namespace CornScript

/-- `statements` counts the statements since the last collection, which is due at `threshold`. -/
structure State where
  store : Store
  heap : Heap
  handles : Handles
  statements : Nat
  threshold : Nat
  output : Output
  log : Log

namespace State

def defaultThreshold : Nat := 100

/-- Nothing has run yet. A threshold of zero stands for the default. -/
def initial (threshold : Nat) (output : Output) (log : Log) : State where
  store := .initial
  heap := .empty
  handles := .none
  statements := 0
  threshold := if threshold = 0 then defaultThreshold else threshold
  output := output
  log := log

def trace (s : State) (message : Unit → Bytes) : State :=
  { s with log := s.log.add .verbose message }

def alloc (s : State) (o : Object) : Ref × State :=
  let (r, store) := s.store.alloc o
  let (heap, handles) := s.heap.register s.handles r
  (r, { s with store := store, heap := heap, handles := handles })

def collect (s : State) (root : ScopeId) (extra : List Ref) : Nat × State :=
  let before := s.heap.live
  let (freed, heap) := s.heap.collect s.store s.handles (some root) extra
  let s := { s with heap := heap }
  (freed, s.trace fun _ =>
    text "gc: cycle " ++ Bytes.ofNat heap.cycles ++ text " freed " ++ Bytes.ofNat freed ++
    text " of " ++ Bytes.ofNat before ++ text " objects, " ++ Bytes.ofNat heap.live ++
    text " live, " ++ Bytes.ofNat heap.capacity ++ text " slots")

def collectIfDue (s : State) (root : ScopeId) (result : Ref) : State :=
  if s.statements < s.threshold then s
  else
    let s := s.trace fun _ =>
      text "gc: threshold " ++ Bytes.ofNat s.threshold ++ text " reached after " ++
      Bytes.ofNat s.statements ++ text " statements"
    { (s.collect root [result]).2 with statements := 0 }

end State

inductive Abrupt where
  /-- A return statement is on its way to the call that it ends. -/
  | returning (r : Ref)
  /-- An error is on its way to the end of the program. -/
  | failed (r : Ref)
  /-- The tree is incomplete. -/
  | defect (d : Defect)
  /-- The bound on nested evaluation is used up. -/
  | outOfFuel
  deriving DecidableEq, Repr

abbrev Eval := EStateM Abrupt State

namespace Eval

def alloc (o : Object) : Eval Ref :=
  modifyGet fun s => s.alloc o

def read (r : Ref) : Eval Object :=
  return (← get).store.get r

def trace (message : Unit → Bytes) : Eval Unit :=
  modify fun s => s.trace message

def fail {α : Type} (e : RuntimeError) : Eval α := do
  let r ← alloc (.error e)
  throw (.failed r)

/-- A reference to an object. Truth values and null are never created anew. -/
def yield : Object → Eval Ref
  | .boolean b => return .ofBool b
  | .null => return .null
  | .builtin b => return .ofBuiltin b
  | o => alloc o

def ofResult : Except RuntimeError Object → Eval Ref
  | .ok o => yield o
  | .error e => fail e

/-- Turns a return into a value: this is where a call ends. -/
def catchReturn (x : Eval Ref) : Eval Ref := fun s =>
  match x s with
  | .error (.returning r) s => .ok r s
  | other => other

def traceFailure (message : Bytes → Bytes) (x : Eval Ref) : Eval Ref := fun s =>
  match x s with
  | .error (.failed r) s =>
    .error (.failed r) (s.trace fun _ => message (s.store.get r).inspect)
  | other => other

end Eval

end CornScript
