import CornScript.Eval.State

/-! # Builtin functions -/

namespace CornScript.Builtin

def sizeOf? : Object → Except RuntimeError Object
  | .string s => .ok (.number (Float.ofNat s.length))
  | .array es => .ok (.number (Float.ofNat es.length))
  | .hash d => .ok (.number (Float.ofNat d.size))
  | o => .error (.noSize o.kind)

/-- A new array with further elements: a null if none are given. -/
def pushed (target : Object) (more : List Ref) : Except RuntimeError Object :=
  match target with
  | .array es => .ok (.array (es ++ if more.isEmpty then [Ref.null] else more))
  | o => .error (.pushTarget o.kind)

/-- What `print` writes for an argument: strings without their quotes. -/
def printed : Object → Bytes
  | .string s => s
  | o => o.inspect

def printLine (args : List Ref) : Eval Ref := do
  let s ← get
  let parts := args.map fun r => printed (s.store.get r)
  match s.output.write? (Bytes.join (text " ") parts ++ text "\n") with
  | some output =>
    set { s with output := output }
    return .null
  | none => Eval.fail .outputLimit

def run (b : Builtin) (args : List Ref) : Eval Ref := do
  match b, args with
  | size, [r] => Eval.ofResult (sizeOf? (← Eval.read r))
  | type, [r] => Eval.ofResult (.ok (.string (← Eval.read r).kind.name))
  | push, r :: more => Eval.ofResult (pushed (← Eval.read r) more)
  | print, args => printLine args
  | _, args => Eval.fail (.builtinArgumentCount args.length 1)

end CornScript.Builtin
