import CornScript.Bytes

/-! # Tokens of a YAML text

Collections in block style are told by indentation alone: their tokens `openSequence`,
`openMapping` and `close` stand for no text. The same holds of `key` before a key that only its
colon reveals.
-/

namespace CornScript.Yaml

inductive Token.Kind where
  | streamStart
  | streamEnd
  /-- `%YAML` with a version. -/
  | version (major minor : Nat)
  /-- `%TAG` with a handle and what it stands for. -/
  | handle (name meaning : Bytes)
  | documentStart
  | documentEnd
  | openSequence
  | openMapping
  | close
  | openFlowSequence
  | closeFlowSequence
  | openFlowMapping
  | closeFlowMapping
  | item
  | comma
  | key
  | value
  | reference (name : Bytes)
  | anchor (name : Bytes)
  | tag (handle suffix : Bytes)
  | scalar (quoted : Bool) (value : Bytes)
  deriving DecidableEq, Repr

structure Token where
  kind : Token.Kind
  line : Nat
  deriving DecidableEq, Repr

end CornScript.Yaml
