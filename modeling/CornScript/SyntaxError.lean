import CornScript.Token

/-! # Syntax errors

A program text that is not accepted has one error: its cause, the literal of the token that the
error was noticed at, and the place that is reported.
-/

namespace CornScript

namespace SyntaxError

inductive Cause where
  /-- The text cannot be split into tokens. -/
  | lexical (fault : Token.Fault)
  | expected (want got : Token.Kind)
  /-- No expression begins with such a token. -/
  | noOperand (kind : Token.Kind)
  | endOfInput
  /-- An operator follows an expression that it cannot continue. -/
  | strayOperator (literal : Bytes)
  | expectedIndex
  | unterminatedBlock
  /-- A number literal is beyond the range of numbers. -/
  | numberRange (literal : Bytes)
  /-- The bound on nesting is used up. -/
  | tooDeep
  deriving DecidableEq, Repr

def Cause.message : Cause → Bytes
  | lexical fault => fault.message
  | expected want got =>
    text "expected next token to be " ++ want.name ++ text ", got " ++ got.name ++ text " instead"
  | noOperand kind => text "no prefix parse function for " ++ kind.name ++ text " found"
  | endOfInput => text "unexpected end of input"
  | strayOperator literal => text "unexpected operator " ++ literal
  | expectedIndex => text "expected index expression"
  | unterminatedBlock => text "unterminated block, expected \x7d"
  | numberRange literal => text "could not parse \"" ++ literal ++ text "\" as number"
  | tooDeep => text "program is nested too deeply"

end SyntaxError

structure SyntaxError where
  cause : SyntaxError.Cause
  context : Bytes
  pos : Pos
  deriving DecidableEq, Repr

def Pos.annotate (p : Pos) (message : Bytes) : Bytes :=
  message ++ text " (at " ++ Bytes.ofNat p.line ++ text ":" ++ Bytes.ofNat p.column ++ text ")"

namespace SyntaxError

def message (e : SyntaxError) : Bytes :=
  e.cause.message

def describe (e : SyntaxError) : Bytes :=
  e.pos.annotate e.message

end SyntaxError

end CornScript
