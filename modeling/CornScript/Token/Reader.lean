import CornScript.Token.Lexer

/-! # Reading a text token by token

A reader hands out one token for each call. It keeps what is left of the text, the place reached,
and the first fault that was met: there is no way past a fault. Once the text has ended or a fault
has been met, every further call hands out the end of input at the place reached.
-/

namespace CornScript.Token

def Kind.fault? : Kind → Option Fault
  | illegal fault => some fault
  | _ => none

structure Reader where
  rest : Bytes
  pos : Pos
  fault : Option (Fault × Pos)
  deriving DecidableEq, Repr

namespace Reader

def start (source : Bytes) : Reader :=
  ⟨source.takeWhile (· ≠ 0), Pos.start, none⟩

def next (r : Reader) : Token × Reader :=
  match r.fault with
  | some _ => (endAt r.pos, r)
  | none => match skip false r.rest r.pos with
    | ([], q) => (endAt q, ⟨[], q, none⟩)
    | (b :: rest, q) =>
      let lexeme := Lexeme.front b rest
      (⟨lexeme.kind, lexeme.literal, q⟩,
        { rest := (b :: rest).drop lexeme.width
          pos := q.after ((b :: rest).take lexeme.width)
          fault := lexeme.kind.fault?.map (·, q) })

def after : Nat → Reader → Reader
  | 0, r => r
  | k + 1, r => after k r.next.2

/-- The token of one call. Calls are counted from zero. -/
def token (r : Reader) (k : Nat) : Token :=
  (after k r).next.1

end Reader

end CornScript.Token
