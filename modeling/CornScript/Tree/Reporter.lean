import CornScript.Token.Reader
import CornScript.Tree.Parser

/-! # Reading trees and reporting errors

Here a part of the parser that finds no tree just has no result, and what is wrong with the text is
reported on the side: to a list in which only the first error is entered. Nothing but the code makes
the one come with the other.

The tokens come from a reader, one at a time. A part begins when its first token is the current one,
and ends when its last token is; the token behind the current one has been read as well.
-/

namespace CornScript

namespace Token.Kind

def precedence : Kind → Nat
  | leftParen | leftBracket | dot => 8
  | kind => (kind.binary?.map fun op => op.2.rank).getD Level.lowest.rank

end Token.Kind

structure Desk where
  cur : Token
  peek : Token
  reader : Token.Reader
  errors : List SyntaxError
  deriving DecidableEq, Repr

namespace Desk

def reading (reader : Token.Reader) : Desk where
  cur := reader.next.1
  peek := reader.next.2.next.1
  reader := reader.next.2.next.2
  errors := []

def start (source : Bytes) : Desk :=
  reading (.start source)

def advance (d : Desk) : Desk where
  cur := d.peek
  peek := d.reader.next.1
  reader := d.reader.next.2
  errors := d.errors

def failed (d : Desk) : Bool :=
  !d.errors.isEmpty

/-- Enters an error at a token, unless there is one already. If the reader has met a fault, this is
the cause. -/
def report (d : Desk) (cause : SyntaxError.Cause) (t : Token) : Desk :=
  if d.failed then d
  else match d.reader.fault with
    | some (fault, q) => { d with errors := d.errors ++ [⟨.lexical fault, t.literal, q⟩] }
    | none => { d with errors := d.errors ++ [⟨cause, t.literal, t.pos⟩] }

/-- A fault of the reader is an error even if no part of the parser has come upon it. -/
def close (d : Desk) : Desk :=
  match d.failed, d.reader.fault with
  | false, some (fault, _) => d.report (.lexical fault) d.cur
  | _, _ => d

end Desk

abbrev Reporter := OptionT (StateM Desk)

namespace Reporter

def cur : Reporter Token :=
  return (← get).cur

def peek : Reporter Token :=
  return (← get).peek

def next : Reporter Unit :=
  modify Desk.advance

def refuse {α : Type} (cause : SyntaxError.Cause) (t : Token) : Reporter α := do
  modify fun d => d.report cause t
  failure

def expectPeek (kind : Token.Kind) : Reporter Unit := do
  let t ← peek
  if t.kind = kind then next else refuse (.expected kind t.kind) t

def ident : Reporter Ident := do
  expectPeek .ident
  let t ← cur
  return ⟨t, t.literal⟩

def moreParams : Nat → Reporter (List Ident)
  | 0 => do refuse .tooDeep (← peek)
  | n + 1 => do
    if (← peek).kind = .comma then
      next
      let p ← ident
      return p :: (← moreParams n)
    else return []

def params (n : Nat) : Reporter (List Ident) := do
  if (← peek).kind = .rightParen then
    next
    return []
  else
    let p ← ident
    let ps ← moreParams n
    expectPeek .rightParen
    return p :: ps

def numberLiteral : Reporter Expr := do
  let t ← cur
  match Number.ofLiteral? t.literal with
  | some v => return .number t v
  | none => refuse (.numberRange t.literal) t

def optionalSemicolon : Reporter Unit := do
  if (← peek).kind = .semicolon then next

mutual

def expr : Nat → Level → Reporter Expr
  | 0, _ => do refuse .tooDeep (← cur)
  | n + 1, level => do
    let first ← operand n
    let e ← operators n level first
    let t ← peek
    if t.kind.isStray then refuse (.strayOperator t.literal) t else return e

def operand : Nat → Reporter Expr
  | 0 => do refuse .tooDeep (← cur)
  | n + 1 => do
    let t ← cur
    match t.kind with
    | .ident => return .ident ⟨t, t.literal⟩
    | .number => numberLiteral
    | .string => return .string t t.literal
    | .trueWord => return .boolean t true
    | .falseWord => return .boolean t false
    | .nullWord => return .null t
    | .bang => next; return .unary t .not (← expr n .unary)
    | .minus => next; return .unary t .neg (← expr n .unary)
    | .leftParen =>
      next
      let e ← expr n .lowest
      expectPeek .rightParen
      return e
    | .leftBracket => return .array t (← exprList n .rightBracket)
    | .leftBrace =>
      if (← peek).kind = .rightBrace then
        next
        return .hash t [] []
      else
        let pairs ← hashPairs n
        expectPeek .rightBrace
        return .hash t (pairs.map Prod.fst) (pairs.map Prod.snd)
    | .ifWord =>
      expectPeek .leftParen
      next
      let c ← expr n .lowest
      expectPeek .rightParen
      expectPeek .leftBrace
      let consequence ← block n
      if (← peek).kind = .elseWord then
        next
        expectPeek .leftBrace
        return .cond t c consequence (some (← block n))
      else return .cond t c consequence none
    | .fnWord =>
      expectPeek .leftParen
      let ps ← params n
      expectPeek .leftBrace
      return .function t ps (← block n)
    | .endOfInput => refuse .endOfInput t
    | kind => refuse (.noOperand kind) t

def operators : Nat → Level → Expr → Reporter Expr
  | 0, _, _ => do refuse .tooDeep (← peek)
  | n + 1, level, left => do
    let t ← peek
    if t.kind = .semicolon ∨ t.kind.precedence ≤ level.rank then return left
    else match t.kind with
    | .leftParen =>
      next
      let args ← exprList n .rightParen
      operators n level (.call t left args)
    | .leftBracket =>
      next
      let close ← peek
      if close.kind = .rightBracket then refuse .expectedIndex close
      else
        next
        let index ← expr n .lowest
        expectPeek .rightBracket
        operators n level (.call t left [index])
    | .dot =>
      next
      let name ← ident
      expectPeek .leftParen
      let args ← exprList n .rightParen
      operators n level (.call t (.ident name) (left :: args))
    | kind => match kind.binary? with
      | none => return left
      | some (op, own) =>
        next
        next
        let right ← expr n own
        operators n level (.binary t left op right)

def exprList : Nat → Token.Kind → Reporter (List Expr)
  | 0, _ => do refuse .tooDeep (← peek)
  | n + 1, close => do
    if (← peek).kind = close then
      next
      return []
    else
      next
      let e ← expr n .lowest
      let es ← moreExprs n
      expectPeek close
      return e :: es

def moreExprs : Nat → Reporter (List Expr)
  | 0 => do refuse .tooDeep (← peek)
  | n + 1 => do
    if (← peek).kind = .comma then
      next
      next
      let e ← expr n .lowest
      return e :: (← moreExprs n)
    else return []

def hashPairs : Nat → Reporter (List (Expr × Expr))
  | 0 => do refuse .tooDeep (← peek)
  | n + 1 => do
    next
    let k ← expr n .lowest
    expectPeek .colon
    next
    let v ← expr n .lowest
    if (← peek).kind = .comma then
      next
      return (k, v) :: (← hashPairs n)
    else return [(k, v)]

def block : Nat → Reporter Block
  | 0 => do refuse .tooDeep (← cur)
  | n + 1 => do
    let t ← cur
    next
    return .mk t (← blockBody n)

/-- Statements up to the closing brace. That a statement was found is not enough to go on. -/
def blockBody : Nat → Reporter (List Stmt)
  | 0 => do refuse .tooDeep (← cur)
  | n + 1 => do
    let t ← cur
    match t.kind with
    | .rightBrace => return []
    | .endOfInput => refuse .unterminatedBlock t
    | _ =>
      let s ← stmt n
      if (← get).failed then failure
      else
        next
        return s :: (← blockBody n)

def stmt : Nat → Reporter Stmt
  | 0 => do refuse .tooDeep (← cur)
  | n + 1 => do
    let t ← cur
    match t.kind with
    | .letWord =>
      let target ← ident
      expectPeek .assign
      next
      let v ← expr n .lowest
      optionalSemicolon
      return .bind t target v
    | .returnWord =>
      next
      let v ← expr n .lowest
      optionalSemicolon
      return .give t v
    | _ =>
      let v ← expr n .lowest
      optionalSemicolon
      return .expr t v

end

/-- Statements up to the end of input, or up to the first one that is not found or has an error. -/
def stmts : Nat → StateM Desk (List Stmt)
  | 0 => do
    modify fun d => d.report .tooDeep d.cur
    return []
  | n + 1 => do
    if (← get).cur.kind = .endOfInput then return []
    else match ← (stmt n).run with
      | none => return []
      | some s =>
        if (← get).failed then return []
        else
          modify Desk.advance
          return s :: (← stmts n)

def program (n : Nat) : StateM Desk Program := do
  let body ← stmts n
  modify Desk.close
  return ⟨body⟩

end Reporter

end CornScript
