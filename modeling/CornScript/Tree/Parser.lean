import CornScript.Number.Decimal
import CornScript.SyntaxError
import CornScript.Token.Lexer
import CornScript.Tree

/-! # Reading trees from tokens

Operators bind by level. An expression at some level is an operand followed by as many operators
of higher levels as there are, and the right operand of an operator stands at the operator's own
level, so every level groups to the left. Reading stops at the first error.

The recursion is bounded by a number that the length of the input makes large enough.
-/

namespace CornScript

/-- The tokens that are left. The last one, the end of input, can be read any number of times. -/
structure Cursor where
  head : Token
  rest : List Token
  deriving DecidableEq, Repr

namespace Cursor

def ofTokens : List Token → Cursor
  | [] => ⟨Token.endAt Pos.start, []⟩
  | t :: ts => ⟨t, ts⟩

def next (c : Cursor) : Token :=
  c.rest.head?.getD c.head

def advance (c : Cursor) : Cursor :=
  match c.rest with
  | [] => c
  | t :: ts => ⟨t, ts⟩

end Cursor

inductive Level where
  | lowest | logicOr | logicAnd | equality | comparison | sum | product | unary
  deriving DecidableEq, Repr

def Level.rank : Level → Nat
  | lowest => 0
  | logicOr => 1
  | logicAnd => 2
  | equality => 3
  | comparison => 4
  | sum => 5
  | product => 6
  | unary => 7

namespace Token.Kind

def binary? : Kind → Option (BinaryOp × Level)
  | orWord => some (.or, .logicOr)
  | andWord => some (.and, .logicAnd)
  | equal => some (.equal, .equality)
  | notEqual => some (.notEqual, .equality)
  | less => some (.less, .comparison)
  | lessEq => some (.lessEq, .comparison)
  | greater => some (.greater, .comparison)
  | greaterEq => some (.greaterEq, .comparison)
  | plus => some (.add, .sum)
  | minus => some (.sub, .sum)
  | star => some (.mul, .product)
  | slash => some (.div, .product)
  | _ => none

/-- Operators that no expression has. -/
def isStray : Kind → Bool
  | caret | assign => true
  | _ => false

end Token.Kind

abbrev Parser := EStateM SyntaxError Cursor

namespace Parser

def head : Parser Token :=
  return (← get).head

def take : Parser Token :=
  modifyGet fun c => (c.head, c.advance)

/-- An error at the next token. If that token is illegal, this is the cause. -/
def refuse {α : Type} (cause : SyntaxError.Cause) : Parser α := do
  let t ← head
  match t.kind with
  | .illegal fault => throw ⟨.lexical fault, t.literal, t.pos⟩
  | _ => throw ⟨cause, t.literal, t.pos⟩

/--
An error at a token that is looked at together with its successor: an illegal successor is the
cause, and its place is reported with the literal of the token.
-/
def refuseOperand {α : Type} (cause : SyntaxError.Cause) : Parser α := do
  let c ← get
  match c.head.kind, c.next.kind with
  | .illegal _, _ => refuse cause
  | _, .illegal fault => throw ⟨.lexical fault, c.head.literal, c.next.pos⟩
  | _, _ => refuse cause

def expect (kind : Token.Kind) : Parser Token := do
  let t ← head
  if t.kind = kind then take else refuse (.expected kind t.kind)

def expectIdent : Parser Ident := do
  let t ← expect .ident
  return ⟨t, t.literal⟩

def moreParams : Nat → Parser (List Ident)
  | 0 => refuse .tooDeep
  | n + 1 => do
    if (← head).kind = .comma then
      let _ ← take
      let p ← expectIdent
      return p :: (← moreParams n)
    else return []

def params (n : Nat) : Parser (List Ident) := do
  if (← head).kind = .rightParen then
    let _ ← take
    return []
  else
    let p ← expectIdent
    let ps ← moreParams n
    let _ ← expect .rightParen
    return p :: ps

def numberLiteral : Parser Expr := do
  let t ← head
  match Number.ofLiteral? t.literal with
  | some v =>
    let _ ← take
    return .number t v
  | none => refuseOperand (.numberRange t.literal)

def optionalSemicolon : Parser Unit := do
  if (← head).kind = .semicolon then
    let _ ← take

mutual

/-- An expression whose operators bind more strongly than `level`. -/
def expr : Nat → Level → Parser Expr
  | 0, _ => refuse .tooDeep
  | n + 1, level => do
    let first ← operand n
    let e ← operators n level first
    let t ← head
    if t.kind.isStray then refuse (.strayOperator t.literal) else return e

def operand : Nat → Parser Expr
  | 0 => refuse .tooDeep
  | n + 1 => do
    let t ← head
    match t.kind with
    | .ident => let _ ← take; return .ident ⟨t, t.literal⟩
    | .number => numberLiteral
    | .string => let _ ← take; return .string t t.literal
    | .trueWord => let _ ← take; return .boolean t true
    | .falseWord => let _ ← take; return .boolean t false
    | .nullWord => let _ ← take; return .null t
    | .bang => let _ ← take; return .unary t .not (← expr n .unary)
    | .minus => let _ ← take; return .unary t .neg (← expr n .unary)
    | .leftParen =>
      let _ ← take
      let e ← expr n .lowest
      let _ ← expect .rightParen
      return e
    | .leftBracket => let _ ← take; return .array t (← exprList n .rightBracket)
    | .leftBrace =>
      let _ ← take
      if (← head).kind = .rightBrace then
        let _ ← take
        return .hash t [] []
      else
        let pairs ← hashPairs n
        let _ ← expect .rightBrace
        return .hash t (pairs.map Prod.fst) (pairs.map Prod.snd)
    | .ifWord =>
      let _ ← take
      let _ ← expect .leftParen
      let c ← expr n .lowest
      let _ ← expect .rightParen
      let consequence ← block n
      if (← head).kind = .elseWord then
        let _ ← take
        return .cond t c consequence (some (← block n))
      else return .cond t c consequence none
    | .fnWord =>
      let _ ← take
      let _ ← expect .leftParen
      let ps ← params n
      return .function t ps (← block n)
    | .endOfInput => refuseOperand .endOfInput
    | kind => refuseOperand (.noOperand kind)

/-- The operators, calls and subscripts that follow an operand. -/
def operators : Nat → Level → Expr → Parser Expr
  | 0, _, _ => refuse .tooDeep
  | n + 1, level, left => do
    let t ← head
    match t.kind with
    | .leftParen =>
      let _ ← take
      let args ← exprList n .rightParen
      operators n level (.call t left args)
    | .leftBracket =>
      let _ ← take
      if (← head).kind = .rightBracket then refuse .expectedIndex
      else
        let index ← expr n .lowest
        let _ ← expect .rightBracket
        operators n level (.call t left [index])
    | .dot =>
      let _ ← take
      let name ← expectIdent
      let _ ← expect .leftParen
      let args ← exprList n .rightParen
      operators n level (.call t (.ident name) (left :: args))
    | kind => match kind.binary? with
      | none => return left
      | some (op, own) =>
        if level.rank < own.rank then
          let _ ← take
          let right ← expr n own
          operators n level (.binary t left op right)
        else return left

def exprList : Nat → Token.Kind → Parser (List Expr)
  | 0, _ => refuse .tooDeep
  | n + 1, close => do
    if (← head).kind = close then
      let _ ← take
      return []
    else
      let e ← expr n .lowest
      let es ← moreExprs n
      let _ ← expect close
      return e :: es

def moreExprs : Nat → Parser (List Expr)
  | 0 => refuse .tooDeep
  | n + 1 => do
    if (← head).kind = .comma then
      let _ ← take
      let e ← expr n .lowest
      return e :: (← moreExprs n)
    else return []

def hashPairs : Nat → Parser (List (Expr × Expr))
  | 0 => refuse .tooDeep
  | n + 1 => do
    let k ← expr n .lowest
    let _ ← expect .colon
    let v ← expr n .lowest
    if (← head).kind = .comma then
      let _ ← take
      return (k, v) :: (← hashPairs n)
    else return [(k, v)]

def block : Nat → Parser Block
  | 0 => refuse .tooDeep
  | n + 1 => do
    let t ← expect .leftBrace
    return .mk t (← blockBody n)

def blockBody : Nat → Parser (List Stmt)
  | 0 => refuse .tooDeep
  | n + 1 => do
    match (← head).kind with
    | .rightBrace => let _ ← take; return []
    | .endOfInput => refuse .unterminatedBlock
    | _ =>
      let s ← stmt n
      return s :: (← blockBody n)

def stmt : Nat → Parser Stmt
  | 0 => refuse .tooDeep
  | n + 1 => do
    let t ← head
    match t.kind with
    | .letWord =>
      let _ ← take
      let target ← expectIdent
      let _ ← expect .assign
      let v ← expr n .lowest
      optionalSemicolon
      return .bind t target v
    | .returnWord =>
      let _ ← take
      let v ← expr n .lowest
      optionalSemicolon
      return .give t v
    | _ =>
      let v ← expr n .lowest
      optionalSemicolon
      return .expr t v

end

def stmts : Nat → Parser (List Stmt)
  | 0 => refuse .tooDeep
  | n + 1 => do
    if (← head).kind = .endOfInput then return []
    else
      let s ← stmt n
      return s :: (← stmts n)

/-- Enough for any input of so many tokens: no token costs more than four steps. -/
def bound (tokens : Nat) : Nat :=
  4 * tokens + 8

end Parser

def Program.ofTokens (tokens : List Token) : Except SyntaxError Program :=
  match Parser.stmts (Parser.bound tokens.length) (Cursor.ofTokens tokens) with
  | .ok body _ => .ok ⟨body⟩
  | .error e _ => .error e

def Program.parse (source : Bytes) : Except SyntaxError Program :=
  Program.ofTokens (Token.scan source)

end CornScript
