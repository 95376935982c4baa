import CornScript.Tree.Parser

/-! # The layered grammar

The grammar of the language, rule by rule, as a reader by recursive descent. Every layer of binary
operators has a rule of its own, which reads operands of the next stronger layer and groups them to
the left. Repetitions and optional parts are read as long as they can be.

Rules call one another to a depth that is given at the start. A rule that would go deeper fails, so
a list of tokens belongs to the grammar if it can be read with some depth.
-/

namespace CornScript

abbrev Descent := StateT Cursor Option

namespace Grammar

abbrev Layer := List (Token.Kind × BinaryOp)

def logicOr : Layer := [(.orWord, .or)]

def logicAnd : Layer := [(.andWord, .and)]

def equality : Layer := [(.equal, .equal), (.notEqual, .notEqual)]

def comparison : Layer :=
  [(.less, .less), (.lessEq, .lessEq), (.greater, .greater), (.greaterEq, .greaterEq)]

def term : Layer := [(.plus, .add), (.minus, .sub)]

def factor : Layer := [(.star, .mul), (.slash, .div)]

def layers : List Layer := [logicOr, logicAnd, equality, comparison, term, factor]

def peek : Descent Token :=
  return (← get).head

def next : Descent Token :=
  modifyGet fun c => (c.head, c.advance)

def token (kind : Token.Kind) : Descent Token := do
  let t ← peek
  if t.kind = kind then next else failure

def name : Descent Ident := do
  let t ← token .ident
  return ⟨t, t.literal⟩

def number : Descent Expr := do
  let t ← token .number
  match Number.ofLiteral? t.literal with
  | some v => return .number t v
  | none => failure

def semicolon : Descent Unit := do
  let t ← peek
  if t.kind = .semicolon then
    let _ ← next

section Rules

/-! Rules, given readers for what stands on their right hand sides. -/

variable {α : Type} (expression : Descent Expr) (block : Descent Block)

/-- `( item ( ',' item )* )? close`; `more` reads `( ',' item )*`. -/
def listed (close : Token.Kind) (item : Descent α) (more : Descent (List α)) :
    Descent (List α) := do
  let t ← peek
  if t.kind = close then
    let _ ← next
    return []
  else
    let a ← item
    let as ← more
    let _ ← token close
    return a :: as

def afterComma (item : Descent α) (more : Descent (List α)) : Descent (List α) := do
  let t ← peek
  if t.kind = .comma then
    let _ ← next
    let a ← item
    return a :: (← more)
  else return []

/-- `pair ( ',' pair )*` with `pair → expression ':' expression`; `more` reads what follows the
first comma. -/
def paired (more : Descent (List (Expr × Expr))) : Descent (List (Expr × Expr)) := do
  let k ← expression
  let _ ← token .colon
  let v ← expression
  let t ← peek
  if t.kind = .comma then
    let _ ← next
    return (k, v) :: (← more)
  else return [(k, v)]

def grouped : Descent Expr := do
  let _ ← next
  let e ← expression
  let _ ← token .rightParen
  return e

/-- `hash → '{' pairs? '}'` -/
def hash (pairs : Descent (List (Expr × Expr))) : Descent Expr := do
  let t ← next
  let close ← peek
  if close.kind = .rightBrace then
    let _ ← next
    return .hash t [] []
  else
    let ps ← pairs
    let _ ← token .rightBrace
    return .hash t (ps.map Prod.fst) (ps.map Prod.snd)

/-- `conditional → 'if' '(' expression ')' block ( 'else' block )?` -/
def conditional : Descent Expr := do
  let t ← next
  let _ ← token .leftParen
  let condition ← expression
  let _ ← token .rightParen
  let consequence ← block
  let word ← peek
  if word.kind = .elseWord then
    let _ ← next
    return .cond t condition consequence (some (← block))
  else return .cond t condition consequence none

/-- `function → 'fn' '(' parameters block` -/
def function (parameters : Descent (List Ident)) : Descent Expr := do
  let t ← next
  let _ ← token .leftParen
  let ps ← parameters
  return .function t ps (← block)

def atom (elements : Token.Kind → Descent (List Expr)) (pairs : Descent (List (Expr × Expr)))
    (parameters : Descent (List Ident)) : Descent Expr := do
  let t ← peek
  match t.kind with
  | .number => number
  | .string => let _ ← next; return .string t t.literal
  | .trueWord => let _ ← next; return .boolean t true
  | .falseWord => let _ ← next; return .boolean t false
  | .nullWord => let _ ← next; return .null t
  | .ident => let _ ← next; return .ident ⟨t, t.literal⟩
  | .leftParen => grouped expression
  | .leftBracket => let _ ← next; return .array t (← elements .rightBracket)
  | .leftBrace => hash pairs
  | .ifWord => conditional expression block
  | .fnWord => function block parameters
  | _ => failure

/-- `suffix → '(' elements ')' | '[' expression ']' | '.' name '(' elements ')'`, after a callee. -/
def suffix (elements : Token.Kind → Descent (List Expr)) (callee : Expr) : Descent Expr := do
  let t ← next
  match t.kind with
  | .leftParen => return .call t callee (← elements .rightParen)
  | .leftBracket =>
    let index ← expression
    let _ ← token .rightBracket
    return .call t callee [index]
  | .dot =>
    let method ← name
    let _ ← token .leftParen
    return .call t (.ident method) (callee :: (← elements .rightParen))
  | _ => failure

/-- `statement* '}'`; `more` reads what follows the first statement. -/
def untilBrace (statement : Descent Stmt) (more : Descent (List Stmt)) :
    Descent (List Stmt) := do
  let t ← peek
  match t.kind with
  | .rightBrace => let _ ← next; return []
  | .endOfInput => failure
  | _ =>
    let s ← statement
    return s :: (← more)

/-- `statement → ( 'let' name '=' expression | 'return' expression | expression ) ';'?` -/
def sentence : Descent Stmt := do
  let t ← peek
  match t.kind with
  | .letWord =>
    let _ ← next
    let target ← name
    let _ ← token .assign
    let v ← expression
    semicolon
    return .bind t target v
  | .returnWord =>
    let _ ← next
    let v ← expression
    semicolon
    return .give t v
  | _ =>
    let v ← expression
    semicolon
    return .expr t v

end Rules

def moreNames : Nat → Descent (List Ident)
  | 0 => failure
  | n + 1 => afterComma name (moreNames n)

/-- `( name ( ',' name )* )? ')'` -/
def parameters (n : Nat) : Descent (List Ident) :=
  listed .rightParen name (moreNames n)

mutual

def expression : Nat → Descent Expr
  | 0 => failure
  | n + 1 => layered n layers

/-- `layer → stronger ( operator stronger )*`; after the last layer come unary expressions. -/
def layered : Nat → List Layer → Descent Expr
  | 0, _ => failure
  | n + 1, [] => unary n
  | n + 1, layer :: stronger => do
    let first ← layered n stronger
    operations n layer stronger first

def operations : Nat → Layer → List Layer → Expr → Descent Expr
  | 0, _, _, _ => failure
  | n + 1, layer, stronger, left => do
    let t ← peek
    match layer.lookup t.kind with
    | none => return left
    | some op =>
      let _ ← next
      let right ← layered n stronger
      operations n layer stronger (.binary t left op right)

/-- `unary → ( '-' | '!' ) unary | call` -/
def unary : Nat → Descent Expr
  | 0 => failure
  | n + 1 => do
    let t ← peek
    match t.kind with
    | .minus =>
      let _ ← next
      return .unary t .neg (← unary n)
    | .bang =>
      let _ ← next
      return .unary t .not (← unary n)
    | _ => call n

/-- `call → primary suffix*` -/
def call : Nat → Descent Expr
  | 0 => failure
  | n + 1 => do
    let callee ← primary n
    suffixes n callee

def suffixes : Nat → Expr → Descent Expr
  | 0, _ => failure
  | n + 1, callee => do
    let t ← peek
    match t.kind with
    | .leftParen | .leftBracket | .dot =>
      let e ← suffix (expression n) (elements n) callee
      suffixes n e
    | _ => return callee

def primary : Nat → Descent Expr
  | 0 => failure
  | n + 1 => atom (expression n) (block n) (elements n) (pairs n) (parameters n)

def elements : Nat → Token.Kind → Descent (List Expr)
  | 0, _ => failure
  | n + 1, close => listed close (expression n) (moreElements n)

def moreElements : Nat → Descent (List Expr)
  | 0 => failure
  | n + 1 => afterComma (expression n) (moreElements n)

def pairs : Nat → Descent (List (Expr × Expr))
  | 0 => failure
  | n + 1 => paired (expression n) (pairs n)

def block : Nat → Descent Block
  | 0 => failure
  | n + 1 => do
    let t ← token .leftBrace
    return .mk t (← body n)

def body : Nat → Descent (List Stmt)
  | 0 => failure
  | n + 1 => untilBrace (statement n) (body n)

def statement : Nat → Descent Stmt
  | 0 => failure
  | n + 1 => sentence (expression n)

end

/-- `program → statement*`, up to the end of input. -/
def program : Nat → Descent (List Stmt)
  | 0 => failure
  | n + 1 => do
    let t ← peek
    if t.kind = .endOfInput then return []
    else
      let s ← statement n
      return s :: (← program n)

end Grammar

/-- With some depth, the rules read a list of tokens as this program. -/
def Program.Derives (tokens : List Token) (p : Program) : Prop :=
  ∃ depth c, (Grammar.program depth).run (Cursor.ofTokens tokens) = some (p.body, c)

end CornScript
