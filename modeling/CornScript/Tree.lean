import CornScript.Token

/-! # Syntax trees

Programs are lists of statements, and statements hold expressions. A tree built by hand may leave
an operand out (`Expr.missing`), give a hash literal fewer values than keys, or use an operator
that does not exist; a tree that comes from a program text never does.
-/

namespace CornScript

inductive UnaryOp where
  | neg | not
  | other (symbol : Bytes)
  deriving DecidableEq, Repr

inductive BinaryOp where
  | add | sub | mul | div
  | less | lessEq | greater | greaterEq | equal | notEqual
  | and | or
  | other (symbol : Bytes)
  deriving DecidableEq, Repr

namespace UnaryOp

def symbol : UnaryOp → Bytes
  | neg => text "-"
  | not => text "!"
  | other s => s

def ofSymbol (s : Bytes) : UnaryOp :=
  ([neg, not].find? fun op => op.symbol = s).getD (other s)

end UnaryOp

namespace BinaryOp

def symbol : BinaryOp → Bytes
  | add => text "+"
  | sub => text "-"
  | mul => text "*"
  | div => text "/"
  | less => text "<"
  | lessEq => text "<="
  | greater => text ">"
  | greaterEq => text ">="
  | equal => text "=="
  | notEqual => text "!="
  | and => text "and"
  | or => text "or"
  | other s => s

def all : List BinaryOp :=
  [add, sub, mul, div, less, lessEq, greater, greaterEq, equal, notEqual, and, or]

def ofSymbol (s : Bytes) : BinaryOp :=
  (all.find? fun op => op.symbol = s).getD (other s)

end BinaryOp

structure Ident where
  token : Token
  name : Bytes
  deriving DecidableEq, Repr

mutual

/--
Expressions. `call` stands for `f(a, b)`, `x[i]` and `x.f(a)`: its token is the bracket or the
point, and the receiver `x` of `x.f(a)` is the first argument.
-/
inductive Expr where
  | missing
  | ident (id : Ident)
  | number (token : Token) (value : Float)
  | string (token : Token) (value : Bytes)
  | boolean (token : Token) (value : Bool)
  | null (token : Token)
  | array (token : Token) (elements : List Expr)
  | hash (token : Token) (keys values : List Expr)
  | unary (token : Token) (op : UnaryOp) (operand : Expr)
  | binary (token : Token) (left : Expr) (op : BinaryOp) (right : Expr)
  | cond (token : Token) (condition : Expr) (consequence : Block) (alternative : Option Block)
  | function (token : Token) (params : List Ident) (body : Block)
  | call (token : Token) (callee : Expr) (args : List Expr)

/-- Statements between braces. A block opens no scope of its own. -/
inductive Block where
  | mk (token : Token) (body : List Stmt)

inductive Stmt where
  | bind (token : Token) (target : Ident) (value : Expr)
  | give (token : Token) (value : Expr)
  | expr (token : Token) (value : Expr)
  | block (block : Block)

end

structure Program where
  body : List Stmt

inductive Node where
  | program (program : Program)
  | stmt (stmt : Stmt)
  | expr (expr : Expr)

def Block.token : Block → Token
  | mk t _ => t

def Block.body : Block → List Stmt
  | mk _ b => b

def Stmt.token : Stmt → Token
  | bind t _ _ | give t _ | expr t _ => t
  | block b => b.token

def Expr.token? : Expr → Option Token
  | missing => none
  | ident id => some id.token
  | number t _ | string t _ | boolean t _ | null t | array t _ | hash t _ _ | unary t _ _
  | binary t _ _ _ | cond t _ _ _ | function t _ _ | call t _ _ => some t

/-- The literal of the token that a tree is known by: for a program, that of its first statement. -/
def Node.literal : Node → Bytes
  | program p => (p.body.head?.map (·.token.literal)).getD []
  | stmt s => s.token.literal
  | expr e => (e.token?.map (·.literal)).getD []

end CornScript
