import CornScript.Proofs.Tree.Moved
import CornScript.Token.Lexer

/-! # Trees apart from the tokens of expression statements

A statement that is an expression is known by the first token of its text. That token says nothing
that the expression does not say, and it changes when parentheses are added.
-/

namespace CornScript

mutual

def Expr.unlabelled : Expr → Expr
  | .missing => .missing
  | .ident id => .ident id
  | .number t v => .number t v
  | .string t v => .string t v
  | .boolean t b => .boolean t b
  | .null t => .null t
  | .array t es => .array t (Expr.unlabelledAll es)
  | .hash t ks vs => .hash t (Expr.unlabelledAll ks) (Expr.unlabelledAll vs)
  | .unary t op e => .unary t op e.unlabelled
  | .binary t l op r => .binary t l.unlabelled op r.unlabelled
  | .cond t c b none => .cond t c.unlabelled b.unlabelled none
  | .cond t c b (some a) => .cond t c.unlabelled b.unlabelled (some a.unlabelled)
  | .function t ps b => .function t ps b.unlabelled
  | .call t f args => .call t f.unlabelled (Expr.unlabelledAll args)

def Expr.unlabelledAll : List Expr → List Expr
  | [] => []
  | e :: es => e.unlabelled :: Expr.unlabelledAll es

def Block.unlabelled : Block → Block
  | .mk t body => .mk t (Stmt.unlabelledAll body)

def Stmt.unlabelledAll : List Stmt → List Stmt
  | [] => []
  | st :: rest => st.unlabelled :: Stmt.unlabelledAll rest

/-- The token of an expression statement is replaced by one that says nothing. -/
def Stmt.unlabelled : Stmt → Stmt
  | .bind t target v => .bind t target v.unlabelled
  | .give t v => .give t v.unlabelled
  | .expr _ v => .expr (Token.endAt .start) v.unlabelled
  | .block b => .block b.unlabelled

end

def Program.unlabelled (p : Program) : Program :=
  ⟨Stmt.unlabelledAll p.body⟩

/-- Equal apart from the places of tokens and from the tokens of expression statements. -/
def Program.SameTree (p q : Program) : Prop :=
  p.unplaced.unlabelled = q.unplaced.unlabelled

end CornScript
