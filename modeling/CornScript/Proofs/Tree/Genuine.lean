import CornScript.Number.Decimal
import CornScript.Proofs.Token.Concatenation
import CornScript.Tree.Parser

/-! # Genuine trees

A tree is genuine if each of its tokens is one that some text is read as, is of the kind that its
place in the tree asks for, and says what the tree says there. Then nothing is lost when the tree is
printed: what is printed can be read as tokens again, and the tokens tell the tree.
-/

namespace CornScript

open Token (Kind)

/-- The operators with one operand, with their tokens. -/
def Token.Kind.unary? : Kind → Option UnaryOp
  | bang => some .not
  | minus => some .neg
  | _ => none

structure Ident.Genuine (id : Ident) : Prop where
  token : id.token.Genuine
  kind : id.token.kind = .ident
  name : id.name = id.token.literal

theorem Ident.Genuine.moved_eq {id : Ident} (h : id.Genuine) :
    id.moved .forget = ⟨id.token.unplaced, id.token.unplaced.literal⟩ := by
  rw [Ident.moved, h.name]
  rfl

def Expr.IsCall (kind : Kind) (callee : Expr) (args : List Expr) : Prop :=
  kind = .leftParen ∨
    (kind = .leftBracket ∧ ∃ index, args = [index]) ∨
    (kind = .dot ∧ ∃ name receiver rest, callee = .ident name ∧ args = receiver :: rest)

mutual

def Expr.Genuine : Expr → Prop
  | .missing => False
  | .ident id => id.Genuine
  | .number t v => t.Genuine ∧ t.kind = .number ∧ Number.ofLiteral? t.literal = some v
  | .string t v => t.Genuine ∧ t.kind = .string ∧ v = t.literal
  | .boolean t b => t.Genuine ∧ t.kind = if b then .trueWord else .falseWord
  | .null t => t.Genuine ∧ t.kind = .nullWord
  | .array t es => (t.Genuine ∧ t.kind = .leftBracket) ∧ Expr.GenuineAll es
  | .hash t ks vs => (t.Genuine ∧ t.kind = .leftBrace) ∧ ks.length = vs.length ∧
      Expr.GenuineAll ks ∧ Expr.GenuineAll vs
  | .unary t op e => (t.Genuine ∧ t.kind.unary? = some op) ∧ e.Genuine
  | .binary t l op r => (t.Genuine ∧ ∃ own, t.kind.binary? = some (op, own)) ∧
      l.Genuine ∧ r.Genuine
  | .cond t c b none => (t.Genuine ∧ t.kind = .ifWord) ∧ c.Genuine ∧ b.Genuine
  | .cond t c b (some a) => (t.Genuine ∧ t.kind = .ifWord) ∧ c.Genuine ∧ b.Genuine ∧ a.Genuine
  | .function t ps b => (t.Genuine ∧ t.kind = .fnWord) ∧ (∀ p ∈ ps, p.Genuine) ∧ b.Genuine
  | .call t f args => (t.Genuine ∧ Expr.IsCall t.kind f args) ∧ f.Genuine ∧ Expr.GenuineAll args

def Expr.GenuineAll : List Expr → Prop
  | [] => True
  | e :: es => e.Genuine ∧ Expr.GenuineAll es

def Block.Genuine : Block → Prop
  | .mk t body => (t.Genuine ∧ t.kind = .leftBrace) ∧ Stmt.GenuineAll body

def Stmt.GenuineAll : List Stmt → Prop
  | [] => True
  | s :: ss => s.Genuine ∧ Stmt.GenuineAll ss

/-- The parser makes no statement of a block alone. -/
def Stmt.Genuine : Stmt → Prop
  | .bind t target v => (t.Genuine ∧ t.kind = .letWord) ∧ target.Genuine ∧ v.Genuine
  | .give t v => (t.Genuine ∧ t.kind = .returnWord) ∧ v.Genuine
  | .expr _ v => v.Genuine
  | .block _ => False

end

mutual

/-- All expressions in a tree satisfy `p`, and the bodies of all blocks in it satisfy `q`. -/
def Expr.every (p : Expr → Bool) (q : List Stmt → Bool) : Expr → Bool
  | .missing => p .missing
  | .ident id => p (.ident id)
  | .number t v => p (.number t v)
  | .string t v => p (.string t v)
  | .boolean t b => p (.boolean t b)
  | .null t => p (.null t)
  | .array t es => p (.array t es) && Expr.everyAll p q es
  | .hash t ks vs => p (.hash t ks vs) && Expr.everyAll p q ks && Expr.everyAll p q vs
  | .unary t op e => p (.unary t op e) && e.every p q
  | .binary t l op r => p (.binary t l op r) && l.every p q && r.every p q
  | .cond t c b none => p (.cond t c b none) && c.every p q && b.every p q
  | .cond t c b (some a) => p (.cond t c b (some a)) && c.every p q && b.every p q && a.every p q
  | .function t ps b => p (.function t ps b) && b.every p q
  | .call t f args => p (.call t f args) && f.every p q && Expr.everyAll p q args

def Expr.everyAll (p : Expr → Bool) (q : List Stmt → Bool) : List Expr → Bool
  | [] => true
  | e :: es => e.every p q && Expr.everyAll p q es

def Block.every (p : Expr → Bool) (q : List Stmt → Bool) : Block → Bool
  | .mk _ body => q body && Stmt.everyAll p q body

def Stmt.everyAll (p : Expr → Bool) (q : List Stmt → Bool) : List Stmt → Bool
  | [] => true
  | s :: ss => s.every p q && Stmt.everyAll p q ss

def Stmt.every (p : Expr → Bool) (q : List Stmt → Bool) : Stmt → Bool
  | .bind _ _ v => v.every p q
  | .give _ v => v.every p q
  | .expr _ v => v.every p q
  | .block b => b.every p q

end

def Program.every (p : Expr → Bool) (q : List Stmt → Bool) (program : Program) : Bool :=
  q program.body && Stmt.everyAll p q program.body

/-- No string between double quotes has one of them in it. -/
def Expr.isUnquoted : Expr → Bool
  | .string _ v => !v.contains 0x22
  | _ => true

def Stmt.isTerminated : Stmt → Bool
  | .bind _ _ _ | .give _ _ => true
  | _ => false

def Stmt.areTerminated (body : List Stmt) : Bool :=
  body.dropLast.all Stmt.isTerminated

end CornScript
