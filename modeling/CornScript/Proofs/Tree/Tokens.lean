import CornScript.Proofs.Parser.Viability
import CornScript.Proofs.Tree.Genuine

/-! # The tokens of a printed tree

What a genuine tree is printed as consists of its own tokens and of punctuation. No piece of it goes
on in the next one: names and numbers are printed in front of brackets, separators and blanks, or in
front of the point of a method call, and a name follows that. Only strings with double quotes in
them cannot be read again, and statements without a semicolon that are not the last of a program.
-/

namespace CornScript

open Token (Kind sample Lexes Breaks)

def Printer.commas : List (List Token) → List Token
  | [] => []
  | ts :: rest => ts ++ rest.flatMap (sample .comma :: ·)

def Printer.pairTokens (key value : List Token) : List Token :=
  key ++ sample .colon :: value

def Printer.callTokens (t : Token) (callee : List Token) (args : List (List Token)) : List Token :=
  match t.kind, args with
  | .leftBracket, args =>
    sample .leftParen ::
      (callee ++ t.unplaced :: (commas args ++ [sample .rightBracket, sample .rightParen]))
  | .dot, receiver :: args =>
    receiver ++ t.unplaced ::
      (callee ++ sample .leftParen :: (commas args ++ [sample .rightParen]))
  | _, args => callee ++ t.unplaced :: (commas args ++ [sample .rightParen])

def Printer.elseToken : Token := ⟨.elseWord, text "else", .start⟩

open Printer

mutual

/-- The tokens that a tree is printed with, all at the start of the text. -/
def Expr.tokens : Expr → List Token
  | .missing => []
  | .ident id => [id.token.unplaced]
  | .number t _ | .string t _ | .boolean t _ | .null t => [t.unplaced]
  | .array t es => t.unplaced :: (commas (Expr.tokensAll es) ++ [sample .rightBracket])
  | .hash t ks vs =>
    let pairs := List.zipWith pairTokens (Expr.tokensAll ks) (Expr.tokensAll vs)
    t.unplaced :: (commas pairs ++ [sample .rightBrace])
  | .unary t _ e => sample .leftParen :: t.unplaced :: (e.tokens ++ [sample .rightParen])
  | .binary t l _ r =>
    sample .leftParen :: (l.tokens ++ t.unplaced :: (r.tokens ++ [sample .rightParen]))
  | .cond t c b none =>
    t.unplaced :: sample .leftParen :: (c.tokens ++ sample .rightParen :: b.tokens)
  | .cond t c b (some a) =>
    t.unplaced :: sample .leftParen ::
      (c.tokens ++ sample .rightParen :: (b.tokens ++ elseToken :: a.tokens))
  | .function t ps b =>
    t.unplaced :: sample .leftParen ::
      (commas (ps.map fun p => [p.token.unplaced]) ++ sample .rightParen :: b.tokens)
  | .call t f args => callTokens t f.tokens (Expr.tokensAll args)

def Expr.tokensAll : List Expr → List (List Token)
  | [] => []
  | e :: es => e.tokens :: Expr.tokensAll es

def Block.tokens : Block → List Token
  | .mk t body => t.unplaced :: (Stmt.tokensAll body ++ [sample .rightBrace])

def Stmt.tokensAll : List Stmt → List Token
  | [] => []
  | s :: ss => s.tokens ++ Stmt.tokensAll ss

def Stmt.tokens : Stmt → List Token
  | .bind t target v =>
    t.unplaced :: target.token.unplaced :: sample .assign :: (v.tokens ++ [sample .semicolon])
  | .give t v => t.unplaced :: (v.tokens ++ [sample .semicolon])
  | .expr _ v => v.tokens
  | .block b => b.tokens

end

section Calls

variable {t : Token} {callee receiver : List Token} {args : List (List Token)}

theorem Printer.callTokens_paren (h : t.kind = .leftParen) :
    callTokens t callee args = callee ++ t.unplaced :: (commas args ++ [sample .rightParen]) := by
  simp only [callTokens, h]

theorem Printer.callTokens_bracket (h : t.kind = .leftBracket) :
    callTokens t callee args = sample .leftParen ::
      (callee ++ t.unplaced :: (commas args ++ [sample .rightBracket, sample .rightParen])) := by
  simp only [callTokens, h]

theorem Printer.callTokens_dot (h : t.kind = .dot) :
    callTokens t callee (receiver :: args) = receiver ++ t.unplaced ::
      (callee ++ sample .leftParen :: (commas args ++ [sample .rightParen])) := by
  simp only [callTokens, h]

end Calls

/-! ## How a printed tree begins -/

/-- A printed expression begins with such a token. -/
def Token.Kind.opens : Kind → Bool
  | ident | number | string | trueWord | falseWord | nullWord | leftParen | leftBracket | leftBrace
  | ifWord | fnWord => true
  | _ => false

theorem Token.Kind.ne_of_opens {kind kind' : Kind} (h : kind.opens) (h' : kind'.opens = false) :
    kind ≠ kind' := by
  rintro rfl
  rw [h'] at h
  cases h

def OpensExpr (ts : List Token) : Prop :=
  ∃ t us, ts = t :: us ∧ t.kind.opens

theorem OpensExpr.append {ts us : List Token} (h : OpensExpr ts) : OpensExpr (ts ++ us) := by
  obtain ⟨t, vs, rfl, ht⟩ := h
  exact ⟨t, vs ++ us, rfl, ht⟩

theorem opensExpr_cons {t : Token} {kind : Kind} {ts : List Token} (h : t.kind = kind)
    (hkind : kind.opens) : OpensExpr (t.unplaced :: ts) :=
  ⟨_, _, rfl, (congrArg Kind.opens h).trans hkind⟩

theorem opensExpr_sample {kind : Kind} {ts : List Token} (h : kind.opens) :
    OpensExpr (sample kind :: ts) :=
  ⟨_, _, rfl, h⟩

mutual

theorem Expr.opens_tokens (e : Expr) (h : e.Genuine) : OpensExpr e.tokens := by
  cases e with
  | missing => cases h
  | ident id =>
    rw [Expr.Genuine] at h
    exact opensExpr_cons h.kind rfl
  | number t v => exact opensExpr_cons h.2.1 rfl
  | string t v => exact opensExpr_cons h.2.1 rfl
  | boolean t b => exact opensExpr_cons h.2 (by cases b <;> rfl)
  | null t => exact opensExpr_cons h.2 rfl
  | array t es => exact opensExpr_cons h.1.2 rfl
  | hash t ks vs => exact opensExpr_cons h.1.2 rfl
  | unary t op e => exact opensExpr_sample rfl
  | binary t l op r => exact opensExpr_sample rfl
  | cond t c b a =>
    cases a with
    | none => exact opensExpr_cons h.1.2 rfl
    | some a => exact opensExpr_cons h.1.2 rfl
  | function t ps b => exact opensExpr_cons h.1.2 rfl
  | call t f args =>
    obtain ⟨⟨-, hcall⟩, hf, hargs⟩ := h
    have hcallee := Expr.opens_tokens f hf
    have hfirst := Expr.opens_tokensAll args hargs
    rw [Expr.tokens]
    rcases hcall with hk | ⟨hk, -⟩ | ⟨hk, name, receiver, rest, -, rfl⟩
    · rw [callTokens_paren hk]
      exact hcallee.append
    · rw [callTokens_bracket hk]
      exact opensExpr_sample rfl
    · rw [Expr.tokensAll, callTokens_dot hk]
      exact (hfirst _ List.mem_cons_self).append

theorem Expr.opens_tokensAll (es : List Expr) (h : Expr.GenuineAll es) :
    ∀ ts ∈ Expr.tokensAll es, OpensExpr ts := by
  cases es with
  | nil => exact nofun
  | cons e es =>
    rw [Expr.tokensAll]
    exact List.forall_mem_cons.mpr ⟨Expr.opens_tokens e h.1, Expr.opens_tokensAll es h.2⟩

end

end CornScript
