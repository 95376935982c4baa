import CornScript.Tree

/-! # Printing trees

A printed tree is program text with explicit parentheses around every operation. Where a tree is
incomplete there may be nothing to print; `Expr.defect?` finds the first such place in the order of
printing.
-/

namespace CornScript

inductive Defect where
  /-- An operand is left out. -/
  | missing
  /-- A hash literal has `count` values, and none for the key at `index`. -/
  | unpaired (index count : Nat)
  deriving DecidableEq, Repr

namespace Printer

def comma : Bytes := text ", "

def call (kind : Token.Kind) (callee : Bytes) (args : List Bytes) : Bytes :=
  match kind, args with
  | .leftBracket, args => text "(" ++ callee ++ text "[" ++ Bytes.join comma args ++ text "])"
  | .dot, receiver :: args =>
    receiver ++ text "." ++ callee ++ text "(" ++ Bytes.join comma args ++ text ")"
  | _, args => callee ++ text "(" ++ Bytes.join comma args ++ text ")"

end Printer

open Printer

mutual

def Expr.print : Expr → Bytes
  | .missing => []
  | .ident id => id.name
  | .number t _ => t.literal
  | .string _ v => text "\"" ++ v ++ text "\""
  | .boolean t _ => t.literal
  | .null _ => text "null"
  | .array _ es => text "[" ++ Bytes.join comma (Expr.printAll es) ++ text "]"
  | .hash _ ks vs =>
    let pairs := List.zipWith (fun k v => k ++ text ": " ++ v) (Expr.printAll ks) (Expr.printAll vs)
    text "\x7b" ++ Bytes.join comma pairs ++ text "\x7d"
  | .unary _ op e => text "(" ++ op.symbol ++ e.print ++ text ")"
  | .binary _ l op r =>
    text "(" ++ l.print ++ text " " ++ op.symbol ++ text " " ++ r.print ++ text ")"
  | .cond _ c b none => text "if (" ++ c.print ++ text ") " ++ b.print
  | .cond _ c b (some a) =>
    text "if (" ++ c.print ++ text ") " ++ b.print ++ text " else " ++ a.print
  | .function t ps b =>
    t.literal ++ text "(" ++ Bytes.join comma (ps.map (·.name)) ++ text ") " ++ b.print
  | .call t f args => Printer.call t.kind f.print (Expr.printAll args)

def Expr.printAll : List Expr → List Bytes
  | [] => []
  | e :: es => e.print :: Expr.printAll es

def Block.print : Block → Bytes
  | .mk _ body => text "\x7b " ++ Stmt.printAll body ++ text "\x7d"

/-- Each statement is followed by a space. -/
def Stmt.printAll : List Stmt → Bytes
  | [] => []
  | s :: ss => s.print ++ text " " ++ Stmt.printAll ss

def Stmt.print : Stmt → Bytes
  | .bind t target v => t.literal ++ text " " ++ target.name ++ text " = " ++ v.print ++ text ";"
  | .give t v => t.literal ++ text " " ++ v.print ++ text ";"
  | .expr _ v => v.print
  | .block b => b.print

end

def Program.print (p : Program) : Bytes :=
  (p.body.map Stmt.print).flatten

def Node.print : Node → Bytes
  | .program p => p.print
  | .stmt s => s.print
  | .expr e => e.print

def Printer.pairDefect? (count : Nat) :
    Nat → List (Option Defect) → List (Option Defect) → Option Defect
  | _, [], _ => none
  | index, k :: _, [] => k <|> some (.unpaired index count)
  | index, k :: ks, v :: vs => k <|> v <|> pairDefect? count (index + 1) ks vs

/-- The first defect of a callee and arguments; a receiver comes before the callee. -/
def Printer.callDefect? (kind : Token.Kind) (callee : Option Defect) (args : List (Option Defect)) :
    Option Defect :=
  match kind, args with
  | .dot, receiver :: args => receiver <|> callee <|> args.findSome? id
  | _, args => callee <|> args.findSome? id

mutual

def Expr.defect? : Expr → Option Defect
  | .missing => some .missing
  | .ident _ | .number _ _ | .string _ _ | .boolean _ _ | .null _ => none
  | .array _ es => (Expr.defects es).findSome? id
  | .hash _ ks vs => pairDefect? vs.length 0 (Expr.defects ks) (Expr.defects vs)
  | .unary _ _ e => e.defect?
  | .binary _ l _ r => l.defect? <|> r.defect?
  | .cond _ c b none => c.defect? <|> b.defect?
  | .cond _ c b (some a) => c.defect? <|> b.defect? <|> a.defect?
  | .function _ _ b => b.defect?
  | .call t f args => callDefect? t.kind f.defect? (Expr.defects args)

def Expr.defects : List Expr → List (Option Defect)
  | [] => []
  | e :: es => e.defect? :: Expr.defects es

def Block.defect? : Block → Option Defect
  | .mk _ body => Stmt.defectAll? body

def Stmt.defectAll? : List Stmt → Option Defect
  | [] => none
  | s :: ss => s.defect? <|> Stmt.defectAll? ss

/-- A statement can be printed without its expression. -/
def Stmt.defect? : Stmt → Option Defect
  | .bind _ _ .missing | .give _ .missing | .expr _ .missing => none
  | .bind _ _ v | .give _ v | .expr _ v => v.defect?
  | .block b => b.defect?

end

def Node.defect? : Node → Option Defect
  | .program p => Stmt.defectAll? p.body
  | .stmt s => s.defect?
  | .expr e => e.defect?

end CornScript
