import CornScript.Bytes
import CornScript.Bytes.Quoted

/-! # Tokens

A token is a piece of program text with its kind, its literal and the position of its first byte.
-/

namespace CornScript

/-- A place in a text. Lines and columns count from one, and columns count bytes. -/
structure Pos where
  line : Nat
  column : Nat
  deriving DecidableEq, Repr

namespace Pos

def start : Pos := ⟨1, 1⟩

def step (p : Pos) (b : UInt8) : Pos :=
  if b = Bytes.newline then ⟨p.line + 1, 1⟩ else ⟨p.line, p.column + 1⟩

def after (p : Pos) (s : Bytes) : Pos :=
  s.foldl step p

end Pos

namespace Token

inductive Fault where
  | unknownCharacter (b : UInt8)
  | unterminatedString
  deriving DecidableEq, Repr

def Fault.message : Fault → Bytes
  | .unknownCharacter b => text "unknown character: " ++ Bytes.quoteCharacter b
  | .unterminatedString => text "unterminated string"

inductive Kind where
  | illegal (fault : Fault)
  | endOfInput
  | ident | number | string
  | assign | plus | minus | star | slash | caret | bang
  | less | lessEq | greater | greaterEq | equal | notEqual
  | comma | colon | semicolon | dot
  | leftParen | rightParen | leftBrace | rightBrace | leftBracket | rightBracket
  | fnWord | letWord | returnWord | ifWord | elseWord | andWord | orWord
  | trueWord | falseWord | nullWord
  deriving DecidableEq, Repr

namespace Kind

def name : Kind → Bytes
  | illegal _ => text "ILLEGAL"
  | endOfInput => text "EOF"
  | ident => text "IDENT"
  | number => text "NUMBER"
  | string => text "STRING"
  | assign => text "="
  | plus => text "+"
  | minus => text "-"
  | star => text "*"
  | slash => text "/"
  | caret => text "^"
  | bang => text "!"
  | less => text "<"
  | lessEq => text "<="
  | greater => text ">"
  | greaterEq => text ">="
  | equal => text "=="
  | notEqual => text "!="
  | comma => text ","
  | colon => text ":"
  | semicolon => text ";"
  | dot => text "."
  | leftParen => text "("
  | rightParen => text ")"
  | leftBrace => text "\x7b"
  | rightBrace => text "\x7d"
  | leftBracket => text "["
  | rightBracket => text "]"
  | fnWord => text "FUNCTION"
  | letWord => text "LET"
  | returnWord => text "RETURN"
  | ifWord => text "IF"
  | elseWord => text "ELSE"
  | andWord => text "AND"
  | orWord => text "OR"
  | trueWord => text "TRUE"
  | falseWord => text "FALSE"
  | nullWord => text "NULL"

def words : List (Bytes × Kind) :=
  [(text "fn", fnWord), (text "let", letWord), (text "return", returnWord), (text "if", ifWord),
   (text "else", elseWord), (text "and", andWord), (text "or", orWord), (text "true", trueWord),
   (text "false", falseWord), (text "null", nullWord)]

def ofWord (w : Bytes) : Kind :=
  (words.lookup w).getD ident

def isIllegal : Kind → Bool
  | illegal _ => true
  | _ => false

end Kind

end Token

/-- A token. The literal of a string is the text between its quotes. -/
structure Token where
  kind : Token.Kind
  literal : Bytes
  pos : Pos
  deriving DecidableEq, Repr

end CornScript
