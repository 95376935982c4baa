import CornScript.Token

/-! # Splitting a text into tokens

Blanks and comments are skipped, and the longest token is taken at the place after them. The text
ends at its first NUL byte. The list of tokens always ends with one end-of-input token; a place
where no token can be read yields one illegal token right before it.
-/

namespace CornScript.Token

/-- A token without its position: `width` is the number of bytes that it covers. -/
structure Lexeme where
  kind : Kind
  literal : Bytes
  width : Nat
  deriving DecidableEq, Repr

namespace Lexeme

def isWordByte (b : UInt8) : Bool :=
  Bytes.isLetter b || Bytes.isDigit b || b == 0x5F

def single (kind : Kind) (b : UInt8) : Lexeme :=
  ⟨kind, [b], 1⟩

def extended (short long : Kind) (b : UInt8) (rest : Bytes) : Lexeme :=
  if rest.head? = some 0x3D then ⟨long, [b, 0x3D], 2⟩ else single short b

def word (b : UInt8) (rest : Bytes) : Lexeme :=
  let w := b :: rest.takeWhile isWordByte
  ⟨.ofWord w, w, w.length⟩

/-- Digits; a point belongs to the number only when a digit follows it. -/
def numeral (b : UInt8) (rest : Bytes) : Lexeme :=
  let whole := b :: rest.takeWhile Bytes.isDigit
  let n := match rest.dropWhile Bytes.isDigit with
    | 0x2E :: after =>
      match after.takeWhile Bytes.isDigit with
      | [] => whole
      | fraction => whole ++ 0x2E :: fraction
    | _ => whole
  ⟨.number, n, n.length⟩

/-- Everything up to the next quote of the same sort; without one, the rest of the text. -/
def quoted (quote : UInt8) (rest : Bytes) : Lexeme :=
  let inner := rest.takeWhile (· ≠ quote)
  if inner.length < rest.length then ⟨.string, inner, inner.length + 2⟩
  else ⟨.illegal .unterminatedString, inner, inner.length + 1⟩

def front (b : UInt8) (rest : Bytes) : Lexeme :=
  match Char.ofUInt8 b with
  | '=' => extended .assign .equal b rest
  | '!' => extended .bang .notEqual b rest
  | '<' => extended .less .lessEq b rest
  | '>' => extended .greater .greaterEq b rest
  | '+' => single .plus b
  | '-' => single .minus b
  | '*' => single .star b
  | '/' => single .slash b
  | '^' => single .caret b
  | ',' => single .comma b
  | ':' => single .colon b
  | ';' => single .semicolon b
  | '.' => single .dot b
  | '(' => single .leftParen b
  | ')' => single .rightParen b
  | '{' => single .leftBrace b
  | '}' => single .rightBrace b
  | '[' => single .leftBracket b
  | ']' => single .rightBracket b
  | _ =>
    if b = 0x22 || b = 0x27 then quoted b rest
    else if Bytes.isLetter b then word b rest
    else if Bytes.isDigit b then numeral b rest
    else ⟨.illegal (.unknownCharacter b), Bytes.ofCodePoint b, 1⟩

theorem width_extended_pos (short long : Kind) (b : UInt8) (rest : Bytes) :
    0 < (extended short long b rest).width := by
  unfold extended; split <;> simp [single]

theorem width_numeral_pos (b : UInt8) (rest : Bytes) : 0 < (numeral b rest).width := by
  unfold numeral; dsimp only; split <;> (try split) <;> simp

theorem width_quoted_pos (b : UInt8) (rest : Bytes) : 0 < (quoted b rest).width := by
  unfold quoted; dsimp only; split <;> simp

theorem width_front_pos (b : UInt8) (rest : Bytes) : 0 < (front b rest).width := by
  unfold front
  split
  all_goals first
    | exact width_extended_pos ..
    | exact Nat.zero_lt_one
    | skip
  split
  · exact width_quoted_pos ..
  · split
    · simp [word]
    · split
      · exact width_numeral_pos ..
      · exact Nat.zero_lt_one

end Lexeme

def isBlank (b : UInt8) : Bool :=
  b == 0x20 || b == 0x09 || b == 0x0A || b == 0x0D

/--
Skips blanks and comments. A comment begins with two slashes and ends with its line; `inside` says
that one has begun.
-/
def skip (inside : Bool) : Bytes → Pos → Bytes × Pos
  | [], p => ([], p)
  | b :: rest, p =>
    if inside then skip (b ≠ Bytes.newline) rest (p.step b)
    else if isBlank b then skip false rest (p.step b)
    else if b = 0x2F && rest.head? = some 0x2F then skip true rest (p.step b)
    else (b :: rest, p)

theorem length_skip_le (inside : Bool) (s : Bytes) (p : Pos) :
    (skip inside s p).1.length ≤ s.length := by
  induction s generalizing inside p with
  | nil => simp [skip]
  | cons b rest ih =>
    unfold skip
    split
    · exact Nat.le_succ_of_le (ih _ _)
    · split
      · exact Nat.le_succ_of_le (ih _ _)
      · split
        · exact Nat.le_succ_of_le (ih _ _)
        · simp

def endAt (p : Pos) : Token :=
  ⟨.endOfInput, [], p⟩

/-- The tokens of a text without NUL bytes that begins at `p`. -/
def scanFrom (s : Bytes) (p : Pos) : List Token :=
  match _h : skip false s p with
  | ([], q) => [endAt q]
  | (b :: rest, q) =>
    let lexeme := Lexeme.front b rest
    let token : Token := ⟨lexeme.kind, lexeme.literal, q⟩
    let next := q.after ((b :: rest).take lexeme.width)
    if lexeme.kind.isIllegal then [token, endAt next]
    else token :: scanFrom ((b :: rest).drop lexeme.width) next
termination_by s.length
decreasing_by
  have hs := length_skip_le false s p
  rw [_h] at hs
  have hw := Lexeme.width_front_pos b rest
  simp only [List.length_drop, List.length_cons] at *
  omega

def scan (source : Bytes) : List Token :=
  scanFrom (source.takeWhile (· ≠ 0)) Pos.start

def illegal? (tokens : List Token) : Option (Fault × Pos) :=
  tokens.findSome? fun t => match t.kind with
    | .illegal fault => some (fault, t.pos)
    | _ => none

end CornScript.Token
