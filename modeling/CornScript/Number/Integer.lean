import CornScript.Bytes
import CornScript.Number.Parts

/-! # Integer literals

An integer may have a sign, a base prefix (`0b`, `0o`, `0x`, or `0` alone for octal), and
underscores between digits. It has to fit into 64 bits.
-/

namespace CornScript.Integer

inductive Fault where
  | malformed
  | outOfRange
  deriving DecidableEq, Repr

def maxInt : Int := 9223372036854775807

def minInt : Int := -9223372036854775808

def digit? (b : UInt8) : Option Nat :=
  if Bytes.isDigit b then some (b.toNat - 0x30)
  else if Bytes.isLetter b then some ((b ||| 0x20).toNat - 0x61 + 10)
  else none

/-- The value of digits in a base. Underscores are passed over. A value beyond 64 bits is noticed at
the digit that makes it so, before anything that follows. -/
def magnitude (base : Nat) : Nat → Bytes → Except Fault Nat
  | n, [] => .ok n
  | n, b :: rest =>
    if b = 0x5F then magnitude base n rest
    else match digit? b with
      | none => .error .malformed
      | some d =>
        if base ≤ d then .error .malformed
        else if 18446744073709551616 ≤ n * base + d then .error .outOfRange
        else magnitude base (n * base + d) rest

def splitBase : Bytes → Nat × Bytes
  | 0x30 :: p :: d :: rest =>
    match Char.ofUInt8 (p ||| 0x20) with
    | 'b' => (2, d :: rest)
    | 'o' => (8, d :: rest)
    | 'x' => (16, d :: rest)
    | _ => (8, p :: d :: rest)
  | 0x30 :: rest => (8, rest)
  | s => (10, s)

/-- Underscores stand only between digits; `before` says that a digit or the base prefix comes
before. -/
def underscoresOk : Bool → Bytes → Bool
  | _, [] => true
  | before, b :: rest =>
    if b = 0x5F then
      before && (match rest with
        | [] => false
        | d :: _ => d ≠ 0x5F && (digit? d).isSome) && underscoresOk false rest
    else underscoresOk true rest

def splitSign : Bytes → Bool × Bytes
  | 0x2B :: rest => (false, rest)
  | 0x2D :: rest => (true, rest)
  | s => (false, s)

def unsigned (s : Bytes) : Except Fault Nat := do
  if s.isEmpty then throw .malformed
  let (base, digits) := splitBase s
  let n ← magnitude base 0 digits
  let prefixed := base ≠ 10 && s.head? = some 0x30
  if underscoresOk prefixed digits then return n else throw .malformed

def read (s : Bytes) : Except Fault Int := do
  let (negative, digits) := splitSign s
  let n ← unsigned digits
  let i : Int := if negative then -n else n
  if i < minInt || maxInt < i then throw .outOfRange else return i

def truncate (negative : Bool) (mantissa : Nat) (exponent : Int) : Int :=
  let n := match exponent with
    | .ofNat e => mantissa <<< e
    | .negSucc e => mantissa >>> (e + 1)
  if negative then -n else n

end CornScript.Integer
