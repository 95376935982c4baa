import CornScript.Bytes
import CornScript.Number.Parts

/-! # Decimal text of numbers

A number is written with the fewest significant digits that read back as the same number; of
several such decimals the nearest is taken, and of two equally near ones the even one. The layout
is positional: there is never an exponent.
-/

namespace CornScript

structure Decimal where
  digits : Nat
  exponent : Int
  deriving DecidableEq, Repr

namespace Decimal

def toFloat (d : Decimal) : Float :=
  match d.exponent with
  | .ofNat e => Float.ofScientific d.digits false e
  | .negSucc e => Float.ofScientific d.digits true (e + 1)

def readsAs (d : Decimal) (v : Float) : Bool :=
  d.toFloat.toBits == v.toBits

/-- Reads `D+` or `D+.D+`: the point only moves the exponent. -/
def ofLiteral (literal : Bytes) : Decimal :=
  let whole := literal.takeWhile Bytes.isDigit
  let fraction := (literal.dropWhile Bytes.isDigit).drop 1
  { digits := Bytes.toNat (whole ++ fraction), exponent := -fraction.length }

def exact (mantissa : Nat) : Int → Decimal
  | .ofNat e => ⟨mantissa <<< e, 0⟩
  | .negSucc e => ⟨mantissa * Nat.pow 5 (e + 1), .negSucc e⟩

def scaled (mantissa : Nat) (exponent place : Int) : Nat × Nat :=
  ((mantissa <<< exponent.toNat) * Nat.pow 10 (-place).toNat,
    Nat.pow 10 place.toNat <<< (-exponent).toNat)

/--
The nearest multiple of `10 ^ place` that reads back as `v = mantissa · 2 ^ exponent`, if there is
one. Only the two neighbours of `v` can be nearest.
-/
def atPlace? (v : Float) (mantissa : Nat) (exponent place : Int) : Option Decimal :=
  let (num, den) := scaled mantissa exponent place
  let below : Decimal := ⟨num / den, place⟩
  let above : Decimal := ⟨num / den + 1, place⟩
  let excess := 2 * (num % den)
  match below.readsAs v, above.readsAs v with
  | false, false => none
  | true, false => some below
  | false, true => some above
  | true, true =>
    if excess < den || (excess = den && below.digits % 2 = 0) then some below else some above

/-- Tries `tries` places downwards from `place`, and takes the exact decimal if none reads back. -/
def search (v : Float) (mantissa : Nat) (exponent : Int) : Nat → Int → Decimal
  | 0, _ => exact mantissa exponent
  | tries + 1, place => match atPlace? v mantissa exponent place with
    | some d => d
    | none => search v mantissa exponent tries (place - 1)

/-- A place above the leading digit of `mantissa · 2 ^ exponent`: `log₁₀ 2` is about 0.30103. -/
def firstPlace (mantissa : Nat) (exponent : Int) : Int :=
  (exponent + mantissa.log2 + 1) * 30103 / 100000 + 2

def shortest (v : Float) (mantissa : Nat) (exponent : Int) : Decimal :=
  if mantissa = 0 then ⟨0, 0⟩
  else search v mantissa exponent 24 (firstPlace mantissa exponent)

/-- The decimal without an exponent: zeros fill up to the point, one of them before it. -/
def layout (d : Decimal) : Bytes :=
  let digits := Bytes.ofNat d.digits
  match d.exponent with
  | .ofNat e => digits ++ List.replicate e 0x30
  | .negSucc e =>
    let padded := List.replicate (e + 2 - digits.length) 0x30 ++ digits
    padded.take (padded.length - (e + 1)) ++ 0x2E :: padded.drop (padded.length - (e + 1))

end Decimal

namespace Number

def toText (v : Float) : Bytes :=
  match parts v with
  | .nan => text "NaN"
  | .infinite false => text "+Inf"
  | .infinite true => text "-Inf"
  | .finite negative mantissa exponent =>
    let digits := (Decimal.shortest v.abs mantissa exponent).layout
    if negative then 0x2D :: digits else digits

def ofLiteral? (literal : Bytes) : Option Float :=
  let v := (Decimal.ofLiteral literal).toFloat
  if v.isInf then none else some v

end Number

end CornScript
