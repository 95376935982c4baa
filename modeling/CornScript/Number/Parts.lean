/-! # The parts of a 64-bit floating-point number

A finite number is `± mantissa · 2 ^ exponent`; sign, mantissa and exponent are read off its bits.
-/

namespace CornScript.Number

inductive Parts where
  | nan
  | infinite (negative : Bool)
  | finite (negative : Bool) (mantissa : Nat) (exponent : Int)
  deriving DecidableEq, Repr

def Parts.ofBits (bits : Nat) : Parts :=
  let negative := bits.testBit 63
  let biased : Nat := (bits >>> 52) % 2048
  let fraction := bits % 0x10000000000000
  if biased = 2047 then
    if fraction = 0 then .infinite negative else .nan
  else if biased = 0 then .finite negative fraction (-1074)
  else .finite negative (0x10000000000000 + fraction) (biased - 1075)

def parts (v : Float) : Parts :=
  .ofBits v.toBits.toNat

/-- `mantissa · 2 ^ exponent` when it is a natural number. -/
def natural? (mantissa : Nat) : Int → Option Nat
  | .ofNat e => some (mantissa <<< e)
  | .negSucc e =>
    let n := mantissa >>> (e + 1)
    if n <<< (e + 1) = mantissa then some n else none

end CornScript.Number
