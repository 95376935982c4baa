import CornScript.Bytes

/-! # Bytes in base 64

Four digits stand for three bytes. The last group may be filled up with equals signs.
-/

namespace CornScript.Bytes

def base64Digit? (b : UInt8) : Option Nat :=
  if 0x41 ≤ b && b ≤ 0x5A then some (b.toNat - 0x41)
  else if 0x61 ≤ b && b ≤ 0x7A then some (b.toNat - 0x61 + 26)
  else if isDigit b then some (b.toNat - 0x30 + 52)
  else if b = 0x2B then some 62
  else if b = 0x2F then some 63
  else none

def base64Group? (digits : List UInt8) : Option Bytes := do
  let n ← digits.foldlM (fun n b => (base64Digit? b).map (64 * n + ·)) 0
  return [(n / 65536).toUInt8, (n / 256).toUInt8, n.toUInt8]

def ofBase64? : Bytes → Option Bytes
  | [] => some []
  | [a, b, 0x3D, 0x3D] => (base64Group? [a, b, 0x41, 0x41]).map (·.take 1)
  | [a, b, c, 0x3D] => (base64Group? [a, b, c, 0x41]).map (·.take 2)
  | a :: b :: c :: d :: rest => do
    let group ← base64Group? [a, b, c, d]
    return group ++ (← ofBase64? rest)
  | _ => none

end CornScript.Bytes
