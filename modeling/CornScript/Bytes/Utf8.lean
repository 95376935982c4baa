import CornScript.Bytes

/-! # Characters in UTF-8

The first byte of a character tells how many bytes it has. The others hold six bits each, and no
character is written longer than it has to be.
-/

namespace CornScript.Bytes

def width? (lead : UInt8) : Option Nat :=
  if lead < 0x80 then some 1
  else if lead < 0xC0 then none
  else if lead < 0xE0 then some 2
  else if lead < 0xF0 then some 3
  else if lead < 0xF8 then some 4
  else none

def isContinuation (b : UInt8) : Bool :=
  0x80 ≤ b && b < 0xC0

/-- The continuation bytes at the front of a text, as the lower bits of a character. -/
def continuation? (lead : Nat) : Nat → Bytes → Option Nat
  | 0, _ => some lead
  | n + 1, b :: rest =>
    if isContinuation b then continuation? (lead * 64 + (b.toNat - 0x80)) n rest else none
  | _ + 1, [] => none

def character? : Bytes → Option (Nat × Nat)
  | [] => none
  | b :: rest =>
    let long := fun (lead more least : Nat) =>
      match continuation? lead more rest with
      | some n => if least ≤ n && n.isValidChar then some (n, more + 1) else none
      | none => none
    match width? b with
    | some 1 => some (b.toNat, 1)
    | some 2 => long (b.toNat - 0xC0) 1 0x80
    | some 3 => long (b.toNat - 0xE0) 2 0x800
    | some 4 => long (b.toNat - 0xF0) 3 0x10000
    | _ => none

end CornScript.Bytes
