import CornScript.Bytes

/-! # Dates and times

A timestamp is a date, or a date and a time of day. The fields of both have one or two digits, the
year has four. After `T` or `t` the time has a zone, after blanks it has none.
-/

namespace CornScript.Yaml.Timestamp

def number? : Bytes → Option (Nat × Bytes)
  | [] => none
  | a :: rest =>
    if !Bytes.isDigit a then none
    else match rest with
      | [] => some (Bytes.toNat [a], [])
      | b :: more =>
        if Bytes.isDigit b then some (Bytes.toNat [a, b], more) else some (Bytes.toNat [a], rest)

def below? (limit : Nat) (s : Bytes) : Option (Nat × Bytes) :=
  (number? s).filter fun r => r.1 < limit

def after? (b : UInt8) : Bytes → Option Bytes
  | [] => none
  | c :: rest => if c = b then some rest else none

def isLeap (year : Nat) : Bool :=
  year % 4 = 0 && (year % 100 ≠ 0 || year % 400 = 0)

def daysIn (year month : Nat) : Nat :=
  if month = 2 then if isLeap year then 29 else 28
  else if [4, 6, 9, 11].contains month then 30
  else 31

def date? (s : Bytes) : Option Bytes := do
  let year := s.takeWhile Bytes.isDigit
  if year.length ≠ 4 then none
  else
    let rest ← after? 0x2D (s.drop 4)
    let (month, rest) ← number? rest
    let rest ← after? 0x2D rest
    let (day, rest) ← number? rest
    if 1 ≤ month && month ≤ 12 && 1 ≤ day && day ≤ daysIn (Bytes.toNat year) month then some rest
    else none

/-- What follows a fraction of a second: a point or a comma with digits. There may be none. -/
def fraction (s : Bytes) : Bytes :=
  match s with
  | p :: d :: rest =>
    if (p = 0x2E || p = 0x2C) && Bytes.isDigit d then rest.dropWhile Bytes.isDigit else s
  | _ => s

def time? (s : Bytes) : Option Bytes := do
  let (_, rest) ← below? 24 s
  let (_, rest) ← below? 60 (← after? 0x3A rest)
  let (_, rest) ← below? 60 (← after? 0x3A rest)
  return fraction rest

/-- A zone: `Z`, or a sign with hours and minutes of two digits each. A whole day and a whole hour
are allowed. -/
def isZone : Bytes → Bool
  | [0x5A] => true
  | [sign, a, b, colon, c, d] =>
    (sign = 0x2B || sign = 0x2D) && colon = 0x3A && [a, b, c, d].all Bytes.isDigit &&
      Bytes.toNat [a, b] ≤ 24 && Bytes.toNat [c, d] ≤ 60
  | _ => false

def accepts (s : Bytes) : Bool :=
  match date? s with
  | none => false
  | some [] => true
  | some (b :: rest) =>
    if b = 0x54 || b = 0x74 then (time? rest).any isZone
    else b = 0x20 && (time? (rest.dropWhile (· = 0x20))).any List.isEmpty

end CornScript.Yaml.Timestamp
