import CornScript.Bytes.Base64
import CornScript.Number.Decimal
import CornScript.Number.Integer
import CornScript.Yaml
import CornScript.Yaml.Timestamp

/-! # What scalars mean

A scalar without quotes and without a tag means what its text says. The tags of these meanings have
to agree with the text; with any other tag a scalar is a string.
-/

namespace CornScript.Yaml

inductive Meaning where
  | null
  | bool (b : Bool)
  | int (i : Int)
  | float (v : Float)
  | timestamp
  | str (s : Bytes)

def Meaning.tag : Meaning → Bytes
  | null => text "!!null"
  | bool _ => text "!!bool"
  | int _ => text "!!int"
  | float _ => text "!!float"
  | timestamp => text "!!timestamp"
  | str _ => text "!!str"

def words : List (Bytes × Meaning) :=
  [(text "", .null), (text "~", .null), (text "null", .null), (text "Null", .null),
   (text "NULL", .null), (text "true", .bool true), (text "True", .bool true),
   (text "TRUE", .bool true), (text "false", .bool false), (text "False", .bool false),
   (text "FALSE", .bool false), (text ".nan", .float (0 / 0)), (text ".NaN", .float (0 / 0)),
   (text ".NAN", .float (0 / 0)), (text ".inf", .float (1 / 0)), (text ".Inf", .float (1 / 0)),
   (text ".INF", .float (1 / 0)), (text "+.inf", .float (1 / 0)), (text "+.Inf", .float (1 / 0)),
   (text "+.INF", .float (1 / 0)), (text "-.inf", .float (-1 / 0)), (text "-.Inf", .float (-1 / 0)),
   (text "-.INF", .float (-1 / 0))]

def exponent? : Bytes → Option Int
  | [] => some 0
  | e :: rest =>
    let (negative, digits) := Integer.splitSign rest
    if (e = 0x65 || e = 0x45) && !digits.isEmpty && digits.all Bytes.isDigit then
      let n : Int := Bytes.toNat digits
      some (if negative then -n else n)
    else none

/-- A float: digits with a point and an exponent, of which each may be absent. Numbers too large for
64 bits are none. -/
def float? (s : Bytes) : Option Float := do
  let (negative, s) := Integer.splitSign s
  let whole := s.takeWhile Bytes.isDigit
  let rest := s.dropWhile Bytes.isDigit
  let (fraction, rest) := match rest with
    | 0x2E :: after => (after.takeWhile Bytes.isDigit, after.dropWhile Bytes.isDigit)
    | _ => ([], rest)
  let e ← exponent? rest
  if whole.isEmpty && fraction.isEmpty then none
  else
    let d : Decimal := ⟨Bytes.toNat (whole ++ fraction), e - fraction.length⟩
    let v := d.toFloat
    if v.isInf then none else some (if negative then -v else v)

/-- An integer with a sign between its base and its digits. -/
def basedInt? : Bytes → Option Int
  | 0x30 :: p :: sign :: digits =>
    if (p = 0x62 || p = 0x6F) && (sign = 0x2B || sign = 0x2D) && !digits.isEmpty then
      match Integer.magnitude (if p = 0x62 then 2 else 8) 0 digits with
      | .ok n =>
        let i : Int := if sign = 0x2D then -n else n
        if i < Integer.minInt || Integer.maxInt < i then none else some i
      | .error _ => none
    else none
  | _ => none

/-- An integer in any base. Without a sign it may take 64 bits. -/
def int? (s : Bytes) : Option Int :=
  match Integer.read s with
  | .ok i => some i
  | .error _ => match Integer.unsigned s with
    | .ok n => some n
    | .error _ => basedInt? s

def underscoresSeparate : Bool → Bytes → Bool
  | _, [] => true
  | before, b :: rest =>
    if b = 0x5F then before && rest.head?.any Bytes.isDigit && underscoresSeparate false rest
    else underscoresSeparate (Bytes.isDigit b) rest

def withoutUnderscores (s : Bytes) : Bytes :=
  s.filter (· ≠ 0x5F)

/-- A number. Underscores do not count; in one that begins with a point they stand only between
digits. -/
def number? (s : Bytes) : Option Meaning :=
  match s with
  | [] => none
  | b :: _ =>
    if Bytes.isDigit b || b = 0x2B || b = 0x2D then
      match int? (withoutUnderscores s) with
      | some i => some (.int i)
      | none => (float? (withoutUnderscores s)).map .float
    else if b = 0x2E && underscoresSeparate false s then
      (float? (withoutUnderscores s)).map .float
    else none

def timeless (s : Bytes) : Meaning :=
  match words.lookup s with
  | some m => m
  | none => (number? s).getD (.str s)

def meaning (s : Bytes) : Meaning :=
  if Timestamp.accepts s then .timestamp else timeless s

def implicitTags : List Bytes :=
  [text "!!null", text "!!bool", text "!!int", text "!!float", text "!!timestamp", text "!!str"]

/-- What a text means with a tag. It has to mean just what such a tag says, but for integers as
floats. Other tags leave it as it is, or in base 64. -/
def taggedMeaning? (tag s : Bytes) : Option Meaning :=
  if tag = text "!!binary" then
    (Bytes.ofBase64? (s.filter fun b => b ≠ 0x0A && b ≠ 0x0D)).map .str
  else if tag = text "!!str" || !implicitTags.contains tag then some (.str s)
  else if tag = text "!!timestamp" then if Timestamp.accepts s then some .timestamp else none
  else match timeless s with
    | .int i =>
      if tag = text "!!int" then some (.int i)
      else if tag = text "!!float" && i ≤ Integer.maxInt then some (.float (Float.ofInt i))
      else none
    | m => if m.tag = tag then some m else none

def mergeKey : Bytes := text "<<"

/-- What a node means; collections mean nothing of their own. Where a tag contradicts a text there
is no meaning at all. -/
def meaning? : Yaml → Option (Option Meaning)
  | scalar _ none true value => some (some (.str value))
  | scalar _ none false value => some (some (meaning value))
  | scalar _ (some tag) _ value => (taggedMeaning? tag value).map some
  | _ => some none

def tag : Yaml → Bytes
  | scalar _ (some t) _ _ | mapping _ (some t) _ | sequence _ (some t) _ => t
  | scalar _ none true _ => text "!!str"
  | scalar _ none false value => if value = mergeKey then text "!!merge" else (meaning value).tag
  | mapping _ none _ => text "!!map"
  | sequence _ none _ => text "!!seq"
  | reference _ _ _ => []

end CornScript.Yaml
