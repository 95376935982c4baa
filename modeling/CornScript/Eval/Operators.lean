import CornScript.Object

/-! # Operators

Numbers have arithmetic and comparison, strings have only concatenation. A truth value on the left
counts as one or zero, and so does one on the right of it. A divisor has to be positive.
-/

namespace CornScript

namespace UnaryOp

def apply : UnaryOp → Object → Except RuntimeError Object
  | not, .boolean b => .ok (.boolean !b)
  | neg, .number v => .ok (.number (-v))
  | other symbol, _ => .error (.unknownOperator symbol)
  | op, o => .error (.badOperand op o.kind)

end UnaryOp

namespace BinaryOp

def ofBool (b : Bool) : Float :=
  if b then 1 else 0

def onNumbers (op : BinaryOp) (l r : Float) : Except RuntimeError Object :=
  match op with
  | add => .ok (.number (l + r))
  | sub => .ok (.number (l - r))
  | mul => .ok (.number (l * r))
  | div => if r ≤ 0 then .error .divisionByZero else .ok (.number (l / r))
  | less => .ok (.boolean (l < r))
  | lessEq => .ok (.boolean (l ≤ r))
  | greater => .ok (.boolean (r < l))
  | greaterEq => .ok (.boolean (r ≤ l))
  | equal => .ok (.boolean (l == r))
  | notEqual => .ok (.boolean (l != r))
  | and | or | other _ => .error (.unknownOperator op.symbol)

def onStrings (op : BinaryOp) (l r : Bytes) : Except RuntimeError Object :=
  match op with
  | add => .ok (.string (l ++ r))
  | _ => .error (.unknownOperator op.symbol)

def apply (op : BinaryOp) : Object → Object → Except RuntimeError Object
  | .number l, .number r => op.onNumbers l r
  | .string l, .string r => op.onStrings l r
  | .boolean l, .number r => op.onNumbers (ofBool l) r
  | .boolean l, .boolean r => op.onNumbers (ofBool l) (ofBool r)
  | l, r => .error (.incompatible l.kind r.kind)

end BinaryOp

def Object.offset (length : Nat) : Object → Except RuntimeError Nat
  | .number v => match Number.parts v with
    | .nan => .error .badSubscript
    | .infinite _ => .error .outOfBounds
    | .finite negative mantissa exponent => match Number.natural? mantissa exponent with
      | none => .error .badSubscript
      | some i =>
        if i < length && (!negative || i = 0) then .ok i else .error .outOfBounds
  | _ => .error .badSubscript

end CornScript
