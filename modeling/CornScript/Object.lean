import CornScript.Dict
import CornScript.Number.Decimal
import CornScript.Tree

/-! # Runtime objects

Every runtime value is an object, known by a reference that numbers the objects in the order of
their creation. Scopes are numbered in the same way.
-/

namespace CornScript

structure Ref where
  index : Nat
  deriving DecidableEq, Repr

structure ScopeId where
  index : Nat
  deriving DecidableEq, Repr

inductive Builtin where
  | size | type | push | print
  deriving DecidableEq, Repr

namespace Builtin

def name : Builtin → Bytes
  | size => text "size"
  | type => text "type"
  | push => text "push"
  | print => text "print"

def all : List Builtin := [size, type, push, print]

def ofName? (n : Bytes) : Option Builtin :=
  all.find? fun b => b.name = n

end Builtin

namespace Object

inductive Kind where
  | number | string | boolean | null | array | hash | function | builtin | error
  deriving DecidableEq, Repr

def Kind.name : Kind → Bytes
  | number => text "NUMBER"
  | string => text "STRING"
  | boolean => text "BOOLEAN"
  | null => text "NULL"
  | array => text "ARRAY"
  | hash => text "HASH"
  | function => text "FUNCTION"
  | builtin => text "BUILTIN"
  | error => text "ERROR"

end Object

inductive RuntimeError where
  | undefined (name : Bytes)
  | reserved (name : Bytes)
  | badCondition
  | badKey
  | notCallable
  | unknownMethod (name : Bytes)
  | argumentCount (got want : Nat)
  | badSubscript
  | outOfBounds
  | badOperand (op : UnaryOp) (kind : Object.Kind)
  | unknownOperator (symbol : Bytes)
  | leftNotBoolean
  | rightNotBoolean
  | incompatible (left right : Object.Kind)
  | divisionByZero
  | builtinArgumentCount (got want : Nat)
  | noSize (kind : Object.Kind)
  | pushTarget (kind : Object.Kind)
  | outputLimit
  /-- An error with a message of its own. -/
  | raised (message : Bytes)
  deriving DecidableEq, Repr

def RuntimeError.message : RuntimeError → Bytes
  | undefined name => text "variable not defined: " ++ name
  | reserved name => text "'" ++ name ++ text "' is a reserved word"
  | badCondition => text "invalid data type for if condition"
  | badKey => text "invalid data type for key"
  | notCallable => text "invalid callable object"
  | unknownMethod name => text "invalid method: " ++ name
  | argumentCount got want =>
    text "unexpected arguments, got: " ++ Bytes.ofNat got ++ text " want: " ++ Bytes.ofNat want
  | badSubscript => text "invalid subscript reference"
  | outOfBounds => text "index out of bounds"
  | badOperand op kind => text "invalid data type for " ++ op.symbol ++ text ": " ++ kind.name
  | unknownOperator symbol => text "invalid operator: " ++ symbol
  | leftNotBoolean => text "invalid left hand type operand"
  | rightNotBoolean => text "invalid right hand type operand"
  | incompatible left right =>
    text "incompatible data types: " ++ left.name ++ text ", " ++ right.name
  | divisionByZero => text "division by zero"
  | builtinArgumentCount got want =>
    text "wrong number of arguments. got=" ++ Bytes.ofNat got ++ text ", want=" ++ Bytes.ofNat want
  | noSize kind => text "argument to `size` not supported, got=" ++ kind.name
  | pushTarget kind => text "argument to `push` must be ARRAY, got=" ++ kind.name
  | outputLimit => text "print: output limit reached"
  | raised message => message

/-- Objects refer to their parts, which are shared. A function keeps the scope it was made in. -/
inductive Object where
  | number (value : Float)
  | string (value : Bytes)
  | boolean (value : Bool)
  | null
  | array (elements : List Ref)
  | hash (pairs : Dict Ref)
  | function (params : List Bytes) (body : Block) (scope : Option ScopeId)
  | builtin (builtin : Builtin)
  | error (cause : RuntimeError)

namespace Object

def kind : Object → Kind
  | number _ => .number
  | string _ => .string
  | boolean _ => .boolean
  | null => .null
  | array _ => .array
  | hash _ => .hash
  | function _ _ _ => .function
  | builtin _ => .builtin
  | error _ => .error

/-- Whether the collector can own objects of this type. Truth values, null and the builtins exist
once and for all. -/
def Kind.isManaged : Kind → Bool
  | .boolean | .null | .builtin => false
  | _ => true

def isManaged (o : Object) : Bool :=
  o.kind.isManaged

def inspect : Object → Bytes
  | number v => Number.toText v
  | string s => text "\"" ++ s ++ text "\""
  | boolean true => text "true"
  | boolean false => text "false"
  | null => text "null"
  | array _ => text "array"
  | hash _ => text "hash"
  | function _ _ _ => text "function"
  | builtin _ => text "builtin"
  | error e => text "ERROR: " ++ e.message

end Object

end CornScript
