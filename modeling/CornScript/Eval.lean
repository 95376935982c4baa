import CornScript.Eval.Builtins
import CornScript.Eval.Operators

/-! # Evaluation

`Expr.step` says how an expression is evaluated when its parts can be, and `Expr.eval` closes the
recursion: its first argument bounds the depth of nested evaluation. Operands, elements and
arguments are evaluated from left to right, and the first abrupt end is the end of all.

Collection happens only between the statements of a program, with the value of the last statement as
an additional root: what a statement in progress holds is not reachable from any scope.
-/

namespace CornScript

namespace Eval

def all (ev : Expr → Eval Ref) : List Expr → Eval (List Ref)
  | [] => return []
  | e :: es => do
    let r ← ev e
    return r :: (← all ev es)

/-- The pairs of a hash literal, each key before its value. `index` counts the keys before these. -/
def pairs (ev : Expr → Eval Ref) (count : Nat) :
    Nat → List Expr → List Expr → Dict Ref → Eval (Dict Ref)
  | _, [], _, d => return d
  | index, k :: ks, values, d => do
    let key ← ev k
    match ← read key with
    | .string name => match values with
      | [] => throw (.defect (.unpaired index count))
      | v :: vs =>
        let value ← ev v
        pairs ev count (index + 1) ks vs (d.insert name value)
    | _ => fail .badKey

/-- The value of a name: a binding, or else a builtin. -/
def identifier (scope : ScopeId) (name : Bytes) : Eval Ref := do
  match (← get).store.lookup scope name with
  | some r => return r
  | none => match Builtin.ofName? name with
    | some b => return .ofBuiltin b
    | none => fail (.undefined name)

/-- Binds a name in a scope. The names of builtins cannot be bound. -/
def bind (scope : ScopeId) (name : Bytes) (r : Ref) : Eval Ref := do
  if (Builtin.ofName? name).isSome then fail (.reserved name)
  else
    modify fun s => { s with store := s.store.bind scope name r }
    let o ← read r
    trace fun _ => text "eval let " ++ name ++ text " to " ++ o.inspect
    return r

def count : Eval Unit :=
  modify fun s => { s with statements := s.statements + 1 }

end Eval

mutual

def Stmt.run (ev : Expr → Eval Ref) (scope : ScopeId) : Stmt → Eval Ref
  | .bind _ target value => do
    let unbound := fun (e : Bytes) => text "let " ++ target.name ++ text " not bound: " ++ e
    let r ← Eval.traceFailure unbound (ev value)
    Eval.bind scope target.name r
  | .give _ value => do
    let r ← ev value
    throw (.returning r)
  | .expr _ value => ev value
  | .block b => b.run ev scope

def Block.run (ev : Expr → Eval Ref) (scope : ScopeId) : Block → Eval Ref
  | .mk _ body => Stmt.runAll ev scope .null body

def Stmt.runAll (ev : Expr → Eval Ref) (scope : ScopeId) (last : Ref) : List Stmt → Eval Ref
  | [] => return last
  | s :: rest => do
    Eval.count
    let r ← s.run ev scope
    Stmt.runAll ev scope r rest

end

namespace Eval

def bindParams (store : Store) (scope : ScopeId) : List (Bytes × Ref) → Store
  | [] => store
  | (name, r) :: rest => bindParams (store.bind scope name r) scope rest

/-- Runs the body of a function in a new scope inside the scope of the function. -/
def apply (ev : ScopeId → Expr → Eval Ref) (params : List Bytes) (body : Block)
    (closure : Option ScopeId) (args : List Ref) : Eval Ref := do
  if args.length ≠ params.length then fail (.argumentCount args.length params.length)
  else
    let scope ← modifyGet fun s =>
      let (scope, store) := s.store.newScope closure
      (scope, { s with store := bindParams store scope (params.zip args) })
    catchReturn (body.run (ev scope) scope)

def element (elements : List Ref) : List Ref → Eval Ref
  | [arg] => do
    match (← read arg).offset elements.length with
    | .ok i => return elements.getD i .null
    | .error e => fail e
  | args => fail (.argumentCount args.length 1)

/-- One byte of a string: a new string. -/
def byteAt (s : Bytes) : List Ref → Eval Ref
  | [arg] => do
    match (← read arg).offset s.length with
    | .ok i => alloc (.string ((s.drop i).take 1))
    | .error e => fail e
  | args => fail (.argumentCount args.length 1)

/-- The value of a key: null if there is none. -/
def entry (pairs : Dict Ref) : List Ref → Eval Ref
  | [arg] => do
    match ← read arg with
    | .string k => return (pairs.get? k).getD .null
    | _ => fail .badSubscript
  | args => fail (.argumentCount args.length 1)

def call (ev : ScopeId → Expr → Eval Ref) (callee : Ref) (args : List Ref) : Eval Ref := do
  match ← read callee with
  | .function params body closure => apply ev params body closure args
  | .builtin b =>
    trace fun _ => text "call builtin " ++ b.name ++ text " with " ++ Bytes.ofNat args.length ++
      text " args"
    b.run args
  | .array elements => element elements args
  | .string s => byteAt s args
  | .hash pairs => entry pairs args
  | _ => fail .notCallable

def choose (ev : Expr → Eval Ref) (scope : ScopeId) (condition : Expr) (consequence : Block)
    (alternative : Option Block) : Eval Ref := do
  let r ← ev condition
  match ← read r, alternative with
  | .boolean true, _ =>
    trace fun _ => text "if " ++ condition.print ++ text " is true, picking consequence"
    consequence.run ev scope
  | .boolean false, some block =>
    trace fun _ => text "if " ++ condition.print ++ text " is false, picking alternative"
    block.run ev scope
  | .boolean false, none => return .null
  | _, _ => fail .badCondition

/-- An operator whose right operand is evaluated only if the left one is not `decisive`. -/
def shortCircuit (ev : Expr → Eval Ref) (decisive : Bool) (left right : Expr) : Eval Ref := do
  let l ← ev left
  match ← read l with
  | .boolean b =>
    if b = decisive then return .ofBool b
    else
      let r ← ev right
      match ← read r with
      | .boolean _ => return r
      | _ => fail .rightNotBoolean
  | _ => fail .leftNotBoolean

end Eval

/-- Evaluates an expression in a scope, given how its parts are evaluated. -/
def Expr.step (ev : ScopeId → Expr → Eval Ref) (scope : ScopeId) : Expr → Eval Ref
  | .missing => throw (.defect .missing)
  | .ident id => Eval.identifier scope id.name
  | .number _ v => Eval.alloc (.number v)
  | .string _ v => Eval.alloc (.string v)
  | .boolean _ b => return .ofBool b
  | .null _ => return .null
  | .array _ es => do Eval.alloc (.array (← Eval.all (ev scope) es))
  | .hash _ ks vs => do Eval.alloc (.hash (← Eval.pairs (ev scope) vs.length 0 ks vs .empty))
  | .unary _ op e => do
    let r ← ev scope e
    Eval.ofResult (op.apply (← Eval.read r))
  | .binary _ l .and r => Eval.shortCircuit (ev scope) false l r
  | .binary _ l .or r => Eval.shortCircuit (ev scope) true l r
  | .binary _ l op r => do
    let left ← ev scope l
    let right ← ev scope r
    Eval.ofResult (op.apply (← Eval.read left) (← Eval.read right))
  | .cond _ c b a => Eval.choose (ev scope) scope c b a
  | .function _ ps body => Eval.alloc (.function (ps.map (·.name)) body (some scope))
  | .call t f args =>
    if t.kind = .dot then
      match Builtin.ofName? f.print with
      | none => Eval.fail (.unknownMethod f.print)
      | some b => do
        let rs ← Eval.all (ev scope) args
        Eval.trace fun _ => text "call builtin " ++ b.name ++ text " as method with " ++
          Bytes.ofNat rs.length ++ text " args"
        b.run rs
    else do
      let callee ← ev scope f
      let rs ← Eval.all (ev scope) args
      Eval.call ev callee rs

/-- Evaluates an expression, at most `fuel` evaluations deep. -/
def Expr.eval : Nat → ScopeId → Expr → Eval Ref
  | 0 => fun _ _ => throw .outOfFuel
  | fuel + 1 => Expr.step (Expr.eval fuel)

/-- Runs the statements of a program, and collects between them. -/
def Program.runAll (ev : Expr → Eval Ref) (scope : ScopeId) (last : Ref) : List Stmt → Eval Ref
  | [] => return last
  | s :: rest => do
    Eval.count
    let r ← s.run ev scope
    modify fun state => state.collectIfDue scope r
    Program.runAll ev scope r rest

def Program.run (fuel : Nat) (scope : ScopeId) (p : Program) : Eval Ref := do
  Eval.trace fun _ => text "eval program (" ++ Bytes.ofNat p.body.length ++ text " statements)"
  Program.runAll (Expr.eval fuel scope) scope .null p.body

def Node.run (fuel : Nat) (scope : ScopeId) : Node → Eval Ref
  | .program p => p.run fuel scope
  | .stmt s => s.run (Expr.eval fuel scope) scope
  | .expr e => Expr.eval fuel scope e

inductive Outcome where
  | value (r : Ref)
  | defect (d : Defect)
  | outOfFuel
  deriving DecidableEq, Repr

/-- A return at the top and an error both end with their object as the value. -/
def Outcome.ofResult : EStateM.Result Abrupt State Ref → Outcome × State
  | .ok r s => (.value r, s)
  | .error (.returning r) s => (.value r, s)
  | .error (.failed r) s => (.value r, s)
  | .error (.defect d) s => (.defect d, s)
  | .error .outOfFuel s => (.outOfFuel, s)

def Node.eval (fuel : Nat) (scope : ScopeId) (node : Node) (s : State) : Outcome × State :=
  Outcome.ofResult (node.run fuel scope s)

end CornScript
