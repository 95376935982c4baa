import CornScript.Session

/-! # Records of an evaluation

An evaluation can be run so that it writes down what happens: which expressions are evaluated, what
is created, bound, passed, written and collected, when calls begin and end, and which value a return
statement gives. Each event is kept with the state right after it.

A recorded evaluation does what the evaluation does. The steps that evaluate no expression are the
very same ones, and what they have done is read off the states around them.
-/

namespace CornScript

inductive Event where
  /-- The evaluation of an expression begins. -/
  | evaluate (scope : ScopeId) (e : Expr)
  /-- A statement is counted. -/
  | count
  | create (r : Ref) (o : Object)
  | write (line : Bytes)
  | bind (scope : ScopeId) (name : Bytes) (r : Ref)
  /-- A function, a builtin or a container is called with these arguments. -/
  | pass (args : List Ref)
  /-- The body of a function begins in a scope of its own, where its parameters are bound. -/
  | enter (scope : ScopeId) (closure : Option ScopeId) (params : List (Bytes × Ref))
  /-- A return statement that runs in this scope has its value. -/
  | give (scope : ScopeId) (r : Ref)
  /-- The body of a function that runs in this scope is left with this value. -/
  | leave (scope : ScopeId) (r : Ref)
  | collect (root : ScopeId) (r : Ref)

structure Moment where
  event : Event
  state : State

def Recorded (α : Type) : Type :=
  State → List Moment × EStateM.Result Abrupt State α

def Eval.stateOf {α : Type} : EStateM.Result Abrupt State α → State
  | .ok _ s => s
  | .error _ s => s

namespace Recorded

variable {α β : Type}

instance : Monad Recorded where
  pure a := fun s => ([], .ok a s)
  bind x f := fun s =>
    match x s with
    | (before, .ok a t) => (before ++ (f a t).1, (f a t).2)
    | (before, .error e t) => (before, .error e t)

/-- A step in which nothing happens that is written down. -/
def silently (x : Eval α) : Recorded α := fun s => ([], x s)

def note (event : Event) : Recorded Unit := fun s => ([⟨event, s⟩], .ok () s)

/-- What a step that leads from `s` to `t` has done: it has created an object or written a line. -/
def changes (s t : State) : List Moment :=
  if s.store.objects.size < t.store.objects.size then
    [⟨.create ⟨s.store.objects.size⟩ (t.store.get ⟨s.store.objects.size⟩), t⟩]
  else if s.output.writes.length < t.output.writes.length then
    [⟨.write (t.output.writes.headD []), t⟩]
  else []

def leaf (x : Eval α) : Recorded α := fun s => (changes s (Eval.stateOf (x s)), x s)

/-- A step that is an event of its own unless it fails. -/
def doing (event : α → Event) (x : Eval α) : Recorded α := fun s =>
  match x s with
  | .ok a t => ([⟨event a, t⟩], .ok a t)
  | .error e t => (changes s t, .error e t)

def catchReturn (x : Recorded Ref) : Recorded Ref := fun s =>
  ((x s).1, Eval.catchReturn (fun _ => (x s).2) s)

def traceFailure (message : Bytes → Bytes) (x : Recorded Ref) : Recorded Ref := fun s =>
  ((x s).1, Eval.traceFailure message (fun _ => (x s).2) s)

def all (ev : Expr → Recorded Ref) : List Expr → Recorded (List Ref)
  | [] => return []
  | e :: es => do
    let r ← ev e
    return r :: (← all ev es)

def pairs (ev : Expr → Recorded Ref) (count : Nat) :
    Nat → List Expr → List Expr → Dict Ref → Recorded (Dict Ref)
  | _, [], _, d => return d
  | index, k :: ks, values, d => do
    let key ← ev k
    match ← silently (Eval.read key) with
    | .string name => match values with
      | [] => silently (throw (.defect (.unpaired index count)))
      | v :: vs =>
        let value ← ev v
        pairs ev count (index + 1) ks vs (d.insert name value)
    | _ => leaf (Eval.fail .badKey)

mutual

def stmt (ev : Expr → Recorded Ref) (scope : ScopeId) : Stmt → Recorded Ref
  | .bind _ target value => do
    let unbound := fun (e : Bytes) => text "let " ++ target.name ++ text " not bound: " ++ e
    let r ← traceFailure unbound (ev value)
    doing (fun _ => .bind scope target.name r) (Eval.bind scope target.name r)
  | .give _ value => do
    let r ← ev value
    note (.give scope r)
    silently (throw (.returning r))
  | .expr _ value => ev value
  | .block b => block ev scope b

def block (ev : Expr → Recorded Ref) (scope : ScopeId) : Block → Recorded Ref
  | .mk _ body => runAll ev scope .null body

def runAll (ev : Expr → Recorded Ref) (scope : ScopeId) (last : Ref) : List Stmt → Recorded Ref
  | [] => return last
  | s :: rest => do
    doing (fun _ => .count) Eval.count
    let r ← stmt ev scope s
    runAll ev scope r rest

end

def enter (closure : Option ScopeId) (params : List (Bytes × Ref)) : Recorded ScopeId :=
  doing (fun scope => .enter scope closure params) <| modifyGet fun s =>
    let (scope, store) := s.store.newScope closure
    (scope, { s with store := Eval.bindParams store scope params })

/-- Runs the body of a function up to its end or to a return. -/
def inCall (scope : ScopeId) (x : Recorded Ref) : Recorded Ref := do
  let r ← catchReturn x
  note (.leave scope r)
  return r

def apply (ev : ScopeId → Expr → Recorded Ref) (params : List Bytes) (body : Block)
    (closure : Option ScopeId) (args : List Ref) : Recorded Ref := do
  if args.length ≠ params.length then leaf (Eval.fail (.argumentCount args.length params.length))
  else
    let scope ← enter closure (params.zip args)
    inCall scope (block (ev scope) scope body)

def call (ev : ScopeId → Expr → Recorded Ref) (callee : Ref) (args : List Ref) : Recorded Ref := do
  note (.pass args)
  match ← silently (Eval.read callee) with
  | .function params body closure => apply ev params body closure args
  | .builtin b =>
    silently (Eval.trace fun _ => text "call builtin " ++ b.name ++ text " with " ++
      Bytes.ofNat args.length ++ text " args")
    leaf (b.run args)
  | .array elements => leaf (Eval.element elements args)
  | .string s => leaf (Eval.byteAt s args)
  | .hash pairs => leaf (Eval.entry pairs args)
  | _ => leaf (Eval.fail .notCallable)

def choose (ev : Expr → Recorded Ref) (scope : ScopeId) (condition : Expr) (consequence : Block)
    (alternative : Option Block) : Recorded Ref := do
  let r ← ev condition
  match ← silently (Eval.read r), alternative with
  | .boolean true, _ =>
    silently (Eval.trace fun _ =>
      text "if " ++ condition.print ++ text " is true, picking consequence")
    block ev scope consequence
  | .boolean false, some alternative =>
    silently (Eval.trace fun _ =>
      text "if " ++ condition.print ++ text " is false, picking alternative")
    block ev scope alternative
  | .boolean false, none => return .null
  | _, _ => leaf (Eval.fail .badCondition)

def shortCircuit (ev : Expr → Recorded Ref) (decisive : Bool) (left right : Expr) :
    Recorded Ref := do
  let l ← ev left
  match ← silently (Eval.read l) with
  | .boolean b =>
    if b = decisive then return .ofBool b
    else
      let r ← ev right
      match ← silently (Eval.read r) with
      | .boolean _ => return r
      | _ => leaf (Eval.fail .rightNotBoolean)
  | _ => leaf (Eval.fail .leftNotBoolean)

def step (ev : ScopeId → Expr → Recorded Ref) (scope : ScopeId) : Expr → Recorded Ref
  | .missing => silently (throw (.defect .missing))
  | .ident id => leaf (Eval.identifier scope id.name)
  | .number _ v => leaf (Eval.alloc (.number v))
  | .string _ v => leaf (Eval.alloc (.string v))
  | .boolean _ b => return .ofBool b
  | .null _ => return .null
  | .array _ es => do
    let rs ← all (ev scope) es
    leaf (Eval.alloc (.array rs))
  | .hash _ ks vs => do
    let d ← pairs (ev scope) vs.length 0 ks vs .empty
    leaf (Eval.alloc (.hash d))
  | .unary _ op e => do
    let r ← ev scope e
    let o ← silently (Eval.read r)
    leaf (Eval.ofResult (op.apply o))
  | .binary _ l .and r => shortCircuit (ev scope) false l r
  | .binary _ l .or r => shortCircuit (ev scope) true l r
  | .binary _ l op r => do
    let left ← ev scope l
    let right ← ev scope r
    let o ← silently (Eval.read left)
    let o' ← silently (Eval.read right)
    leaf (Eval.ofResult (op.apply o o'))
  | .cond _ c b a => choose (ev scope) scope c b a
  | .function _ ps body => leaf (Eval.alloc (.function (ps.map (·.name)) body (some scope)))
  | .call t f args =>
    if t.kind = .dot then
      match Builtin.ofName? f.print with
      | none => leaf (Eval.fail (.unknownMethod f.print))
      | some b => do
        let rs ← all (ev scope) args
        note (.pass rs)
        silently (Eval.trace fun _ => text "call builtin " ++ b.name ++ text " as method with " ++
          Bytes.ofNat rs.length ++ text " args")
        leaf (b.run rs)
    else do
      let callee ← ev scope f
      let rs ← all (ev scope) args
      call ev callee rs

def eval : Nat → ScopeId → Expr → Recorded Ref
  | 0 => fun _ _ => silently (throw .outOfFuel)
  | fuel + 1 => fun scope e => do
    note (.evaluate scope e)
    step (eval fuel) scope e

def collectIfDue (scope : ScopeId) (r : Ref) : Recorded Unit := fun s =>
  let t := s.collectIfDue scope r
  (if s.statements < s.threshold then [] else [⟨.collect scope r, t⟩], .ok () t)

def statements (ev : Expr → Recorded Ref) (scope : ScopeId) (last : Ref) :
    List Stmt → Recorded Ref
  | [] => return last
  | s :: rest => do
    doing (fun _ => .count) Eval.count
    let r ← stmt ev scope s
    collectIfDue scope r
    statements ev scope r rest

def program (fuel : Nat) (scope : ScopeId) (p : Program) : Recorded Ref := do
  silently (Eval.trace fun _ =>
    text "eval program (" ++ Bytes.ofNat p.body.length ++ text " statements)")
  statements (eval fuel scope) scope .null p.body

end Recorded

def Node.record (fuel : Nat) (scope : ScopeId) : Node → Recorded Ref
  | .program p => Recorded.program fuel scope p
  | .stmt s => Recorded.stmt (Recorded.eval fuel scope) scope s
  | .expr e => Recorded.eval fuel scope e

end CornScript
