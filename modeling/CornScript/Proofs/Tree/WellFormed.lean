import CornScript.Tree.Printer

/-! # Well-formed trees

A tree is well-formed if nothing is left out in it, the keys and values of every hash literal pair
up, every operator is one of the language, and every call has one of its three forms. Such a tree
has no defect.
-/

namespace CornScript

inductive UnaryOp.Known : UnaryOp → Prop where
  | neg : Known .neg
  | not : Known .not

def BinaryOp.Known (op : BinaryOp) : Prop :=
  op ∈ all

instance (op : BinaryOp) : Decidable op.Known :=
  inferInstanceAs (Decidable (op ∈ BinaryOp.all))

mutual

inductive Expr.WellFormed : Expr → Prop where
  | ident (id : Ident) : Expr.WellFormed (.ident id)
  | number (token : Token) (value : Float) : Expr.WellFormed (.number token value)
  | string (token : Token) (value : Bytes) : Expr.WellFormed (.string token value)
  | boolean (token : Token) (value : Bool) : Expr.WellFormed (.boolean token value)
  | null (token : Token) : Expr.WellFormed (.null token)
  | array {token : Token} {es : List Expr} :
    (∀ e ∈ es, Expr.WellFormed e) → Expr.WellFormed (.array token es)
  | hash {token : Token} {ks vs : List Expr} : ks.length = vs.length →
    (∀ k ∈ ks, Expr.WellFormed k) → (∀ v ∈ vs, Expr.WellFormed v) →
    Expr.WellFormed (.hash token ks vs)
  | unary {token : Token} {op : UnaryOp} {e : Expr} : op.Known → Expr.WellFormed e →
    Expr.WellFormed (.unary token op e)
  | binary {token : Token} {l : Expr} {op : BinaryOp} {r : Expr} : op.Known →
    Expr.WellFormed l → Expr.WellFormed r → Expr.WellFormed (.binary token l op r)
  | cond {token : Token} {c : Expr} {b : Block} {alternative : Option Block} :
    Expr.WellFormed c → Block.WellFormed b → (∀ a ∈ alternative, Block.WellFormed a) →
    Expr.WellFormed (.cond token c b alternative)
  | function {token : Token} {params : List Ident} {body : Block} : Block.WellFormed body →
    Expr.WellFormed (.function token params body)
  | call {token : Token} {f : Expr} {args : List Expr} : token.kind = .leftParen →
    Expr.WellFormed f → (∀ a ∈ args, Expr.WellFormed a) → Expr.WellFormed (.call token f args)
  | subscript {token : Token} {x i : Expr} : token.kind = .leftBracket →
    Expr.WellFormed x → Expr.WellFormed i → Expr.WellFormed (.call token x [i])
  | method {token : Token} {name : Ident} {x : Expr} {args : List Expr} : token.kind = .dot →
    Expr.WellFormed x → (∀ a ∈ args, Expr.WellFormed a) →
    Expr.WellFormed (.call token (.ident name) (x :: args))

inductive Block.WellFormed : Block → Prop where
  | mk {token : Token} {body : List Stmt} : (∀ st ∈ body, Stmt.WellFormed st) →
    Block.WellFormed (.mk token body)

inductive Stmt.WellFormed : Stmt → Prop where
  | bind {token : Token} {target : Ident} {value : Expr} : Expr.WellFormed value →
    Stmt.WellFormed (.bind token target value)
  | give {token : Token} {value : Expr} : Expr.WellFormed value →
    Stmt.WellFormed (.give token value)
  | expr {token : Token} {value : Expr} : Expr.WellFormed value →
    Stmt.WellFormed (.expr token value)
  | block {b : Block} : Block.WellFormed b → Stmt.WellFormed (.block b)

end

def Program.WellFormed (p : Program) : Prop :=
  ∀ st ∈ p.body, st.WellFormed

def Node.WellFormed : Node → Prop
  | .program p => p.WellFormed
  | .stmt st => st.WellFormed
  | .expr e => e.WellFormed

/-- Keys and values of a hash literal that are well-formed and pair up. -/
structure Expr.Paired (ks vs : List Expr) : Prop where
  length : ks.length = vs.length
  keys : ∀ k ∈ ks, k.WellFormed
  values : ∀ v ∈ vs, v.WellFormed

theorem Expr.Paired.tail {k v : Expr} {ks vs : List Expr} (h : Paired (k :: ks) (v :: vs)) :
    Paired ks vs where
  length := Nat.succ.inj h.length
  keys e he := h.keys e (List.mem_cons_of_mem _ he)
  values e he := h.values e (List.mem_cons_of_mem _ he)

namespace Expr.WellFormed

variable {token : Token} {e l r c f : Expr} {es ks vs : List Expr} {op : BinaryOp} {b : Block}
  {other : Option Block} {ps : List Ident}

theorem elements (h : WellFormed (.array token es)) : ∀ e ∈ es, e.WellFormed := by
  cases h with
  | array hes => exact hes

theorem paired (h : WellFormed (.hash token ks vs)) : Paired ks vs := by
  cases h with
  | hash hl hk hv => exact ⟨hl, hk, hv⟩

theorem operand {op : UnaryOp} (h : WellFormed (.unary token op e)) : e.WellFormed := by
  cases h with
  | unary _ he => exact he

theorem left (h : WellFormed (.binary token l op r)) : l.WellFormed := by
  cases h with
  | binary _ hl _ => exact hl

theorem right (h : WellFormed (.binary token l op r)) : r.WellFormed := by
  cases h with
  | binary _ _ hr => exact hr

theorem condition (h : WellFormed (.cond token c b other)) : c.WellFormed := by
  cases h with
  | cond hc _ _ => exact hc

theorem consequence (h : WellFormed (.cond token c b other)) : b.WellFormed := by
  cases h with
  | cond _ hb _ => exact hb

theorem alternative (h : WellFormed (.cond token c b other)) : ∀ a ∈ other, a.WellFormed := by
  cases h with
  | cond _ _ ha => exact ha

theorem body (h : WellFormed (.function token ps b)) : b.WellFormed := by
  cases h with
  | function hb => exact hb

theorem callee (h : WellFormed (.call token f es)) : f.WellFormed := by
  cases h with
  | call _ hf _ => exact hf
  | subscript _ hx _ => exact hx
  | method _ _ _ => exact .ident _

theorem args (h : WellFormed (.call token f es)) : ∀ e ∈ es, e.WellFormed := by
  cases h with
  | call _ _ hargs => exact hargs
  | subscript _ _ hi => simpa using hi
  | method _ hx hargs => simpa using ⟨hx, hargs⟩

end Expr.WellFormed

namespace Stmt.WellFormed

variable {token : Token} {target : Ident} {e : Expr} {b : Block}

theorem bound (h : WellFormed (.bind token target e)) : e.WellFormed := by
  cases h with
  | bind he => exact he

theorem given (h : WellFormed (.give token e)) : e.WellFormed := by
  cases h with
  | give he => exact he

theorem value (h : WellFormed (.expr token e)) : e.WellFormed := by
  cases h with
  | expr he => exact he

theorem inner (h : WellFormed (.block b)) : b.WellFormed := by
  cases h with
  | block hb => exact hb

end Stmt.WellFormed

theorem Block.WellFormed.body {token : Token} {body : List Stmt} (h : WellFormed (.mk token body)) :
    ∀ st ∈ body, st.WellFormed := by
  cases h with
  | mk hb => exact hb

namespace Printer

theorem pairDefect?_replicate (count index n : Nat) :
    pairDefect? count index (.replicate n none) (.replicate n none) = none := by
  induction n generalizing index with
  | zero => rfl
  | succ n ih => simpa [List.replicate_succ, pairDefect?] using ih (index + 1)

theorem callDefect?_replicate (kind : Token.Kind) (n : Nat) :
    callDefect? kind none (.replicate n none) = none := by
  unfold callDefect?
  split
  · next heq =>
    cases n with
    | zero => cases heq
    | succ n =>
      cases heq
      simp
  · simp

end Printer

mutual

theorem Expr.WellFormed.defect?_eq_none {e : Expr} (h : e.WellFormed) : e.defect? = none := by
  cases e with
  | missing => cases h
  | ident | number | string | boolean | null => simp [Expr.defect?]
  | array token es => simp [Expr.defect?, Expr.defects_eq_replicate es h.elements]
  | hash token ks vs =>
    rw [Expr.defect?, Expr.defects_eq_replicate ks h.paired.keys,
      Expr.defects_eq_replicate vs h.paired.values, h.paired.length, Printer.pairDefect?_replicate]
  | unary token op e => rw [Expr.defect?, h.operand.defect?_eq_none]
  | binary token l op r =>
    simp [Expr.defect?, h.left.defect?_eq_none, h.right.defect?_eq_none]
  | cond token c b other =>
    cases other with
    | none => simp [Expr.defect?, h.condition.defect?_eq_none, h.consequence.defect?_eq_none]
    | some a =>
      simp [Expr.defect?, h.condition.defect?_eq_none, h.consequence.defect?_eq_none,
        (h.alternative a rfl).defect?_eq_none]
  | function token ps b => rw [Expr.defect?, h.body.defect?_eq_none]
  | call token f es =>
    rw [Expr.defect?, h.callee.defect?_eq_none, Expr.defects_eq_replicate es h.args,
      Printer.callDefect?_replicate]

theorem Expr.defects_eq_replicate (es : List Expr) (h : ∀ e ∈ es, e.WellFormed) :
    Expr.defects es = .replicate es.length none := by
  cases es with
  | nil => simp [Expr.defects]
  | cons e es =>
    rw [Expr.defects, (h e List.mem_cons_self).defect?_eq_none,
      Expr.defects_eq_replicate es fun e' he' => h e' (List.mem_cons_of_mem _ he')]
    rfl

theorem Block.WellFormed.defect?_eq_none {b : Block} (h : b.WellFormed) : b.defect? = none := by
  cases b with
  | mk token body => rw [Block.defect?, Stmt.defectAll?_eq_none body h.body]

theorem Stmt.defectAll?_eq_none (body : List Stmt) (h : ∀ st ∈ body, st.WellFormed) :
    Stmt.defectAll? body = none := by
  cases body with
  | nil => simp [Stmt.defectAll?]
  | cons st rest =>
    simp [Stmt.defectAll?, (h st List.mem_cons_self).defect?_eq_none,
      Stmt.defectAll?_eq_none rest fun st' hst' => h st' (List.mem_cons_of_mem _ hst')]

theorem Stmt.WellFormed.defect?_eq_none {st : Stmt} (h : st.WellFormed) : st.defect? = none := by
  cases st with
  | bind token target e =>
    have he := h.bound
    cases e with
    | missing => cases he
    | _ => simp [Stmt.defect?, he.defect?_eq_none]
  | give token e =>
    have he := h.given
    cases e with
    | missing => cases he
    | _ => simp [Stmt.defect?, he.defect?_eq_none]
  | expr token e =>
    have he := h.value
    cases e with
    | missing => cases he
    | _ => simp [Stmt.defect?, he.defect?_eq_none]
  | block b => rw [Stmt.defect?, h.inner.defect?_eq_none]

end

end CornScript
