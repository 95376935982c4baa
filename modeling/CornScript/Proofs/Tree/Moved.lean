import CornScript.SyntaxError
import CornScript.Tree.Printer

/-! # Trees apart from places

Moving a tree changes where its tokens stand and nothing else. Two trees are equal apart from places
if they are equal once all their tokens are moved to one place. A tree that is moved prints the
same.
-/

namespace CornScript

variable (f : Pos → Pos)

def Token.moved (t : Token) : Token :=
  { t with pos := f t.pos }

/-- What a token says, wherever it stands. -/
def Token.content (t : Token) : Token.Kind × Bytes := (t.kind, t.literal)

def Ident.moved (id : Ident) : Ident :=
  { id with token := id.token.moved f }

mutual

def Expr.moved : Expr → Expr
  | .missing => .missing
  | .ident id => .ident (id.moved f)
  | .number t v => .number (t.moved f) v
  | .string t v => .string (t.moved f) v
  | .boolean t b => .boolean (t.moved f) b
  | .null t => .null (t.moved f)
  | .array t es => .array (t.moved f) (Expr.movedAll es)
  | .hash t ks vs => .hash (t.moved f) (Expr.movedAll ks) (Expr.movedAll vs)
  | .unary t op e => .unary (t.moved f) op e.moved
  | .binary t l op r => .binary (t.moved f) l.moved op r.moved
  | .cond t c b none => .cond (t.moved f) c.moved b.moved none
  | .cond t c b (some a) => .cond (t.moved f) c.moved b.moved (some a.moved)
  | .function t ps b => .function (t.moved f) (ps.map (Ident.moved f)) b.moved
  | .call t e args => .call (t.moved f) e.moved (Expr.movedAll args)

def Expr.movedAll : List Expr → List Expr
  | [] => []
  | e :: es => e.moved :: Expr.movedAll es

def Block.moved : Block → Block
  | .mk t body => .mk (t.moved f) (Stmt.movedAll body)

def Stmt.movedAll : List Stmt → List Stmt
  | [] => []
  | st :: rest => st.moved :: Stmt.movedAll rest

def Stmt.moved : Stmt → Stmt
  | .bind t target v => .bind (t.moved f) (target.moved f) v.moved
  | .give t v => .give (t.moved f) v.moved
  | .expr t v => .expr (t.moved f) v.moved
  | .block b => .block b.moved

end

def Program.moved (p : Program) : Program :=
  ⟨p.body.map (Stmt.moved f)⟩

def SyntaxError.moved (e : SyntaxError) : SyntaxError :=
  { e with pos := f e.pos }

def Pos.forget (_ : Pos) : Pos := .start

def Program.unplaced (p : Program) : Program := p.moved .forget

variable {f}

@[simp] theorem Token.kind_moved (t : Token) : (t.moved f).kind = t.kind := rfl

@[simp] theorem Token.literal_moved (t : Token) : (t.moved f).literal = t.literal := rfl

@[simp] theorem Ident.name_moved (id : Ident) : (id.moved f).name = id.name := rfl

@[simp] theorem SyntaxError.message_moved (e : SyntaxError) : (e.moved f).message = e.message := rfl

@[simp] theorem SyntaxError.context_moved (e : SyntaxError) : (e.moved f).context = e.context := rfl

@[simp] theorem Expr.movedAll_eq_map (es : List Expr) :
    Expr.movedAll f es = es.map (Expr.moved f) := by
  induction es with
  | nil => simp [Expr.movedAll]
  | cons e es ih => simp [Expr.movedAll, ih]

@[simp] theorem Stmt.movedAll_eq_map (body : List Stmt) :
    Stmt.movedAll f body = body.map (Stmt.moved f) := by
  induction body with
  | nil => simp [Stmt.movedAll]
  | cons st rest ih => simp [Stmt.movedAll, ih]

theorem Expr.moved_cond (t : Token) (c : Expr) (b : Block) (a : Option Block) :
    (Expr.cond t c b a).moved f =
      .cond (t.moved f) (c.moved f) (b.moved f) (a.map (Block.moved f)) := by
  cases a <;> simp [Expr.moved]

@[simp] theorem Ident.map_name_moved (ps : List Ident) :
    (ps.map (Ident.moved f)).map (·.name) = ps.map (·.name) := by
  simp

section Identity

theorem Token.moved_id (t : Token) : t.moved id = t := rfl

theorem Ident.moved_id (i : Ident) : i.moved id = i := rfl

mutual

@[simp] theorem Expr.moved_id (e : Expr) : e.moved id = e := by
  cases e with
  | missing | ident | number | string | boolean | null =>
    simp [Expr.moved, Token.moved_id, Ident.moved_id]
  | array t es => simp only [Expr.moved, Expr.movedAll_id es, Token.moved_id]
  | hash t ks vs => simp only [Expr.moved, Expr.movedAll_id ks, Expr.movedAll_id vs, Token.moved_id]
  | unary t op e => simp only [Expr.moved, Expr.moved_id e, Token.moved_id]
  | binary t l op r => simp only [Expr.moved, Expr.moved_id l, Expr.moved_id r, Token.moved_id]
  | cond t c b a =>
    cases a with
    | none => simp only [Expr.moved, Expr.moved_id c, Block.moved_id b, Token.moved_id]
    | some a =>
      simp only [Expr.moved, Expr.moved_id c, Block.moved_id b, Block.moved_id a, Token.moved_id]
  | function t ps b =>
    have hps : ps.map (Ident.moved id) = ps := List.map_id ps
    simp only [Expr.moved, Block.moved_id b, Token.moved_id, hps]
  | call t e args => simp only [Expr.moved, Expr.moved_id e, Expr.movedAll_id args, Token.moved_id]

theorem Expr.movedAll_id (es : List Expr) : Expr.movedAll id es = es := by
  cases es with
  | nil => simp [Expr.movedAll]
  | cons e es => simp only [Expr.movedAll, Expr.moved_id e, Expr.movedAll_id es]

@[simp] theorem Block.moved_id (b : Block) : b.moved id = b := by
  cases b with
  | mk t body => simp only [Block.moved, Stmt.movedAll_id body, Token.moved_id]

theorem Stmt.movedAll_id (body : List Stmt) : Stmt.movedAll id body = body := by
  cases body with
  | nil => simp [Stmt.movedAll]
  | cons st rest => simp only [Stmt.movedAll, Stmt.moved_id st, Stmt.movedAll_id rest]

@[simp] theorem Stmt.moved_id (st : Stmt) : st.moved id = st := by
  cases st with
  | bind t target v => simp only [Stmt.moved, Expr.moved_id v, Token.moved_id, Ident.moved_id]
  | give t v => simp only [Stmt.moved, Expr.moved_id v, Token.moved_id]
  | expr t v => simp only [Stmt.moved, Expr.moved_id v, Token.moved_id]
  | block b => simp only [Stmt.moved, Block.moved_id b]

end

@[simp] theorem Program.moved_id (p : Program) : p.moved id = p := by
  have h : (Stmt.moved id : Stmt → Stmt) = id := funext Stmt.moved_id
  simp [Program.moved, h]

end Identity

section Print

mutual

/-- What is printed does not tell where the tokens stand. -/
@[simp] theorem Expr.print_moved (e : Expr) : (e.moved f).print = e.print := by
  cases e with
  | missing | ident | number | string | boolean | null => simp [Expr.moved, Expr.print]
  | array t es => simp only [Expr.moved, Expr.print, Expr.printAll_movedAll es]
  | hash t ks vs =>
    simp only [Expr.moved, Expr.print, Expr.printAll_movedAll ks, Expr.printAll_movedAll vs]
  | unary t op e => simp only [Expr.moved, Expr.print, Expr.print_moved e]
  | binary t l op r => simp only [Expr.moved, Expr.print, Expr.print_moved l, Expr.print_moved r]
  | cond t c b a =>
    cases a with
    | none => simp only [Expr.moved, Expr.print, Expr.print_moved c, Block.print_moved b]
    | some a =>
      simp only [Expr.moved, Expr.print, Expr.print_moved c, Block.print_moved b,
        Block.print_moved a]
  | function t ps b =>
    simp only [Expr.moved, Expr.print, Block.print_moved b, Token.literal_moved,
      Ident.map_name_moved]
  | call t e args =>
    simp only [Expr.moved, Expr.print, Expr.print_moved e, Expr.printAll_movedAll args,
      Token.kind_moved]

theorem Expr.printAll_movedAll (es : List Expr) :
    Expr.printAll (Expr.movedAll f es) = Expr.printAll es := by
  cases es with
  | nil => simp [Expr.movedAll, Expr.printAll]
  | cons e es =>
    simp only [Expr.movedAll, Expr.printAll, Expr.print_moved e, Expr.printAll_movedAll es]

theorem Block.print_moved (b : Block) : (b.moved f).print = b.print := by
  cases b with
  | mk t body => simp only [Block.moved, Block.print, Stmt.printAll_movedAll body]

theorem Stmt.printAll_movedAll (body : List Stmt) :
    Stmt.printAll (Stmt.movedAll f body) = Stmt.printAll body := by
  cases body with
  | nil => simp [Stmt.movedAll, Stmt.printAll]
  | cons st rest =>
    simp only [Stmt.movedAll, Stmt.printAll, Stmt.print_moved st, Stmt.printAll_movedAll rest]

theorem Stmt.print_moved (st : Stmt) : (st.moved f).print = st.print := by
  cases st with
  | bind t target v =>
    simp only [Stmt.moved, Stmt.print, Expr.print_moved v, Token.literal_moved, Ident.name_moved]
  | give t v => simp only [Stmt.moved, Stmt.print, Expr.print_moved v, Token.literal_moved]
  | expr t v => simp only [Stmt.moved, Stmt.print, Expr.print_moved v]
  | block b => simp only [Stmt.moved, Stmt.print, Block.print_moved b]

end

end Print

end CornScript
