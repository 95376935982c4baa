import CornScript.Proofs.Parser.Bound
import CornScript.Proofs.Tree.Moved

/-! # The parser does not look at places

Moving the tokens of an input moves what the parser reads, and changes nothing else: the parser
decides by kinds and literals only. Hence two inputs that are equal apart from places have programs
that are, or errors that are.
-/

namespace CornScript

variable {f : Pos → Pos}

namespace Cursor

def moved (f : Pos → Pos) (c : Cursor) : Cursor :=
  ⟨c.head.moved f, c.rest.map (Token.moved f)⟩

theorem next_moved (c : Cursor) : (c.moved f).next = c.next.moved f := by
  obtain ⟨t, ts⟩ := c
  cases ts <;> rfl

theorem advance_moved (c : Cursor) : (c.moved f).advance = c.advance.moved f := by
  obtain ⟨t, ts⟩ := c
  cases ts <;> rfl

theorem ofTokens_moved (hf : f Pos.start = Pos.start) (tokens : List Token) :
    ofTokens (tokens.map (Token.moved f)) = (ofTokens tokens).moved f := by
  cases tokens with
  | nil => simp [ofTokens, moved, Token.moved, Token.endAt, hf]
  | cons t ts => rfl

end Cursor

namespace Parser

variable {α β : Type} {move : α → α} {move' : β → β} {n : Nat}

/-- Where `p` reads something, `q` reads from the moved tokens the same, moved by `move`, and where
`p` fails, `q` fails with the moved error. -/
structure Travels (f : Pos → Pos) (move : α → α) (p q : Parser α) : Prop where
  ok : ∀ {c a c'}, p c = .ok a c' → q (c.moved f) = .ok (move a) (c'.moved f)
  error : ∀ {c e c'}, p c = .error e c' → q (c.moved f) = .error (e.moved f) (c'.moved f)

namespace Travels

theorem pure {a b : α} (h : b = move a) : Travels f move (Pure.pure a) (Pure.pure b) := by
  subst h
  constructor
  · rintro _ _ _ ⟨⟩
    rfl
  · nofun

theorem bind {p q : Parser α} {k l : α → Parser β} (hp : Travels f move p q)
    (hk : ∀ a, Travels f move' (k a) (l (move a))) : Travels f move' (p >>= k) (q >>= l) := by
  constructor
  · intro c b c' h
    cases hr : p c with
    | ok a c₁ =>
      rw [bind_ok hr] at h
      rw [bind_ok (hp.ok hr)]
      exact (hk a).ok h
    | error e c₁ =>
      rw [bind_error hr] at h
      cases h
  · intro c e c' h
    cases hr : p c with
    | ok a c₁ =>
      rw [bind_ok hr] at h
      rw [bind_ok (hp.ok hr)]
      exact (hk a).error h
    | error e₁ c₁ =>
      rw [bind_error hr] at h
      cases h
      exact bind_error (hp.error hr)

theorem ite {p : Prop} [Decidable p] {x y x' y' : Parser α} (hx : Travels f move x x')
    (hy : Travels f move y y') : Travels f move (if p then x else y) (if p then x' else y') := by
  split
  · exact hx
  · exact hy

theorem throw (e : SyntaxError) : Travels f move (throw e) (throw (e.moved f)) := by
  constructor
  · nofun
  · rintro _ _ _ ⟨⟩
    rfl

theorem head : Travels f (Token.moved f) Parser.head Parser.head := by
  constructor
  · rintro _ _ _ ⟨⟩
    rfl
  · nofun

theorem take : Travels f (Token.moved f) Parser.take Parser.take := by
  constructor
  · rintro c _ _ ⟨⟩
    change EStateM.Result.ok _ (c.moved f).advance = _
    rw [c.advance_moved]
    rfl
  · nofun

theorem look {k l : Token → Parser β} (hk : ∀ t, Travels f move' (k t) (l (t.moved f))) :
    Travels f move' (Parser.head >>= k) (Parser.head >>= l) :=
  head.bind hk

theorem skip {k l : Token → Parser β} (hk : ∀ t, Travels f move' (k t) (l (t.moved f))) :
    Travels f move' (Parser.take >>= k) (Parser.take >>= l) :=
  take.bind hk

theorem refuse (cause : SyntaxError.Cause) :
    Travels f move (Parser.refuse cause) (Parser.refuse cause) := by
  apply Travels.look
  intro t
  dsimp only [Token.kind_moved]
  split
  · exact .throw _
  · exact .throw _

theorem refuseOperand (cause : SyntaxError.Cause) :
    Travels f move (Parser.refuseOperand cause) (Parser.refuseOperand cause) := by
  have hget : Travels f (Cursor.moved f) get get := by
    constructor
    · rintro _ _ _ ⟨⟩
      rfl
    · nofun
  apply hget.bind
  intro c
  rw [Cursor.next_moved]
  dsimp only [Cursor.moved, Token.kind_moved]
  split
  · exact .refuse cause
  · exact .throw _
  · exact .refuse cause

theorem expect (kind : Token.Kind) :
    Travels f (Token.moved f) (Parser.expect kind) (Parser.expect kind) :=
  look fun _ => .ite take (.refuse _)

theorem expectIdent : Travels f (Ident.moved f) Parser.expectIdent Parser.expectIdent :=
  (expect .ident).bind fun _ => .pure rfl

theorem want {kind : Token.Kind} {k l : Token → Parser β}
    (hk : ∀ t, Travels f move' (k t) (l (t.moved f))) :
    Travels f move' (Parser.expect kind >>= k) (Parser.expect kind >>= l) :=
  (expect kind).bind hk

theorem named {k l : Ident → Parser β} (hk : ∀ i, Travels f move' (k i) (l (i.moved f))) :
    Travels f move' (Parser.expectIdent >>= k) (Parser.expectIdent >>= l) :=
  expectIdent.bind hk

theorem moreParams (n : Nat) :
    Travels f (List.map (Ident.moved f)) (Parser.moreParams n) (Parser.moreParams n) := by
  induction n with
  | zero => exact .refuse _
  | succ n ih =>
    refine .look fun t => .ite ?_ (.pure rfl)
    exact .skip fun _ => .named fun p => ih.bind fun ps => .pure rfl

theorem params (n : Nat) :
    Travels f (List.map (Ident.moved f)) (Parser.params n) (Parser.params n) := by
  refine .look fun t => .ite (.skip fun _ => .pure rfl) ?_
  exact .named fun p => (moreParams n).bind fun ps => .want fun _ => .pure rfl

theorem numberLiteral : Travels f (Expr.moved f) Parser.numberLiteral Parser.numberLiteral := by
  apply Travels.look
  intro t
  dsimp only [Token.literal_moved]
  split
  · exact .skip fun _ => .pure (by simp [Expr.moved])
  · exact .refuseOperand _

theorem optionalSemicolon : Travels f id Parser.optionalSemicolon Parser.optionalSemicolon :=
  .look fun _ => .ite (.skip fun _ => .pure rfl) (.pure rfl)

end Travels

structure TravelsAll (f : Pos → Pos) (n : Nat) : Prop where
  expr : ∀ level, Travels f (Expr.moved f) (expr n level) (expr n level)
  operand : Travels f (Expr.moved f) (operand n) (operand n)
  operators : ∀ level left,
    Travels f (Expr.moved f) (operators n level left) (operators n level (left.moved f))
  exprList : ∀ close, Travels f (List.map (Expr.moved f)) (exprList n close) (exprList n close)
  moreExprs : Travels f (List.map (Expr.moved f)) (moreExprs n) (moreExprs n)
  hashPairs : Travels f (List.map (Prod.map (Expr.moved f) (Expr.moved f))) (hashPairs n)
    (hashPairs n)
  block : Travels f (Block.moved f) (block n) (block n)
  blockBody : Travels f (List.map (Stmt.moved f)) (blockBody n) (blockBody n)
  stmt : Travels f (Stmt.moved f) (stmt n) (stmt n)

namespace TravelsAll

theorem expr_succ (h : TravelsAll f n) (level : Level) :
    Travels f (Expr.moved f) (Parser.expr (n + 1) level) (Parser.expr (n + 1) level) :=
  h.operand.bind fun first => (h.operators level first).bind fun _ =>
    .look fun _ => .ite (.refuse _) (.pure rfl)

theorem exprList_succ (h : TravelsAll f n) (close : Token.Kind) :
    Travels f (List.map (Expr.moved f)) (Parser.exprList (n + 1) close)
      (Parser.exprList (n + 1) close) := by
  refine .look fun t => .ite (.skip fun _ => .pure rfl) ?_
  exact (h.expr _).bind fun e => h.moreExprs.bind fun es => .want fun _ => .pure rfl

theorem moreExprs_succ (h : TravelsAll f n) :
    Travels f (List.map (Expr.moved f)) (Parser.moreExprs (n + 1)) (Parser.moreExprs (n + 1)) := by
  refine .look fun t => .ite ?_ (.pure rfl)
  exact .skip fun _ => (h.expr _).bind fun e => h.moreExprs.bind fun es => .pure rfl

theorem hashPairs_succ (h : TravelsAll f n) :
    Travels f (List.map (Prod.map (Expr.moved f) (Expr.moved f))) (Parser.hashPairs (n + 1))
      (Parser.hashPairs (n + 1)) := by
  refine (h.expr _).bind fun k => .want fun _ => (h.expr _).bind fun v => ?_
  refine .look fun t => .ite ?_ (.pure rfl)
  exact .skip fun _ => h.hashPairs.bind fun ps => .pure rfl

theorem block_succ (h : TravelsAll f n) :
    Travels f (Block.moved f) (Parser.block (n + 1)) (Parser.block (n + 1)) :=
  .want fun t => h.blockBody.bind fun body => .pure (by simp [Block.moved])

theorem blockBody_succ (h : TravelsAll f n) :
    Travels f (List.map (Stmt.moved f)) (Parser.blockBody (n + 1)) (Parser.blockBody (n + 1)) := by
  apply Travels.look
  intro t
  dsimp only [Token.kind_moved]
  split
  · exact .skip fun _ => .pure rfl
  · exact .refuse _
  · exact h.stmt.bind fun st => h.blockBody.bind fun body => .pure rfl

theorem stmt_succ (h : TravelsAll f n) :
    Travels f (Stmt.moved f) (Parser.stmt (n + 1)) (Parser.stmt (n + 1)) := by
  apply Travels.look
  intro t
  dsimp only [Token.kind_moved]
  split
  · refine .skip fun _ => .named fun target => .want fun _ => ?_
    refine (h.expr _).bind fun v => Travels.optionalSemicolon.bind fun _ => .pure ?_
    simp [Stmt.moved]
  · refine .skip fun _ => (h.expr _).bind fun v => Travels.optionalSemicolon.bind fun _ => ?_
    exact .pure (by simp [Stmt.moved])
  · refine (h.expr _).bind fun v => Travels.optionalSemicolon.bind fun _ => .pure ?_
    simp [Stmt.moved]

theorem operators_succ (h : TravelsAll f n) (level : Level) (left : Expr) :
    Travels f (Expr.moved f) (Parser.operators (n + 1) level left)
      (Parser.operators (n + 1) level (left.moved f)) := by
  apply Travels.look
  intro t
  dsimp only [Token.kind_moved]
  split
  · refine .skip fun _ => (h.exprList _).bind fun args => ?_
    simpa [Expr.moved] using h.operators level (.call t left args)
  · refine .skip fun _ => .look fun close => .ite (.refuse _) ?_
    refine (h.expr _).bind fun index => .want fun _ => ?_
    simpa [Expr.moved] using h.operators level (.call t left [index])
  · refine .skip fun _ => .named fun name => .want fun _ => ?_
    refine (h.exprList _).bind fun args => ?_
    simpa [Expr.moved] using h.operators level (.call t (.ident name) (left :: args))
  · split
    · exact .pure rfl
    · next op own _ =>
      refine .ite ?_ (.pure rfl)
      refine .skip fun _ => (h.expr own).bind fun right => ?_
      simpa [Expr.moved] using h.operators level (.binary t left op right)

theorem operand_succ (h : TravelsAll f n) :
    Travels f (Expr.moved f) (Parser.operand (n + 1)) (Parser.operand (n + 1)) := by
  apply Travels.look
  intro t
  dsimp only [Token.kind_moved]
  split
  case h_2 => exact .numberLiteral
  case h_7 | h_8 =>
    exact .skip fun _ => (h.expr _).bind fun e => .pure (by simp [Expr.moved])
  case h_9 =>
    exact .skip fun _ => (h.expr _).bind fun e => .want fun _ => .pure rfl
  case h_10 =>
    exact .skip fun _ => (h.exprList _).bind fun es => .pure (by simp [Expr.moved])
  case h_11 =>
    refine .skip fun _ => .look fun close => .ite ?_ ?_
    · exact .skip fun _ => .pure (by simp [Expr.moved])
    · refine h.hashPairs.bind fun ps => .want fun _ => .pure ?_
      simp [Expr.moved]
  case h_12 =>
    refine .skip fun _ => .want fun _ => (h.expr _).bind fun c => ?_
    refine .want fun _ => h.block.bind fun b => .look fun word => .ite ?_ ?_
    · exact .skip fun _ => h.block.bind fun a => .pure (by simp [Expr.moved])
    · exact .pure (by simp [Expr.moved])
  case h_13 =>
    refine .skip fun _ => .want fun _ => (Travels.params n).bind fun ps => ?_
    exact h.block.bind fun body => .pure (by simp [Expr.moved])
  case h_14 | h_15 => exact .refuseOperand _
  all_goals exact .skip fun _ => .pure (by simp [Expr.moved, Ident.moved])

end TravelsAll

theorem travelsAll (f : Pos → Pos) (n : Nat) : TravelsAll f n := by
  induction n with
  | zero =>
    constructor
    case operators => exact fun _ _ => .refuse _
    all_goals first | exact .refuse _ | exact fun _ => .refuse _
  | succ n ih =>
    exact ⟨ih.expr_succ, ih.operand_succ, ih.operators_succ, ih.exprList_succ, ih.moreExprs_succ,
      ih.hashPairs_succ, ih.block_succ, ih.blockBody_succ, ih.stmt_succ⟩

theorem Travels.stmts (n : Nat) :
    Travels f (List.map (Stmt.moved f)) (Parser.stmts n) (Parser.stmts n) := by
  induction n with
  | zero => exact .refuse _
  | succ n ih =>
    refine .look fun t => .ite (.pure rfl) ?_
    exact (travelsAll f n).stmt.bind fun st => ih.bind fun body => .pure rfl

end Parser

/-- Moving the tokens moves the program that they spell, or the error that they have. -/
theorem Program.ofTokens_moved (hf : f Pos.start = Pos.start) (tokens : List Token) :
    Program.ofTokens (tokens.map (Token.moved f)) =
      ((Program.ofTokens tokens).map (Program.moved f)).mapError (SyntaxError.moved f) := by
  unfold Program.ofTokens
  rw [List.length_map, Cursor.ofTokens_moved hf]
  have ht := Parser.Travels.stmts (f := f) (Parser.bound tokens.length)
  cases hr : Parser.stmts (Parser.bound tokens.length) (Cursor.ofTokens tokens) with
  | ok body c => rw [ht.ok hr]; rfl
  | error e c => rw [ht.error hr]; rfl

end CornScript
