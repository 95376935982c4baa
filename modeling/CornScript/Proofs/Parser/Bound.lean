import CornScript.Tree.Parser

/-! # Enough steps

The parser counts its steps down and gives up when none is left. A token pays for four steps, so
with so many steps for every token the parser never gives up, and more steps change nothing.
-/

namespace CornScript

namespace Cursor

def Ended (c : Cursor) : Prop :=
  ((c.head :: c.rest).getLast (List.cons_ne_nil _ _)).kind = .endOfInput

variable {c : Cursor}

theorem Ended.advance (h : c.Ended) : c.advance.Ended := by
  obtain ⟨t, ts⟩ := c
  cases ts with
  | nil => exact h
  | cons t' ts => simpa [Ended, Cursor.advance] using h

theorem Ended.length_advance (h : c.Ended) (hk : c.head.kind ≠ .endOfInput) :
    c.advance.rest.length + 1 = c.rest.length := by
  obtain ⟨t, ts⟩ := c
  cases ts with
  | nil => exact absurd h hk
  | cons t' ts => rfl

theorem ended_ofTokens (tokens : List Token) {last : Token} (h : last.kind = .endOfInput) :
    (ofTokens (tokens ++ [last])).Ended := by
  cases tokens with
  | nil => exact h
  | cons t ts =>
    have hl : ((t :: (ts ++ [last])).getLast (List.cons_ne_nil _ _)) = last := by
      rw [List.getLast_cons (by simp), List.getLast_concat]
    exact (congrArg Token.kind hl).trans h

theorem length_rest_ofTokens (tokens : List Token) :
    (ofTokens tokens).rest.length ≤ tokens.length := by
  cases tokens with
  | nil => exact Nat.le_refl 0
  | cons t ts => exact Nat.le_succ _

end Cursor

namespace Parser

variable {α β : Type} {c c' : Cursor} {j k n m : Nat}

theorem bind_ok {p : Parser α} {f : α → Parser β} {a : α} (h : p c = .ok a c') :
    (p >>= f) c = f a c' := by
  simp only [bind, EStateM.bind, h]

theorem bind_error {p : Parser α} {f : α → Parser β} {e : SyntaxError} (h : p c = .error e c') :
    (p >>= f) c = .error e c' := by
  simp only [bind, EStateM.bind, h]

def Refuses (cause : SyntaxError.Cause) (c : Cursor) (p : Parser α) : Prop :=
  ∃ e, p c = .error e c ∧ (e.cause = cause ∨ ∃ fault, e.cause = .lexical fault)

theorem refuses_refuse (cause : SyntaxError.Cause) (c : Cursor) :
    Refuses cause c (refuse cause : Parser α) := by
  have run {f : Token → Parser α} (h : Refuses cause c (f c.head)) :
      Refuses cause c (head >>= f) := h
  refine run ?_
  split
  · exact ⟨_, rfl, .inr ⟨_, rfl⟩⟩
  · exact ⟨_, rfl, .inl rfl⟩

theorem refuses_refuseOperand (cause : SyntaxError.Cause) (c : Cursor) :
    Refuses cause c (refuseOperand cause : Parser α) := by
  have run {f : Cursor → Parser α} (h : Refuses cause c (f c)) : Refuses cause c (get >>= f) := h
  refine run ?_
  split
  · exact refuses_refuse cause c
  · exact ⟨_, rfl, .inr ⟨_, rfl⟩⟩
  · exact refuses_refuse cause c

/-- From `c` on, two parsers do the same; they do not give up, and they leave fewer than `limit`
tokens. -/
structure Agrees (limit : Nat) (c : Cursor) (p q : Parser α) : Prop where
  same : p c = q c
  ok : ∀ {a c'}, p c = .ok a c' → c'.Ended ∧ c'.rest.length < limit
  error : ∀ {e c'}, p c = .error e c' → e.cause ≠ .tooDeep

namespace Agrees

variable {limit limit' : Nat}

theorem pure {a : α} (hc : c.Ended) (h : c.rest.length < limit) :
    Agrees limit c (pure a) (pure a) where
  same := rfl
  ok := by
    rintro _ _ ⟨⟩
    exact ⟨hc, h⟩
  error := nofun

theorem bind {p q : Parser α} {f g : α → Parser β} (h : Agrees limit c p q)
    (hf : ∀ a c', c'.Ended → c'.rest.length < limit → Agrees limit' c' (f a) (g a)) :
    Agrees limit' c (p >>= f) (q >>= g) := by
  cases hr : p c with
  | ok a c' =>
    have hf := hf a c' (h.ok hr).1 (h.ok hr).2
    have hp : (p >>= f) c = f a c' := bind_ok hr
    have hq : (q >>= g) c = g a c' := bind_ok (h.same ▸ hr)
    exact ⟨by rw [hp, hq, hf.same], fun h' => hf.ok (hp ▸ h'), fun h' => hf.error (hp ▸ h')⟩
  | error e c' =>
    have hp : (p >>= f) c = .error e c' := bind_error hr
    have hq : (q >>= g) c = .error e c' := bind_error (h.same ▸ hr)
    refine ⟨by rw [hp, hq], fun h' => ?_, fun h' => ?_⟩
    · rw [hp] at h'
      cases h'
    · rw [hp] at h'
      cases h'
      exact h.error hr

theorem raise {p q : Parser α} (h : Agrees limit c p q) (hl : limit ≤ limit') :
    Agrees limit' c p q :=
  ⟨h.same, fun h' => ⟨(h.ok h').1, Nat.lt_of_lt_of_le (h.ok h').2 hl⟩, h.error⟩

theorem head {f g : Token → Parser α} (h : Agrees limit c (f c.head) (g c.head)) :
    Agrees limit c (head >>= f) (head >>= g) :=
  ⟨h.same, h.ok, h.error⟩

theorem take {f g : Token → Parser α} (h : Agrees limit c.advance (f c.head) (g c.head)) :
    Agrees limit c (take >>= f) (take >>= g) :=
  ⟨h.same, h.ok, h.error⟩

theorem of_refuses {p : Parser α} {cause : SyntaxError.Cause} (hne : cause ≠ .tooDeep)
    (h : Refuses cause c p) : Agrees limit c p p := by
  obtain ⟨e, hp, hcause⟩ := h
  refine ⟨rfl, fun h' => ?_, fun h' => ?_⟩
  · rw [hp] at h'
    cases h'
  · rw [hp] at h'
    cases h'
    rcases hcause with hcause | ⟨fault, hcause⟩
    · rwa [hcause]
    · rw [hcause]
      nofun

theorem refuse {cause : SyntaxError.Cause} (h : cause ≠ .tooDeep) :
    Agrees limit c (refuse cause : Parser α) (refuse cause) :=
  of_refuses h (refuses_refuse cause c)

theorem refuseOperand {cause : SyntaxError.Cause} (h : cause ≠ .tooDeep) :
    Agrees limit c (refuseOperand cause : Parser α) (refuseOperand cause) :=
  of_refuses h (refuses_refuseOperand cause c)

theorem expect {kind : Token.Kind} (hc : c.Ended) (hk : kind ≠ .endOfInput) :
    Agrees c.rest.length c (expect kind) (expect kind) := by
  refine .head ?_
  split
  · next h =>
    have hl := hc.length_advance (h ▸ hk)
    exact .take (f := Pure.pure) (.pure hc.advance (by omega))
  · exact .refuse nofun

theorem expectIdent (hc : c.Ended) : Agrees c.rest.length c expectIdent expectIdent :=
  .bind (.expect hc (by decide)) fun _ _ hc hl => .pure hc hl

theorem numberLiteral (hc : c.Ended) (hk : c.head.kind ≠ .endOfInput) :
    Agrees c.rest.length c numberLiteral numberLiteral := by
  have hl := hc.length_advance hk
  refine .head ?_
  split
  · exact .take (.pure hc.advance (by omega))
  · exact .refuseOperand nofun

theorem optionalSemicolon (hc : c.Ended) :
    Agrees (c.rest.length + 1) c optionalSemicolon optionalSemicolon := by
  refine .head ?_
  split
  · next h =>
    have hl := hc.length_advance (h ▸ nofun)
    exact .take (.pure hc.advance (by omega))
  · exact .pure hc (Nat.lt_succ_self _)

end Agrees

/-- With `n` steps a parser never gives up, nor do more steps change what it does, if `n` is four
for every token and `extra` more. Of the tokens it leaves fewer than all and `slack` more. -/
structure Enough (slack extra n : Nat) (p : Nat → Parser α) : Prop where
  agrees : ∀ {c m}, c.Ended → 4 * c.rest.length + extra ≤ n → 4 * c.rest.length + extra ≤ m →
    Agrees (c.rest.length + slack) c (p n) (p m)

theorem Enough.of_succ {p : Nat → Parser α} {slack extra : Nat}
    (h : ∀ {c m}, c.Ended → 4 * c.rest.length + extra ≤ n → 4 * c.rest.length + extra ≤ m →
      Agrees (c.rest.length + slack) c (p (n + 1)) (p (m + 1))) :
    Enough slack (extra + 1) (n + 1) p := by
  refine ⟨fun {c m} hc hn hm => ?_⟩
  obtain ⟨m, rfl⟩ : ∃ i, m = i + 1 := ⟨m - 1, by omega⟩
  exact h hc (by omega) (by omega)

theorem enough_moreParams (n : Nat) : Enough 1 1 n moreParams := by
  induction n with
  | zero => exact ⟨fun _ hn => absurd hn (by omega)⟩
  | succ n ih =>
    refine .of_succ fun hc hn hm => .head ?_
    split
    · next h =>
      have hl := hc.length_advance (h ▸ nofun)
      refine .take (.bind (.expectIdent hc.advance) fun _ _ hc _ => ?_)
      exact .bind (ih.agrees hc (by omega) (by omega)) fun _ _ hc _ => .pure hc (by omega)
    · exact .pure hc (Nat.lt_succ_self _)

theorem enough_params (n : Nat) : Enough 0 1 n params := by
  refine ⟨fun hc hn hm => .head ?_⟩
  split
  · next h =>
    have hl := hc.length_advance (h ▸ nofun)
    exact .take (.pure hc.advance (by omega))
  · refine .bind (.expectIdent hc) fun _ _ hc _ => ?_
    refine .bind ((enough_moreParams n).agrees hc (by omega) (by omega)) fun _ _ hc _ => ?_
    exact .bind (.expect hc (by decide)) fun _ _ hc _ => .pure hc (by omega)

structure Ample (n : Nat) : Prop where
  expr : ∀ level, Enough 0 2 n (expr · level)
  operand : Enough 0 1 n operand
  operators : ∀ level left, Enough 1 1 n (operators · level left)
  exprList : ∀ {close}, close ≠ .endOfInput → Enough 0 3 n (exprList · close)
  moreExprs : Enough 1 1 n moreExprs
  hashPairs : Enough 0 3 n hashPairs
  block : Enough 0 1 n block
  blockBody : Enough 0 4 n blockBody
  stmt : Enough 0 3 n stmt

namespace Ample

theorem expr_succ (h : Ample n) (level : Level) : Enough 0 2 (n + 1) (Parser.expr · level) := by
  refine .of_succ fun hc hn hm => ?_
  refine .bind (h.operand.agrees hc hn hm) fun first _ hc _ => ?_
  refine .bind ((h.operators level first).agrees hc (by omega) (by omega)) fun e _ hc _ => .head ?_
  split
  · exact .refuse nofun
  · exact .pure hc (by omega)

theorem exprList_succ (h : Ample n) {close : Token.Kind} (hclose : close ≠ .endOfInput) :
    Enough 0 3 (n + 1) (Parser.exprList · close) := by
  refine .of_succ fun hc hn hm => .head ?_
  split
  · next hk =>
    have hl := hc.length_advance (hk ▸ hclose)
    exact .take (.pure hc.advance (by omega))
  · refine .bind ((h.expr _).agrees hc hn hm) fun _ _ hc _ => ?_
    refine .bind (h.moreExprs.agrees hc (by omega) (by omega)) fun _ _ hc _ => ?_
    exact .bind (.expect hc hclose) fun _ _ hc _ => .pure hc (by omega)

theorem moreExprs_succ (h : Ample n) : Enough 1 1 (n + 1) Parser.moreExprs := by
  refine .of_succ fun hc hn hm => .head ?_
  split
  · next hk =>
    have hl := hc.length_advance (hk ▸ nofun)
    refine .take (.bind ((h.expr _).agrees hc.advance (by omega) (by omega)) fun _ _ hc _ => ?_)
    exact .bind (h.moreExprs.agrees hc (by omega) (by omega)) fun _ _ hc _ => .pure hc (by omega)
  · exact .pure hc (Nat.lt_succ_self _)

theorem hashPairs_succ (h : Ample n) : Enough 0 3 (n + 1) Parser.hashPairs := by
  refine .of_succ fun hc hn hm => ?_
  refine .bind ((h.expr _).agrees hc hn hm) fun _ _ hc _ => ?_
  refine .bind (.expect hc (by decide)) fun _ _ hc _ => ?_
  refine .bind ((h.expr _).agrees hc (by omega) (by omega)) fun _ _ hc _ => .head ?_
  split
  · next hk =>
    have hl := hc.length_advance (hk ▸ nofun)
    exact .take (.bind (h.hashPairs.agrees hc.advance (by omega) (by omega)) fun _ _ hc _ =>
      .pure hc (by omega))
  · exact .pure hc (by omega)

theorem block_succ (h : Ample n) : Enough 0 1 (n + 1) Parser.block := by
  refine .of_succ fun hc hn hm => ?_
  refine .bind (.expect hc (by decide)) fun _ _ hc _ => ?_
  exact .bind (h.blockBody.agrees hc (by omega) (by omega)) fun _ _ hc _ => .pure hc (by omega)

theorem blockBody_succ (h : Ample n) : Enough 0 4 (n + 1) Parser.blockBody := by
  refine .of_succ fun hc hn hm => .head ?_
  split
  · next hk =>
    have hl := hc.length_advance (hk ▸ nofun)
    exact .take (.pure hc.advance (by omega))
  · exact .refuse nofun
  · refine .bind (h.stmt.agrees hc hn hm) fun _ _ hc _ => ?_
    exact .bind (h.blockBody.agrees hc (by omega) (by omega)) fun _ _ hc _ => .pure hc (by omega)

theorem stmt_succ (h : Ample n) : Enough 0 3 (n + 1) Parser.stmt := by
  refine .of_succ fun hc hn hm => .head ?_
  split
  · next hk =>
    have hl := hc.length_advance (hk ▸ nofun)
    refine .take (.bind (.expectIdent hc.advance) fun _ _ hc _ => ?_)
    refine .bind (.expect hc (by decide)) fun _ _ hc _ => ?_
    refine .bind ((h.expr _).agrees hc (by omega) (by omega)) fun _ _ hc _ => ?_
    exact .bind (.optionalSemicolon hc) fun _ _ hc _ => .pure hc (by omega)
  · next hk =>
    have hl := hc.length_advance (hk ▸ nofun)
    refine .take (.bind ((h.expr _).agrees hc.advance (by omega) (by omega)) fun _ _ hc _ => ?_)
    exact .bind (.optionalSemicolon hc) fun _ _ hc _ => .pure hc (by omega)
  · refine .bind ((h.expr _).agrees hc hn hm) fun _ _ hc _ => ?_
    exact .bind (.optionalSemicolon hc) fun _ _ hc _ => .pure hc (by omega)

theorem operators_succ (h : Ample n) (level : Level) (left : Expr) :
    Enough 1 1 (n + 1) (Parser.operators · level left) := by
  refine .of_succ fun {c m} hc hn hm => .head ?_
  have again {c' : Cursor} (left : Expr) (hc' : c'.Ended) (hl : c'.rest.length < c.rest.length) :
      Agrees (c.rest.length + 1) c' (Parser.operators n level left)
        (Parser.operators m level left) :=
    (h.operators level left |>.agrees hc' (by omega) (by omega)).raise (by omega)
  split
  · next hk =>
    have hl := hc.length_advance (hk ▸ nofun)
    refine .take (.bind ((h.exprList (by decide)).agrees hc.advance (by omega) (by omega))
      fun _ _ hc _ => ?_)
    exact again _ hc (by omega)
  · next hk =>
    have hl := hc.length_advance (hk ▸ nofun)
    refine .take (.head ?_)
    split
    · exact .refuse nofun
    · refine .bind ((h.expr _).agrees hc.advance (by omega) (by omega)) fun _ _ hc _ => ?_
      exact .bind (.expect hc (by decide)) fun _ _ hc _ => again _ hc (by omega)
  · next hk =>
    have hl := hc.length_advance (hk ▸ nofun)
    refine .take (.bind (.expectIdent hc.advance) fun _ _ hc _ => ?_)
    refine .bind (.expect hc (by decide)) fun _ _ hc _ => ?_
    refine .bind ((h.exprList (by decide)).agrees hc (by omega) (by omega)) fun _ _ hc _ => ?_
    exact again _ hc (by omega)
  · split
    · exact .pure hc (Nat.lt_succ_self _)
    · next hop =>
      have hl := hc.length_advance fun he => by rw [he] at hop; cases hop
      split
      · refine .take (.bind ((h.expr _).agrees hc.advance (by omega) (by omega)) fun _ _ hc _ => ?_)
        exact again _ hc (by omega)
      · exact .pure hc (Nat.lt_succ_self _)

theorem operand_succ (h : Ample n) : Enough 0 1 (n + 1) Parser.operand := by
  refine .of_succ fun {c m} hc hn hm => .head ?_
  by_cases hend : c.head.kind = .endOfInput
  · rw [hend]
    exact .refuseOperand nofun
  have hl := hc.length_advance hend
  have hc' := hc.advance
  have leaf (e : Expr) : Agrees (c.rest.length + 0) c.advance (Pure.pure e) (Pure.pure e) :=
    .pure hc' (by omega)
  split
  · exact .take (leaf _)
  · exact .numberLiteral hc hend
  · exact .take (leaf _)
  · exact .take (leaf _)
  · exact .take (leaf _)
  · exact .take (leaf _)
  · exact .take (.bind ((h.expr _).agrees hc' (by omega) (by omega)) fun _ _ hc _ =>
      .pure hc (by omega))
  · exact .take (.bind ((h.expr _).agrees hc' (by omega) (by omega)) fun _ _ hc _ =>
      .pure hc (by omega))
  · refine .take (.bind ((h.expr _).agrees hc' (by omega) (by omega)) fun _ _ hc _ => ?_)
    exact .bind (.expect hc (by decide)) fun _ _ hc _ => .pure hc (by omega)
  · exact .take (.bind ((h.exprList (by decide)).agrees hc' (by omega) (by omega))
      fun _ _ hc _ => .pure hc (by omega))
  · refine .take (.head ?_)
    split
    · next hk =>
      have hl' := hc'.length_advance (hk ▸ nofun)
      exact .take (.pure hc'.advance (by omega))
    · refine .bind (h.hashPairs.agrees hc' (by omega) (by omega)) fun _ _ hc _ => ?_
      exact .bind (.expect hc (by decide)) fun _ _ hc _ => .pure hc (by omega)
  · refine .take (.bind (.expect hc' (by decide)) fun _ _ hc _ => ?_)
    refine .bind ((h.expr _).agrees hc (by omega) (by omega)) fun _ _ hc _ => ?_
    refine .bind (.expect hc (by decide)) fun _ _ hc _ => ?_
    refine .bind (h.block.agrees hc (by omega) (by omega)) fun _ _ hc _ => .head ?_
    split
    · next hk =>
      have hl' := hc.length_advance (hk ▸ nofun)
      exact .take (.bind (h.block.agrees hc.advance (by omega) (by omega)) fun _ _ hc _ =>
        .pure hc (by omega))
    · exact .pure hc (by omega)
  · refine .take (.bind (.expect hc' (by decide)) fun _ _ hc _ => ?_)
    refine .bind ((enough_params n).agrees hc (by omega) (by omega)) fun _ _ hc _ => ?_
    exact .bind (h.block.agrees hc (by omega) (by omega)) fun _ _ hc _ => .pure hc (by omega)
  · exact .refuseOperand nofun
  · exact .refuseOperand nofun

end Ample

theorem ample (n : Nat) : Ample n := by
  induction n with
  | zero => constructor <;> intros <;> exact ⟨fun _ hn => absurd hn (by omega)⟩
  | succ n ih =>
    exact ⟨ih.expr_succ, ih.operand_succ, ih.operators_succ, ih.exprList_succ, ih.moreExprs_succ,
      ih.hashPairs_succ, ih.block_succ, ih.blockBody_succ, ih.stmt_succ⟩

theorem enough_stmts (n : Nat) : Enough 1 4 n stmts := by
  induction n with
  | zero => exact ⟨fun _ hn => absurd hn (by omega)⟩
  | succ n ih =>
    refine .of_succ fun hc hn hm => .head ?_
    split
    · exact .pure hc (Nat.lt_succ_self _)
    · refine .bind ((ample n).stmt.agrees hc hn hm) fun _ _ hc _ => ?_
      exact .bind (ih.agrees hc (by omega) (by omega)) fun _ _ hc _ => .pure hc (by omega)

/-- The bound that the number of tokens sets is enough: with more steps a program is read in the
same way. -/
theorem stmts_bound {tokens : List Token} (hc : (Cursor.ofTokens tokens).Ended)
    (h : bound tokens.length ≤ n) :
    stmts (bound tokens.length) (Cursor.ofTokens tokens) = stmts n (Cursor.ofTokens tokens) := by
  have hl := Cursor.length_rest_ofTokens tokens
  unfold bound at h ⊢
  exact ((enough_stmts _).agrees hc (by omega) (by omega)).same

end Parser

end CornScript
