import CornScript.Proofs.Parser.Bound
import CornScript.Proofs.Parser.Legal
import CornScript.Proofs.Tree.Genuine

/-! # The parser builds genuine trees

The parser keeps the tokens that a tree says something with, and it looks at the kind of a token
before it takes it. So from genuine tokens it builds genuine trees.
-/

namespace CornScript

open Token (Kind)

def Cursor.Genuine (c : Cursor) : Prop :=
  ∀ t ∈ c.head :: c.rest, t.kind ≠ .endOfInput → t.Genuine

theorem Cursor.Genuine.advance {c : Cursor} (h : c.Genuine) : c.advance.Genuine := by
  obtain ⟨t, ts⟩ := c
  cases ts with
  | nil => exact h
  | cons t' ts => exact fun t ht => h t (List.mem_cons_of_mem _ ht)

namespace Parser

variable {α β : Type} {c : Cursor} {p : Parser α} {P : α → Prop} {Q : β → Prop} {n : Nat}
  {kind : Kind}

/-- What a parser reads from `c` on satisfies `P`, if all tokens are genuine. -/
structure Forms (P : α → Prop) (c : Cursor) (p : Parser α) : Prop where
  result : c.Genuine → ∀ {a c'}, p c = .ok a c' → P a ∧ c'.Genuine

def IsToken (kind : Kind) (t : Token) : Prop := t.Genuine ∧ t.kind = kind

namespace Forms

theorem pure {a : α} (h : P a) : Forms P c (Pure.pure a) := by
  constructor
  rintro hc _ _ ⟨⟩
  exact ⟨h, hc⟩

theorem bind {f : α → Parser β} (hp : Forms P c p) (hf : ∀ a, P a → ∀ c', Forms Q c' (f a)) :
    Forms Q c (p >>= f) := by
  constructor
  intro hc b c' h
  cases hr : p c with
  | ok a c₁ =>
    rw [bind_ok hr] at h
    obtain ⟨ha, hc₁⟩ := hp.result hc hr
    exact (hf a ha c₁).result hc₁ h
  | error e c₁ =>
    rw [bind_error hr] at h
    cases h

theorem head {f : Token → Parser α} (h : Forms P c (f c.head)) : Forms P c (head >>= f) :=
  ⟨h.result⟩

theorem take {f : Token → Parser α} (hkind : c.head.kind = kind) (hend : kind ≠ .endOfInput)
    (h : IsToken kind c.head → Forms P c.advance (f c.head)) : Forms P c (take >>= f) := by
  constructor
  intro hc a c' hr
  have hhead := hc c.head List.mem_cons_self (hkind ▸ hend)
  exact (h ⟨hhead, hkind⟩).result hc.advance hr

theorem of_refuses {cause : SyntaxError.Cause} (h : Refuses cause c p) : Forms P c p := by
  constructor
  intro _ a c' hr
  obtain ⟨e, he, -⟩ := h
  rw [he] at hr
  cases hr

theorem refuse {cause : SyntaxError.Cause} : Forms P c (refuse cause : Parser α) :=
  of_refuses (refuses_refuse cause c)

theorem refuseOperand {cause : SyntaxError.Cause} : Forms P c (refuseOperand cause : Parser α) :=
  of_refuses (refuses_refuseOperand cause c)

theorem expect (hend : kind ≠ .endOfInput) : Forms (IsToken kind) c (expect kind) := by
  refine .head ?_
  split
  · next hk => exact .take (f := Pure.pure) hk hend fun ht => .pure ht
  · exact .refuse

theorem expectIdent : Forms Ident.Genuine c expectIdent :=
  .bind (.expect (by decide)) fun _ ht _ => .pure ⟨ht.1, ht.2, rfl⟩

theorem optionalSemicolon : Forms (fun _ => True) c optionalSemicolon := by
  refine .head ?_
  split
  · next hk => exact .take hk (by decide) fun _ => .pure trivial
  · exact .pure trivial

theorem numberLiteral (hk : c.head.kind = .number) : Forms Expr.Genuine c numberLiteral := by
  refine .head ?_
  split
  · next hv =>
    refine .take hk (by decide) fun ht => .pure ?_
    rw [Expr.Genuine]
    exact ⟨ht.1, ht.2, hv⟩
  · exact .refuseOperand

theorem moreParams (n : Nat) (c : Cursor) :
    Forms (fun ps => ∀ p ∈ ps, p.Genuine) c (moreParams n) := by
  induction n generalizing c with
  | zero => exact .refuse
  | succ n ih =>
    refine .head ?_
    split
    · next hk =>
      refine .take hk (by decide) fun _ => .bind .expectIdent fun p hp c => ?_
      exact .bind (ih c) fun ps hps _ => .pure (List.forall_mem_cons.mpr ⟨hp, hps⟩)
    · exact .pure nofun

theorem params (n : Nat) (c : Cursor) : Forms (fun ps => ∀ p ∈ ps, p.Genuine) c (params n) := by
  refine .head ?_
  split
  · next hk => exact .take hk (by decide) fun _ => .pure nofun
  · refine .bind .expectIdent fun p hp c => .bind (.moreParams n c) fun ps hps _ => ?_
    exact .bind (.expect (by decide)) fun _ _ _ => .pure (List.forall_mem_cons.mpr ⟨hp, hps⟩)

end Forms

structure Faithful (n : Nat) : Prop where
  expr : ∀ level c, Forms Expr.Genuine c (expr n level)
  operand : ∀ c, Forms Expr.Genuine c (operand n)
  operators : ∀ {left}, left.Genuine → ∀ level c, Forms Expr.Genuine c (operators n level left)
  exprList : ∀ {close}, close ≠ .endOfInput → ∀ c, Forms Expr.GenuineAll c (exprList n close)
  moreExprs : ∀ c, Forms Expr.GenuineAll c (moreExprs n)
  hashPairs : ∀ c, Forms (fun ps => Expr.GenuineAll (ps.map Prod.fst) ∧
    Expr.GenuineAll (ps.map Prod.snd)) c (hashPairs n)
  block : ∀ c, Forms Block.Genuine c (block n)
  blockBody : ∀ c, Forms Stmt.GenuineAll c (blockBody n)
  stmt : ∀ c, Forms Stmt.Genuine c (stmt n)

namespace Faithful

theorem expr_succ (h : Faithful n) (level : Level) (c : Cursor) :
    Forms Expr.Genuine c (Parser.expr (n + 1) level) := by
  refine .bind (h.operand c) fun first hfirst c => ?_
  refine .bind (h.operators hfirst level c) fun e he c => .head ?_
  split
  · exact .refuse
  · exact .pure he

theorem exprList_succ (h : Faithful n) {close : Kind} (hclose : close ≠ .endOfInput) (c : Cursor) :
    Forms Expr.GenuineAll c (Parser.exprList (n + 1) close) := by
  refine .head ?_
  split
  · next hk => exact .take hk hclose fun _ => .pure trivial
  · refine .bind (h.expr _ c) fun e he c => .bind (h.moreExprs c) fun es hes _ => ?_
    exact .bind (.expect hclose) fun _ _ _ => .pure ⟨he, hes⟩

theorem moreExprs_succ (h : Faithful n) (c : Cursor) :
    Forms Expr.GenuineAll c (Parser.moreExprs (n + 1)) := by
  refine .head ?_
  split
  · next hk =>
    refine .take hk (by decide) fun _ => .bind (h.expr _ _) fun e he c => ?_
    exact .bind (h.moreExprs c) fun es hes _ => .pure ⟨he, hes⟩
  · exact .pure trivial

theorem hashPairs_succ (h : Faithful n) (c : Cursor) :
    Forms (fun ps => Expr.GenuineAll (ps.map Prod.fst) ∧ Expr.GenuineAll (ps.map Prod.snd)) c
      (Parser.hashPairs (n + 1)) := by
  refine .bind (h.expr _ c) fun k hk _ => .bind (.expect (by decide)) fun _ _ c => ?_
  refine .bind (h.expr _ c) fun v hv c => .head ?_
  split
  · next hcomma =>
    refine .take hcomma (by decide) fun _ => .bind (h.hashPairs _) fun ps hps _ => ?_
    exact .pure ⟨⟨hk, hps.1⟩, hv, hps.2⟩
  · exact .pure ⟨⟨hk, trivial⟩, hv, trivial⟩

theorem block_succ (h : Faithful n) (c : Cursor) :
    Forms Block.Genuine c (Parser.block (n + 1)) :=
  .bind (.expect (by decide)) fun _ ht c => .bind (h.blockBody c) fun _ hbody _ => .pure ⟨ht, hbody⟩

theorem blockBody_succ (h : Faithful n) (c : Cursor) :
    Forms Stmt.GenuineAll c (Parser.blockBody (n + 1)) := by
  refine .head ?_
  split
  · next hk => exact .take hk (by decide) fun _ => .pure trivial
  · exact .refuse
  · exact .bind (h.stmt c) fun _ hst c => .bind (h.blockBody c) fun _ hbody _ => .pure ⟨hst, hbody⟩

theorem stmt_succ (h : Faithful n) (c : Cursor) : Forms Stmt.Genuine c (Parser.stmt (n + 1)) := by
  refine .head ?_
  split
  · next hk =>
    refine .take hk (by decide) fun ht => .bind .expectIdent fun target htarget _ => ?_
    refine .bind (.expect (by decide)) fun _ _ c => .bind (h.expr _ c) fun v hv _ => ?_
    exact .bind .optionalSemicolon fun _ _ _ => .pure ⟨ht, htarget, hv⟩
  · next hk =>
    refine .take hk (by decide) fun ht => .bind (h.expr _ _) fun v hv _ => ?_
    exact .bind .optionalSemicolon fun _ _ _ => .pure ⟨ht, hv⟩
  · refine .bind (h.expr _ c) fun v hv _ => .bind .optionalSemicolon fun _ _ _ => .pure ?_
    rwa [Stmt.Genuine]

theorem operators_succ (h : Faithful n) {left : Expr} (hleft : left.Genuine) (level : Level)
    (c : Cursor) : Forms Expr.Genuine c (Parser.operators (n + 1) level left) := by
  refine .head ?_
  split
  · next hk =>
    refine .take hk (by decide) fun ht => .bind (h.exprList (by decide) _) fun args hargs c => ?_
    refine h.operators ?_ level c
    rw [Expr.Genuine]
    exact ⟨⟨ht.1, .inl ht.2⟩, hleft, hargs⟩
  · next hk =>
    refine .take hk (by decide) fun ht => .head ?_
    split
    · exact .refuse
    · refine .bind (h.expr _ _) fun index hindex _ => .bind (.expect (by decide)) fun _ _ c => ?_
      refine h.operators ?_ level c
      rw [Expr.Genuine]
      exact ⟨⟨ht.1, .inr (.inl ⟨ht.2, index, rfl⟩)⟩, hleft, hindex, trivial⟩
  · next hk =>
    refine .take hk (by decide) fun ht => .bind .expectIdent fun name hname _ => ?_
    refine .bind (.expect (by decide)) fun _ _ c => ?_
    refine .bind (h.exprList (by decide) c) fun args hargs c => h.operators ?_ level c
    rw [Expr.Genuine]
    refine ⟨⟨ht.1, .inr (.inr ⟨ht.2, name, left, args, rfl, rfl⟩)⟩, ?_, hleft, hargs⟩
    rwa [Expr.Genuine]
  · split
    · exact .pure hleft
    · next op own hop =>
      split
      · have hend : c.head.kind ≠ .endOfInput := by
          intro hk
          rw [hk] at hop
          cases hop
        refine .take rfl hend fun ht => .bind (h.expr _ _) fun right hright c => ?_
        refine h.operators ?_ level c
        rw [Expr.Genuine]
        exact ⟨⟨ht.1, own, hop⟩, hleft, hright⟩
      · exact .pure hleft

theorem operand_succ (h : Faithful n) (c : Cursor) :
    Forms Expr.Genuine c (Parser.operand (n + 1)) := by
  refine .head ?_
  split
  case h_1 hk =>
    refine .take hk (by decide) fun ht => .pure ?_
    rw [Expr.Genuine]
    exact ⟨ht.1, ht.2, rfl⟩
  case h_2 hk => exact .numberLiteral hk
  case h_3 hk =>
    refine .take hk (by decide) fun ht => .pure ?_
    rw [Expr.Genuine]
    exact ⟨ht.1, ht.2, rfl⟩
  case h_4 hk =>
    refine .take hk (by decide) fun ht => .pure ?_
    rwa [Expr.Genuine, if_pos rfl]
  case h_5 hk =>
    refine .take hk (by decide) fun ht => .pure ?_
    rwa [Expr.Genuine, if_neg nofun]
  case h_6 hk =>
    refine .take hk (by decide) fun ht => .pure ?_
    rwa [Expr.Genuine]
  case h_7 hk =>
    refine .take hk (by decide) fun ht => .bind (h.expr _ _) fun e he _ => .pure ?_
    rw [Expr.Genuine, ht.2]
    exact ⟨⟨ht.1, rfl⟩, he⟩
  case h_8 hk =>
    refine .take hk (by decide) fun ht => .bind (h.expr _ _) fun e he _ => .pure ?_
    rw [Expr.Genuine, ht.2]
    exact ⟨⟨ht.1, rfl⟩, he⟩
  case h_9 hk =>
    refine .take hk (by decide) fun _ => .bind (h.expr _ _) fun e he _ => ?_
    exact .bind (.expect (by decide)) fun _ _ _ => .pure he
  case h_10 hk =>
    refine .take hk (by decide) fun ht => .bind (h.exprList (by decide) _) fun es hes _ => .pure ?_
    rw [Expr.Genuine]
    exact ⟨ht, hes⟩
  case h_11 hk =>
    refine .take hk (by decide) fun ht => .head ?_
    split
    · next hk =>
      refine .take hk (by decide) fun _ => .pure ?_
      rw [Expr.Genuine]
      exact ⟨ht, rfl, trivial, trivial⟩
    · refine .bind (h.hashPairs _) fun ps hps _ => .bind (.expect (by decide)) fun _ _ _ => .pure ?_
      rw [Expr.Genuine]
      exact ⟨ht, by simp, hps⟩
  case h_12 hk =>
    refine .take hk (by decide) fun ht => .bind (.expect (by decide)) fun _ _ c => ?_
    refine .bind (h.expr _ c) fun e he _ => .bind (.expect (by decide)) fun _ _ c => ?_
    refine .bind (h.block c) fun b hb c => .head ?_
    split
    · next hk =>
      refine .take hk (by decide) fun _ => .bind (h.block _) fun a ha _ => .pure ?_
      rw [Expr.Genuine]
      exact ⟨ht, he, hb, ha⟩
    · refine .pure ?_
      rw [Expr.Genuine]
      exact ⟨ht, he, hb⟩
  case h_13 hk =>
    refine .take hk (by decide) fun ht => .bind (.expect (by decide)) fun _ _ c => ?_
    refine .bind (.params n c) fun ps hps c => .bind (h.block c) fun b hb _ => .pure ?_
    rw [Expr.Genuine]
    exact ⟨ht, hps, hb⟩
  case h_14 => exact .refuseOperand
  case h_15 => exact .refuseOperand

end Faithful

theorem faithful (n : Nat) : Faithful n := by
  induction n with
  | zero => constructor <;> intros <;> exact .refuse
  | succ n ih =>
    exact ⟨ih.expr_succ, ih.operand_succ, ih.operators_succ, ih.exprList_succ, ih.moreExprs_succ,
      ih.hashPairs_succ, ih.block_succ, ih.blockBody_succ, ih.stmt_succ⟩

theorem forms_stmts (n : Nat) (c : Cursor) : Forms Stmt.GenuineAll c (stmts n) := by
  induction n generalizing c with
  | zero => exact .refuse
  | succ n ih =>
    refine .head ?_
    split
    · exact .pure trivial
    · refine .bind ((faithful n).stmt c) fun _ hst c => ?_
      exact .bind (ih c) fun _ hbody _ => .pure ⟨hst, hbody⟩

end Parser

theorem Program.genuine_of_parse {source : Bytes} {p : Program} (h : parse source = .ok p) :
    Stmt.GenuineAll p.body := by
  have hlegal := illegal?_of_parse h
  have hgenuine : (Cursor.ofTokens (Token.scan source)).Genuine := by
    obtain ⟨ts, q, hscan, -⟩ := Token.exists_scan_eq source
    have hne : Token.scan source ≠ [] := by simp [hscan]
    obtain ⟨t, rest, htokens⟩ := List.exists_cons_of_ne_nil hne
    intro t' ht'
    refine Token.genuine_of_mem_scan hlegal ?_
    rw [htokens] at ht' ⊢
    exact ht'
  unfold parse ofTokens at h
  split at h
  · next body c hr =>
    cases h
    exact ((Parser.forms_stmts _ _).result hgenuine hr).1
  · cases h

end CornScript
