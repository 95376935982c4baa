import CornScript.Proofs.Parser.Viability

/-! # Illegal tokens are never taken

The parser takes a token only after a look at its kind, and no part of it takes an illegal one. So
whatever is read is read from legal tokens, and a text with an illegal token is no program.
-/

namespace CornScript

namespace Cursor

variable {c c₁ c₂ : Cursor}

def Passes (c c' : Cursor) : Prop :=
  ∃ ts, c = c'.after ts ∧ ∀ t ∈ ts, t.kind.isIllegal = false

theorem Passes.refl (c : Cursor) : c.Passes c := ⟨[], rfl, nofun⟩

theorem Passes.trans (h : c.Passes c₁) (h' : c₁.Passes c₂) : c.Passes c₂ := by
  obtain ⟨ts, rfl, hts⟩ := h
  obtain ⟨us, rfl, hus⟩ := h'
  exact ⟨ts ++ us, (after_append c₂ ts us).symm, List.forall_mem_append.mpr ⟨hts, hus⟩⟩

theorem Passes.advance (h : c.head.kind.isIllegal = false) : c.Passes c.advance := by
  obtain ⟨t, ts⟩ := c
  cases ts with
  | nil => exact .refl _
  | cons t' ts => exact ⟨[t], rfl, List.forall_mem_singleton.mpr h⟩

end Cursor

namespace Parser

variable {α β : Type} {c : Cursor} {p : Parser α} {n : Nat}

/-- What a parser reads from `c` on, it reads from legal tokens. -/
structure Legal (c : Cursor) (p : Parser α) : Prop where
  passes : ∀ {a c'}, p c = .ok a c' → c.Passes c'

namespace Legal

theorem pure {a : α} : Legal c (Pure.pure a) := by
  constructor
  rintro _ _ ⟨⟩
  exact .refl c

theorem bind {f : α → Parser β} (hp : Legal c p) (hf : ∀ a c', Legal c' (f a)) :
    Legal c (p >>= f) := by
  constructor
  intro b c' h
  cases hr : p c with
  | ok a c₁ =>
    rw [bind_ok hr] at h
    exact (hp.passes hr).trans ((hf a c₁).passes h)
  | error e c₁ =>
    rw [bind_error hr] at h
    cases h

theorem head {f : Token → Parser α} (h : Legal c (f c.head)) : Legal c (head >>= f) :=
  ⟨h.passes⟩

theorem take {f : Token → Parser α} (hc : c.head.kind.isIllegal = false)
    (h : Legal c.advance (f c.head)) : Legal c (take >>= f) :=
  ⟨fun hr => (Cursor.Passes.advance hc).trans (h.passes hr)⟩

theorem of_refuses {cause : SyntaxError.Cause} (h : Refuses cause c p) : Legal c p := by
  constructor
  intro a c' hr
  obtain ⟨e, he, -⟩ := h
  rw [he] at hr
  cases hr

theorem refuse {cause : SyntaxError.Cause} : Legal c (refuse cause : Parser α) :=
  of_refuses (refuses_refuse cause c)

theorem refuseOperand {cause : SyntaxError.Cause} : Legal c (refuseOperand cause : Parser α) :=
  of_refuses (refuses_refuseOperand cause c)

theorem expect {kind : Token.Kind} (h : kind.isIllegal = false) : Legal c (expect kind) := by
  refine .head ?_
  split
  · next hk => exact .take (f := Pure.pure) (hk ▸ h) .pure
  · exact .refuse

theorem expectIdent : Legal c expectIdent :=
  .bind (.expect rfl) fun _ _ => .pure

theorem optionalSemicolon : Legal c optionalSemicolon := by
  refine .head ?_
  split
  · next hk => exact .take (hk ▸ rfl) .pure
  · exact .pure

theorem numberLiteral (hk : c.head.kind.isIllegal = false) : Legal c numberLiteral := by
  refine .head ?_
  split
  · exact .take hk .pure
  · exact .refuseOperand

theorem moreParams (n : Nat) (c : Cursor) : Legal c (moreParams n) := by
  induction n generalizing c with
  | zero => exact .refuse
  | succ n ih =>
    refine .head ?_
    split
    · next hk =>
      refine .take (hk ▸ rfl) (.bind .expectIdent fun _ c => ?_)
      exact .bind (ih c) fun _ _ => .pure
    · exact .pure

theorem params (n : Nat) (c : Cursor) : Legal c (params n) := by
  refine .head ?_
  split
  · next hk => exact .take (hk ▸ rfl) .pure
  · refine .bind .expectIdent fun _ c => .bind (.moreParams n c) fun _ _ => ?_
    exact .bind (.expect rfl) fun _ _ => .pure

end Legal

structure Lawful (n : Nat) : Prop where
  expr : ∀ level c, Legal c (expr n level)
  operand : ∀ c, Legal c (operand n)
  operators : ∀ level left c, Legal c (operators n level left)
  exprList : ∀ {close}, close.isIllegal = false → ∀ c, Legal c (exprList n close)
  moreExprs : ∀ c, Legal c (moreExprs n)
  hashPairs : ∀ c, Legal c (hashPairs n)
  block : ∀ c, Legal c (block n)
  blockBody : ∀ c, Legal c (blockBody n)
  stmt : ∀ c, Legal c (stmt n)

namespace Lawful

theorem expr_succ (h : Lawful n) (level : Level) (c : Cursor) :
    Legal c (Parser.expr (n + 1) level) := by
  refine .bind (h.operand c) fun first c => .bind (h.operators level first c) fun e c => .head ?_
  split
  · exact .refuse
  · exact .pure

theorem exprList_succ (h : Lawful n) {close : Token.Kind} (hclose : close.isIllegal = false)
    (c : Cursor) : Legal c (Parser.exprList (n + 1) close) := by
  refine .head ?_
  split
  · next hk => exact .take (hk ▸ hclose) .pure
  · refine .bind (h.expr _ c) fun _ c => .bind (h.moreExprs c) fun _ _ => ?_
    exact .bind (.expect hclose) fun _ _ => .pure

theorem moreExprs_succ (h : Lawful n) (c : Cursor) : Legal c (Parser.moreExprs (n + 1)) := by
  refine .head ?_
  split
  · next hk =>
    refine .take (hk ▸ rfl) (.bind (h.expr _ _) fun _ c => ?_)
    exact .bind (h.moreExprs c) fun _ _ => .pure
  · exact .pure

theorem hashPairs_succ (h : Lawful n) (c : Cursor) : Legal c (Parser.hashPairs (n + 1)) := by
  refine .bind (h.expr _ c) fun _ _ => .bind (.expect rfl) fun _ c => ?_
  refine .bind (h.expr _ c) fun _ c => .head ?_
  split
  · next hk => exact .take (hk ▸ rfl) (.bind (h.hashPairs _) fun _ _ => .pure)
  · exact .pure

theorem block_succ (h : Lawful n) (c : Cursor) : Legal c (Parser.block (n + 1)) :=
  .bind (.expect rfl) fun _ c => .bind (h.blockBody c) fun _ _ => .pure

theorem blockBody_succ (h : Lawful n) (c : Cursor) : Legal c (Parser.blockBody (n + 1)) := by
  refine .head ?_
  split
  · next hk => exact .take (hk ▸ rfl) .pure
  · exact .refuse
  · exact .bind (h.stmt c) fun _ c => .bind (h.blockBody c) fun _ _ => .pure

theorem stmt_succ (h : Lawful n) (c : Cursor) : Legal c (Parser.stmt (n + 1)) := by
  refine .head ?_
  split
  · next hk =>
    refine .take (hk ▸ rfl) (.bind .expectIdent fun _ _ => .bind (.expect rfl) fun _ c => ?_)
    exact .bind (h.expr _ c) fun _ _ => .bind .optionalSemicolon fun _ _ => .pure
  · next hk =>
    refine .take (hk ▸ rfl) (.bind (h.expr _ _) fun _ _ => ?_)
    exact .bind .optionalSemicolon fun _ _ => .pure
  · exact .bind (h.expr _ c) fun _ _ => .bind .optionalSemicolon fun _ _ => .pure

theorem operators_succ (h : Lawful n) (level : Level) (left : Expr) (c : Cursor) :
    Legal c (Parser.operators (n + 1) level left) := by
  refine .head ?_
  split
  · next hk =>
    exact .take (hk ▸ rfl) (.bind (h.exprList rfl _) fun _ c => h.operators level _ c)
  · next hk =>
    refine .take (hk ▸ rfl) (.head ?_)
    split
    · exact .refuse
    · refine .bind (h.expr _ _) fun _ _ => .bind (.expect rfl) fun _ c => ?_
      exact h.operators level _ c
  · next hk =>
    refine .take (hk ▸ rfl) (.bind .expectIdent fun _ _ => .bind (.expect rfl) fun _ c => ?_)
    exact .bind (h.exprList rfl c) fun _ c => h.operators level _ c
  · split
    · exact .pure
    · next hop =>
      have hlegal : c.head.kind.isIllegal = false := by
        cases hk : c.head.kind with
        | illegal => simp [hk, Token.Kind.binary?] at hop
        | _ => rfl
      split
      · exact .take hlegal (.bind (h.expr _ _) fun _ c => h.operators level _ c)
      · exact .pure

theorem operand_succ (h : Lawful n) (c : Cursor) : Legal c (Parser.operand (n + 1)) := by
  refine .head ?_
  split
  case h_1 hk => exact .take (hk ▸ rfl) .pure
  case h_2 hk => exact .numberLiteral (hk ▸ rfl)
  case h_3 hk => exact .take (hk ▸ rfl) .pure
  case h_4 hk => exact .take (hk ▸ rfl) .pure
  case h_5 hk => exact .take (hk ▸ rfl) .pure
  case h_6 hk => exact .take (hk ▸ rfl) .pure
  case h_7 hk => exact .take (hk ▸ rfl) (.bind (h.expr _ _) fun _ _ => .pure)
  case h_8 hk => exact .take (hk ▸ rfl) (.bind (h.expr _ _) fun _ _ => .pure)
  case h_9 hk =>
    refine .take (hk ▸ rfl) (.bind (h.expr _ _) fun _ _ => ?_)
    exact .bind (.expect rfl) fun _ _ => .pure
  case h_10 hk => exact .take (hk ▸ rfl) (.bind (h.exprList rfl _) fun _ _ => .pure)
  case h_11 hk =>
    refine .take (hk ▸ rfl) (.head ?_)
    split
    · next hk => exact .take (hk ▸ rfl) .pure
    · exact .bind (h.hashPairs _) fun _ _ => .bind (.expect rfl) fun _ _ => .pure
  case h_12 hk =>
    refine .take (hk ▸ rfl) (.bind (.expect rfl) fun _ c => .bind (h.expr _ c) fun _ _ => ?_)
    refine .bind (.expect rfl) fun _ c => .bind (h.block c) fun _ c => .head ?_
    split
    · next hk => exact .take (hk ▸ rfl) (.bind (h.block _) fun _ _ => .pure)
    · exact .pure
  case h_13 hk =>
    refine .take (hk ▸ rfl) (.bind (.expect rfl) fun _ c => .bind (.params n c) fun _ c => ?_)
    exact .bind (h.block c) fun _ _ => .pure
  case h_14 => exact .refuseOperand
  case h_15 => exact .refuseOperand

end Lawful

theorem lawful (n : Nat) : Lawful n := by
  induction n with
  | zero => constructor <;> intros <;> exact .refuse
  | succ n ih =>
    exact ⟨ih.expr_succ, ih.operand_succ, ih.operators_succ, ih.exprList_succ, ih.moreExprs_succ,
      ih.hashPairs_succ, ih.block_succ, ih.blockBody_succ, ih.stmt_succ⟩

/-- A program is read from legal tokens up to the end of input. -/
theorem passes_of_stmts {c c' : Cursor} {body : List Stmt} (h : stmts n c = .ok body c') :
    c.Passes c' ∧ c'.head.kind = .endOfInput := by
  induction n generalizing c body with
  | zero =>
    obtain ⟨e, he, -⟩ := refuses_refuse (α := List Stmt) .tooDeep c
    cases he.symm.trans h
  | succ n ih =>
    have hrun : stmts (n + 1) c =
        (if c.head.kind = .endOfInput then pure []
          else stmt n >>= fun s => stmts n >>= fun ss => pure (s :: ss)) c := rfl
    rw [hrun] at h
    split at h
    · next hk =>
      cases h
      exact ⟨.refl _, hk⟩
    · cases hs : stmt n c with
      | error e c₁ =>
        rw [bind_error hs] at h
        cases h
      | ok s c₁ =>
        rw [bind_ok hs] at h
        cases hss : stmts n c₁ with
        | error e c₂ =>
          rw [bind_error hss] at h
          cases h
        | ok ss c₂ =>
          rw [bind_ok hss] at h
          cases h
          obtain ⟨hpasses, hk⟩ := ih hss
          exact ⟨(((lawful n).stmt c).passes hs).trans hpasses, hk⟩

end Parser

theorem Program.exists_append_of_ofTokens {tokens : List Token} {p : Program} (hne : tokens ≠ [])
    (h : ofTokens tokens = .ok p) : ∃ before last rest, tokens = before ++ last :: rest ∧
      (∀ t ∈ before, t.kind.isIllegal = false) ∧ last.kind = .endOfInput := by
  obtain ⟨t, ts, rfl⟩ := List.exists_cons_of_ne_nil hne
  unfold ofTokens at h
  split at h
  · next body c hok =>
    obtain ⟨⟨before, hbefore, hlegal⟩, hend⟩ := Parser.passes_of_stmts hok
    have htokens : (t :: ts : List Token) = before ++ c.head :: c.rest := by
      rw [← Cursor.tokens_after, ← hbefore]
      rfl
    exact ⟨before, c.head, c.rest, htokens, hlegal, hend⟩
  · cases h

theorem Token.eq_of_append {ts us rest : List Token} {last t : Token}
    (hts : ∀ t ∈ ts, t.kind ≠ .endOfInput) (ht : t.kind = .endOfInput)
    (h : ts ++ [last] = us ++ t :: rest) : ts = us ∧ last = t ∧ rest = [] := by
  rcases List.eq_nil_or_concat rest with rfl | ⟨init, t', rfl⟩
  · obtain ⟨rfl, hlast⟩ := List.append_inj' h rfl
    exact ⟨rfl, List.singleton_inj.mp hlast, rfl⟩
  · rw [List.concat_eq_append, ← List.cons_append, ← List.append_assoc] at h
    obtain ⟨rfl, -⟩ := List.append_inj' h rfl
    exact absurd ht (hts t (by simp))

theorem Program.legal_of_ofTokens {ts : List Token} {last : Token} {p : Program}
    (hts : ∀ t ∈ ts, t.kind ≠ .endOfInput) (h : ofTokens (ts ++ [last]) = .ok p) :
    ∀ t ∈ ts, t.kind.isIllegal = false := by
  obtain ⟨before, t, rest, htokens, hlegal, ht⟩ := exists_append_of_ofTokens (by simp) h
  obtain ⟨rfl, -⟩ := Token.eq_of_append hts ht htokens
  exact hlegal

theorem Program.illegal?_of_parse {source : Bytes} {p : Program} (h : parse source = .ok p) :
    Token.illegal? (Token.scan source) = none := by
  obtain ⟨ts, q, hscan, hts⟩ := Token.exists_scan_eq source
  rw [parse, hscan] at h
  rw [Token.illegal?_eq_none_iff, hscan, List.forall_mem_append]
  exact ⟨legal_of_ofTokens hts h, List.forall_mem_singleton.mpr rfl⟩

end CornScript
