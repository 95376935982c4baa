import CornScript.Tree.Reporter
import Mathlib.Tactic.Common

/-! # No result without an error, and no error with a result

A part of the parser is called when no error has been reported. If it has a result then there still
is none, and if it has none then there is exactly one. So it does not matter which of the two a
caller asks for: the statements of a program or a block come to their end too early only if there is
an error, and they never go on after one.
-/

namespace CornScript

namespace Desk

theorem failed_of_nil {d : Desk} (hd : d.errors = []) : d.failed = false := by
  rw [failed, hd]
  rfl

theorem errors_report {d : Desk} (hd : d.errors = []) (cause : SyntaxError.Cause) (t : Token) :
    ∃ e, (d.report cause t).errors = [e] := by
  rw [report, failed_of_nil hd]
  cases d.reader.fault with
  | none => exact ⟨_, congrArg (· ++ _) hd⟩
  | some fault => exact ⟨_, congrArg (· ++ _) hd⟩

theorem failed_of_singleton {d : Desk} {e : SyntaxError} (hd : d.errors = [e]) :
    d.failed = true := by
  rw [failed, hd]
  rfl

theorem close_of_failed {d : Desk} (hd : d.failed = true) : d.close = d := by
  rw [close, hd]

theorem close_of_fault {d : Desk} (hd : d.reader.fault = none) : d.close = d := by
  rw [close, hd]
  cases d.failed <;> rfl

theorem errors_close {d : Desk} (hd : d.errors = []) :
    d.close.errors = [] ∨ ∃ e, d.close.errors = [e] := by
  cases hf : d.reader.fault with
  | none => exact .inl (by rw [close_of_fault hf, hd])
  | some fault =>
    rw [close, failed_of_nil hd, hf]
    exact .inr (errors_report hd _ _)

end Desk

namespace Reporter

variable {α β : Type} {d : Desk} {n : Nat}

/-- How a part of the parser may end: it has a result and has reported nothing, or it has none and
has reported one error. -/
inductive Coherent : Option α × Desk → Prop where
  | found {a : α} {d : Desk} : d.errors = [] → Coherent (some a, d)
  | missing {d : Desk} {e : SyntaxError} : d.errors = [e] → Coherent (none, d)

theorem Coherent.eq_none_iff {x : Option α × Desk} (h : Coherent x) :
    x.1 = none ↔ x.2.errors ≠ [] := by
  cases h with
  | found h => simp [h]
  | missing h => simp [h]

structure Coheres (p : Reporter α) : Prop where
  coherent : ∀ {d}, d.errors = [] → Coherent (p d)

theorem bind_apply (p : Reporter α) (f : α → Reporter β) (d : Desk) :
    (p >>= f) d = match p d with
      | (some a, d') => f a d'
      | (none, d') => (none, d') := by
  change (match p d with
    | (x, d') => (match x with
      | some a => f a
      | none => pure none : StateM Desk (Option β)) d') = _
  rcases p d with ⟨_ | a, d'⟩ <;> rfl

namespace Coheres

theorem pure (a : α) : Coheres (pure a) :=
  ⟨fun h => .found h⟩

theorem bind {p : Reporter α} {f : α → Reporter β} (hp : Coheres p) (hf : ∀ a, Coheres (f a)) :
    Coheres (p >>= f) := by
  refine ⟨fun {d} hd => ?_⟩
  rw [bind_apply]
  have h := hp.coherent hd
  rcases hr : p d with ⟨_ | a, d'⟩
  · rw [hr] at h
    cases h with
    | missing h => exact .missing h
  · rw [hr] at h
    cases h with
    | found h => exact (hf a).coherent h

theorem cur : Coheres cur :=
  ⟨fun h => .found h⟩

theorem peek : Coheres peek :=
  ⟨fun h => .found h⟩

theorem next : Coheres next :=
  ⟨fun h => .found h⟩

theorem refuse (cause : SyntaxError.Cause) (t : Token) : Coheres (refuse cause t : Reporter α) := by
  refine ⟨fun {d} hd => ?_⟩
  obtain ⟨e, he⟩ := Desk.errors_report hd cause t
  exact .missing he

/-- With a result there is no error to be asked for. -/
theorem unless_failed {p : Reporter α} (hp : Coheres p) :
    Coheres (do if (← get).failed then failure else p) := by
  refine ⟨fun {d} hd => ?_⟩
  change Coherent ((if d.failed then failure else p : Reporter α) d)
  rw [Desk.failed_of_nil hd]
  exact hp.coherent hd

theorem expectPeek (kind : Token.Kind) : Coheres (expectPeek kind) := by
  refine peek.bind fun t => ?_
  split
  · exact next
  · exact .refuse _ _

theorem ident : Coheres ident :=
  .bind (.expectPeek _) fun _ => .bind cur fun _ => .pure _

theorem moreParams (n : Nat) : Coheres (moreParams n) := by
  induction n with
  | zero => exact .bind peek fun _ => .refuse _ _
  | succ n ih =>
    refine .bind peek fun _ => ?_
    split
    · exact .bind next fun _ => .bind ident fun _ => .bind ih fun _ => .pure _
    · exact .pure _

theorem params (n : Nat) : Coheres (params n) := by
  refine .bind peek fun _ => ?_
  split
  · exact .bind next fun _ => .pure _
  · exact .bind ident fun _ => .bind (.moreParams n) fun _ => .bind (.expectPeek _) fun _ => .pure _

theorem numberLiteral : Coheres numberLiteral := by
  refine .bind cur fun _ => ?_
  split
  · exact .pure _
  · exact .refuse _ _

theorem optionalSemicolon : Coheres optionalSemicolon := by
  refine .bind peek fun _ => ?_
  split
  · exact next
  · exact .pure _

end Coheres

structure AllCohere (n : Nat) : Prop where
  expr : ∀ level, Coheres (expr n level)
  operand : Coheres (operand n)
  operators : ∀ level left, Coheres (operators n level left)
  exprList : ∀ close, Coheres (exprList n close)
  moreExprs : Coheres (moreExprs n)
  hashPairs : Coheres (hashPairs n)
  block : Coheres (block n)
  blockBody : Coheres (blockBody n)
  stmt : Coheres (stmt n)
  params : Coheres (params n)
  moreParams : Coheres (moreParams n)

namespace AllCohere

open Coheres

variable (h : AllCohere n)

include h

theorem expr_succ (level : Level) : Coheres (Reporter.expr (n + 1) level) := by
  refine .bind h.operand fun _ => .bind (h.operators _ _) fun _ => .bind .peek fun _ => ?_
  split
  · exact .refuse _ _
  · exact .pure _

theorem exprList_succ (close : Token.Kind) : Coheres (Reporter.exprList (n + 1) close) := by
  refine .bind .peek fun _ => ?_
  split
  · exact .bind .next fun _ => .pure _
  · exact .bind .next fun _ => .bind (h.expr _) fun _ => .bind h.moreExprs fun _ =>
      .bind (.expectPeek _) fun _ => .pure _

theorem moreExprs_succ : Coheres (Reporter.moreExprs (n + 1)) := by
  refine .bind .peek fun _ => ?_
  split
  · exact .bind .next fun _ => .bind .next fun _ => .bind (h.expr _) fun _ =>
      .bind h.moreExprs fun _ => .pure _
  · exact .pure _

theorem hashPairs_succ : Coheres (Reporter.hashPairs (n + 1)) := by
  refine .bind .next fun _ => .bind (h.expr _) fun _ => .bind (.expectPeek _) fun _ => ?_
  refine .bind .next fun _ => .bind (h.expr _) fun _ => .bind .peek fun _ => ?_
  split
  · exact .bind .next fun _ => .bind h.hashPairs fun _ => .pure _
  · exact .pure _

theorem block_succ : Coheres (Reporter.block (n + 1)) :=
  .bind .cur fun _ => .bind .next fun _ => .bind h.blockBody fun _ => .pure _

theorem blockBody_succ : Coheres (Reporter.blockBody (n + 1)) := by
  refine .bind .cur fun _ => ?_
  split
  · exact .pure _
  · exact .refuse _ _
  · exact .bind h.stmt fun _ => .unless_failed (.bind .next fun _ => .bind h.blockBody fun _ =>
      .pure _)

theorem stmt_succ : Coheres (Reporter.stmt (n + 1)) := by
  refine .bind .cur fun _ => ?_
  split
  · exact .bind .ident fun _ => .bind (.expectPeek _) fun _ => .bind .next fun _ =>
      .bind (h.expr _) fun _ => .bind .optionalSemicolon fun _ => .pure _
  · exact .bind .next fun _ => .bind (h.expr _) fun _ => .bind .optionalSemicolon fun _ => .pure _
  · exact .bind (h.expr _) fun _ => .bind .optionalSemicolon fun _ => .pure _

theorem operators_succ (level : Level) (left : Expr) :
    Coheres (Reporter.operators (n + 1) level left) := by
  refine .bind .peek fun _ => ?_
  split
  · exact .pure _
  split
  · exact .bind .next fun _ => .bind (h.exprList _) fun _ => h.operators _ _
  · refine .bind .next fun _ => .bind .peek fun _ => ?_
    split
    · exact .refuse _ _
    · exact .bind .next fun _ => .bind (h.expr _) fun _ => .bind (.expectPeek _) fun _ =>
        h.operators _ _
  · exact .bind .next fun _ => .bind .ident fun _ => .bind (.expectPeek _) fun _ =>
      .bind (h.exprList _) fun _ => h.operators _ _
  · split
    · exact .pure _
    · exact .bind .next fun _ => .bind .next fun _ => .bind (h.expr _) fun _ => h.operators _ _

theorem operand_succ : Coheres (Reporter.operand (n + 1)) := by
  refine .bind .cur fun t => ?_
  split
  · exact .pure _
  · exact .numberLiteral
  · exact .pure _
  · exact .pure _
  · exact .pure _
  · exact .pure _
  · exact .bind .next fun _ => .bind (h.expr _) fun _ => .pure _
  · exact .bind .next fun _ => .bind (h.expr _) fun _ => .pure _
  · exact .bind .next fun _ => .bind (h.expr _) fun _ => .bind (.expectPeek _) fun _ => .pure _
  · exact .bind (h.exprList _) fun _ => .pure _
  · refine .bind .peek fun _ => ?_
    split
    · exact .bind .next fun _ => .pure _
    · exact .bind h.hashPairs fun _ => .bind (.expectPeek _) fun _ => .pure _
  · refine .bind (.expectPeek _) fun _ => .bind .next fun _ => .bind (h.expr _) fun _ => ?_
    refine .bind (.expectPeek _) fun _ => .bind (.expectPeek _) fun _ => ?_
    refine .bind h.block fun _ => .bind .peek fun _ => ?_
    split
    · exact .bind .next fun _ => .bind (.expectPeek _) fun _ => .bind h.block fun _ => .pure _
    · exact .pure _
  · exact .bind (.expectPeek _) fun _ => .bind h.params fun _ => .bind (.expectPeek _) fun _ =>
      .bind h.block fun _ => .pure _
  · exact .refuse _ _
  · exact .refuse _ _

end AllCohere

theorem allCohere (n : Nat) : AllCohere n := by
  induction n with
  | zero =>
    have atCur {α : Type} : Coheres (do refuse .tooDeep (← cur) : Reporter α) :=
      .bind .cur fun _ => .refuse _ _
    have atPeek {α : Type} : Coheres (do refuse .tooDeep (← peek) : Reporter α) :=
      .bind .peek fun _ => .refuse _ _
    exact ⟨fun _ => atCur, atCur, fun _ _ => atPeek, fun _ => atPeek, atPeek, atPeek, atCur, atCur,
      atCur, .params 0, .moreParams 0⟩
  | succ n ih =>
    exact ⟨ih.expr_succ, ih.operand_succ, ih.operators_succ, ih.exprList_succ, ih.moreExprs_succ,
      ih.hashPairs_succ, ih.block_succ, ih.blockBody_succ, ih.stmt_succ, .params _, .moreParams _⟩

theorem stmts_succ (n : Nat) (d : Desk) : stmts (n + 1) d =
    if d.cur.kind = .endOfInput then ([], d)
    else match stmt n d with
      | (none, d') => ([], d')
      | (some s, d') =>
        if d'.failed then ([], d')
        else (s :: (stmts n d'.advance).1, (stmts n d'.advance).2) := by
  change (if d.cur.kind = .endOfInput then pure [] else _ : StateM Desk (List Stmt)) d = _
  split
  · rfl
  · have hbind (f : Option Stmt → StateM Desk (List Stmt)) :
        ((stmt n).run >>= f) d = f (stmt n d).1 (stmt n d).2 := rfl
    rw [hbind]
    rcases stmt n d with ⟨_ | s, d'⟩
    · rfl
    · change (if d'.failed then pure [] else _ : StateM Desk (List Stmt)) d' = _
      dsimp only
      split <;> rfl

/-- The statements of a program come to their end, or one error is reported. -/
theorem errors_stmts (n : Nat) (hd : d.errors = []) :
    ((stmts n d).2.errors = [] ∧ (stmts n d).2.cur.kind = .endOfInput) ∨
      ∃ e, (stmts n d).2.errors = [e] := by
  induction n generalizing d with
  | zero => exact .inr (Desk.errors_report hd _ _)
  | succ n ih =>
    rw [stmts_succ]
    split
    · next hend => exact .inl ⟨hd, hend⟩
    · have h := (allCohere n).stmt.coherent hd
      rcases hr : stmt n d with ⟨_ | s, d'⟩
      · rw [hr] at h
        cases h with
        | missing h => exact .inr ⟨_, h⟩
      · rw [hr] at h
        cases h with
        | found h =>
          dsimp only
          rw [Desk.failed_of_nil h]
          exact ih h

theorem length_errors_program (n : Nat) (hd : d.errors = []) :
    (program n d).2.errors.length ≤ 1 := by
  change (stmts n d).2.close.errors.length ≤ 1
  rcases errors_stmts n hd with ⟨h, -⟩ | ⟨e, h⟩
  · obtain h' | ⟨e, h'⟩ := Desk.errors_close h <;> simp [h']
  · rw [Desk.close_of_failed (Desk.failed_of_singleton h), h]
    exact Nat.le_refl 1

end Reporter

end CornScript
