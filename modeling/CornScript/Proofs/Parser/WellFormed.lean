import CornScript.Proofs.Parser.Bound
import CornScript.Proofs.Tree.WellFormed

/-! # The parser builds well-formed trees

Whatever the parser reads, and from whatever tokens, is well-formed. Nothing has to be known about
the tokens that are left: the shape of a tree depends only on the way through the parser.
-/

namespace CornScript

namespace Parser

variable {α β : Type} {P : α → Prop} {Q : β → Prop} {n : Nat}

structure Yields (P : α → Prop) (p : Parser α) : Prop where
  result : ∀ {c a c'}, p c = .ok a c' → P a

namespace Yields

theorem pure {a : α} (h : P a) : Yields P (Pure.pure a) := by
  constructor
  rintro _ _ _ ⟨⟩
  exact h

theorem bind {p : Parser α} {f : α → Parser β} (hp : Yields P p) (hf : ∀ a, P a → Yields Q (f a)) :
    Yields Q (p >>= f) := by
  constructor
  intro c b c' h
  cases hr : p c with
  | ok a c₁ =>
    rw [bind_ok hr] at h
    exact (hf a (hp.result hr)).result h
  | error e c₁ =>
    rw [bind_error hr] at h
    cases h

/-- A parser of whose result nothing needs to be known. -/
theorem after {p : Parser α} {f : α → Parser β} (hf : ∀ a, Yields Q (f a)) : Yields Q (p >>= f) :=
  have hp : Yields (fun _ => True) p := ⟨fun _ => trivial⟩
  hp.bind fun a _ => hf a

theorem refuse (cause : SyntaxError.Cause) : Yields P (refuse cause : Parser α) := by
  constructor
  intro c a c' h
  obtain ⟨e, he, -⟩ := refuses_refuse (α := α) cause c
  rw [he] at h
  cases h

theorem refuseOperand (cause : SyntaxError.Cause) : Yields P (refuseOperand cause : Parser α) := by
  constructor
  intro c a c' h
  obtain ⟨e, he, -⟩ := refuses_refuseOperand (α := α) cause c
  rw [he] at h
  cases h

theorem ite {p : Prop} [Decidable p] {x y : Parser α} (hx : Yields P x) (hy : Yields P y) :
    Yields P (if p then x else y) := by
  split
  · exact hx
  · exact hy

end Yields

theorem yields_numberLiteral : Yields Expr.WellFormed numberLiteral := by
  apply Yields.after
  intro t
  split
  · exact .after fun _ => .pure (.number _ _)
  · exact .refuseOperand _

structure Builds (n : Nat) : Prop where
  expr : ∀ level, Yields Expr.WellFormed (expr n level)
  operand : Yields Expr.WellFormed (operand n)
  operators : ∀ {left}, left.WellFormed → ∀ level, Yields Expr.WellFormed (operators n level left)
  exprList : ∀ close, Yields (fun es => ∀ e ∈ es, e.WellFormed) (exprList n close)
  moreExprs : Yields (fun es => ∀ e ∈ es, e.WellFormed) (moreExprs n)
  hashPairs : Yields (fun ps => ∀ p ∈ ps, p.1.WellFormed ∧ p.2.WellFormed) (hashPairs n)
  block : Yields Block.WellFormed (block n)
  blockBody : Yields (fun body => ∀ st ∈ body, st.WellFormed) (blockBody n)
  stmt : Yields Stmt.WellFormed (stmt n)

namespace Builds

theorem expr_succ (h : Builds n) (level : Level) :
    Yields Expr.WellFormed (Parser.expr (n + 1) level) := by
  apply h.operand.bind
  intro first hfirst
  apply (h.operators hfirst level).bind
  intro e he
  exact .after fun t => .ite (.refuse _) (.pure he)

theorem exprList_succ (h : Builds n) (close : Token.Kind) :
    Yields (fun es => ∀ e ∈ es, e.WellFormed) (Parser.exprList (n + 1) close) := by
  refine .after fun t => .ite (.after fun _ => .pure nofun) ?_
  apply (h.expr _).bind
  intro e he
  apply h.moreExprs.bind
  intro es hes
  exact .after fun _ => .pure (List.forall_mem_cons.mpr ⟨he, hes⟩)

theorem moreExprs_succ (h : Builds n) :
    Yields (fun es => ∀ e ∈ es, e.WellFormed) (Parser.moreExprs (n + 1)) := by
  refine .after fun t => .ite (.after fun _ => ?_) (.pure nofun)
  apply (h.expr _).bind
  intro e he
  apply h.moreExprs.bind
  intro es hes
  exact .pure (List.forall_mem_cons.mpr ⟨he, hes⟩)

theorem hashPairs_succ (h : Builds n) :
    Yields (fun ps => ∀ p ∈ ps, p.1.WellFormed ∧ p.2.WellFormed) (Parser.hashPairs (n + 1)) := by
  apply (h.expr _).bind
  intro k hk
  refine .after fun _ => ?_
  apply (h.expr _).bind
  intro v hv
  refine .after fun t => .ite (.after fun _ => ?_) (.pure ?_)
  · apply h.hashPairs.bind
    intro ps hps
    exact .pure (List.forall_mem_cons.mpr ⟨⟨hk, hv⟩, hps⟩)
  · simpa using ⟨hk, hv⟩

theorem block_succ (h : Builds n) : Yields Block.WellFormed (Parser.block (n + 1)) := by
  refine .after fun t => ?_
  apply h.blockBody.bind
  intro body hbody
  exact .pure (.mk hbody)

theorem blockBody_succ (h : Builds n) :
    Yields (fun body => ∀ st ∈ body, st.WellFormed) (Parser.blockBody (n + 1)) := by
  apply Yields.after
  intro t
  split
  · exact .after fun _ => .pure nofun
  · exact .refuse _
  · apply h.stmt.bind
    intro st hst
    apply h.blockBody.bind
    intro body hbody
    exact .pure (List.forall_mem_cons.mpr ⟨hst, hbody⟩)

theorem stmt_succ (h : Builds n) : Yields Stmt.WellFormed (Parser.stmt (n + 1)) := by
  apply Yields.after
  intro t
  split
  · refine .after fun _ => .after fun target => .after fun _ => ?_
    apply (h.expr _).bind
    intro v hv
    exact .after fun _ => .pure (.bind hv)
  · refine .after fun _ => ?_
    apply (h.expr _).bind
    intro v hv
    exact .after fun _ => .pure (.give hv)
  · apply (h.expr _).bind
    intro v hv
    exact .after fun _ => .pure (.expr hv)

theorem known_of_binary {kind : Token.Kind} {op : BinaryOp} {level : Level}
    (h : kind.binary? = some (op, level)) : op.Known := by
  cases kind <;> cases h <;> decide

theorem operators_succ (h : Builds n) {left : Expr} (hleft : left.WellFormed) (level : Level) :
    Yields Expr.WellFormed (Parser.operators (n + 1) level left) := by
  apply Yields.after
  intro t
  split
  · next hkind =>
    refine .after fun _ => ?_
    apply (h.exprList _).bind
    intro args hargs
    exact h.operators (.call hkind hleft hargs) level
  · next hkind =>
    refine .after fun _ => .after fun close => .ite (.refuse _) ?_
    apply (h.expr _).bind
    intro index hindex
    exact .after fun _ => h.operators (.subscript hkind hleft hindex) level
  · next hkind =>
    refine .after fun _ => .after fun name => .after fun _ => ?_
    apply (h.exprList _).bind
    intro args hargs
    exact h.operators (.method hkind hleft hargs) level
  · split
    · exact .pure hleft
    · next op own hop =>
      refine .ite (.after fun _ => ?_) (.pure hleft)
      apply (h.expr _).bind
      intro right hright
      exact h.operators (.binary (known_of_binary hop) hleft hright) level

theorem operand_succ (h : Builds n) : Yields Expr.WellFormed (Parser.operand (n + 1)) := by
  apply Yields.after
  intro t
  split
  case h_1 => exact .after fun _ => .pure (.ident _)
  case h_2 => exact yields_numberLiteral
  case h_3 => exact .after fun _ => .pure (.string _ _)
  case h_4 => exact .after fun _ => .pure (.boolean _ _)
  case h_5 => exact .after fun _ => .pure (.boolean _ _)
  case h_6 => exact .after fun _ => .pure (.null _)
  case h_7 => exact .after fun _ => (h.expr _).bind fun e he => .pure (.unary .not he)
  case h_8 => exact .after fun _ => (h.expr _).bind fun e he => .pure (.unary .neg he)
  case h_9 => exact .after fun _ => (h.expr _).bind fun e he => .after fun _ => .pure he
  case h_10 => exact .after fun _ => (h.exprList _).bind fun es hes => .pure (.array hes)
  case h_11 =>
    refine .after fun _ => .after fun close => .ite ?_ ?_
    · exact .after fun _ => .pure (.hash rfl nofun nofun)
    · apply h.hashPairs.bind
      intro ps hps
      refine .after fun _ => .pure (.hash (by simp) ?_ ?_)
      · exact List.forall_mem_map.mpr fun p hp => (hps p hp).1
      · exact List.forall_mem_map.mpr fun p hp => (hps p hp).2
  case h_12 =>
    refine .after fun _ => .after fun _ => ?_
    apply (h.expr _).bind
    intro c hc
    refine .after fun _ => ?_
    apply h.block.bind
    intro b hb
    refine .after fun word => .ite (.after fun _ => ?_) (.pure (.cond hc hb nofun))
    apply h.block.bind
    intro a ha
    exact .pure (.cond hc hb (by simpa using ha))
  case h_13 =>
    refine .after fun _ => .after fun _ => .after fun ps => ?_
    apply h.block.bind
    intro body hbody
    exact .pure (.function hbody)
  case h_14 => exact .refuseOperand _
  case h_15 => exact .refuseOperand _

end Builds

theorem builds (n : Nat) : Builds n := by
  induction n with
  | zero =>
    constructor
    case operators => exact fun _ _ => .refuse _
    all_goals first | exact .refuse _ | exact fun _ => .refuse _
  | succ n ih =>
    exact ⟨ih.expr_succ, ih.operand_succ, ih.operators_succ, ih.exprList_succ, ih.moreExprs_succ,
      ih.hashPairs_succ, ih.block_succ, ih.blockBody_succ, ih.stmt_succ⟩

theorem yields_stmts (n : Nat) : Yields (fun body => ∀ st ∈ body, st.WellFormed) (stmts n) := by
  induction n with
  | zero => exact .refuse _
  | succ n ih =>
    refine .after fun t => .ite (.pure nofun) ?_
    apply (builds n).stmt.bind
    intro st hst
    apply ih.bind
    intro body hbody
    exact .pure (List.forall_mem_cons.mpr ⟨hst, hbody⟩)

end Parser

theorem Program.wellFormed_of_parse {source : Bytes} {p : Program} (h : parse source = .ok p) :
    p.WellFormed := by
  unfold parse ofTokens at h
  split at h
  · next hok =>
    cases h
    exact (Parser.yields_stmts _).result hok
  · cases h

end CornScript
