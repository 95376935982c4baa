import CornScript.Proofs.Eval.Discipline
import CornScript.Proofs.Number.Text
import CornScript.Proofs.Parser.Roundtrip
import CornScript.Session

/-! # A number that is shown can be read again

What inspection shows of a finite number is the text of a program. The program is a literal, or a
minus in front of one, and its value is the number to the bit: a zero keeps its sign, since the
minus is not a part of the literal but negates what the literal stands for.
-/

namespace CornScript

variable {w : Bytes} {v : Float}

/-! ## Reading -/

namespace Token

theorem Numeral.noNul (h : Numeral w) : 0 ∉ w := by
  have hdigits {n : Bytes} (hn : ∀ d ∈ n, Bytes.isDigit d) : 0 ∉ n := fun h0 =>
    absurd (hn 0 h0) (by decide)
  cases h with
  | whole _ hn => exact hdigits hn
  | fraction _ hn _ hf => simpa using ⟨hdigits hn, hdigits hf⟩

theorem Numeral.lexes (h : Numeral w) : Lexes w [⟨.number, w, .start⟩] [] :=
  .token (.number h) (longest_numeral h nofun nofun) (fun _ => nofun) h.noNul

theorem Numeral.lexes_minus (h : Numeral w) :
    Lexes (0x2D :: w) [⟨.minus, [0x2D], .start⟩, ⟨.number, w, .start⟩] [] := by
  have hminus : (([0x2D], .minus) : Bytes × Kind) ∈ operators := by decide
  have hno : ([0x2D, 0x3D] : Bytes) ∉ operators.map Prod.fst := by decide
  exact Lexes.append (.operator hminus (fun _ => hno) (by decide)) h.lexes

theorem Lexes.exists_scan {us : List Token} (h : Lexes w us []) :
    ∃ ts last, scan w = ts ++ [last] ∧ ts.map unplaced = us ∧ last.kind = .endOfInput := by
  obtain ⟨ts, rest, hscan, hts, hrest⟩ := List.map_eq_append_iff.mp h.map_scan
  obtain ⟨last, rfl, hlast⟩ := List.map_eq_singleton_iff.mp hrest
  exact ⟨ts, last, hscan, hts, congrArg kind hlast⟩

end Token

namespace Program

open CornScript.Parser

theorem parse_expr {t last : Token} {ts : List Token} {e : Expr}
    (hscan : Token.scan w = t :: ts ++ [last]) (hlast : last.kind = .endOfInput)
    (hbind : t.kind ≠ .letWord) (hgive : t.kind ≠ .returnWord) (hend : t.kind ≠ .endOfInput)
    (h : ∀ {d : Cursor}, d.head.kind.stops → Tends (expr · .lowest) (d.after (t :: ts)) (.ok e d)) :
    parse w = .ok ⟨[.expr t e]⟩ := by
  have hcloses : (⟨last, []⟩ : Cursor).head.kind.closes := by rw [hlast]; rfl
  have hrun : Tends stmts ((⟨last, []⟩ : Cursor).after (t :: ts))
      (.ok [.expr t e] ⟨last, []⟩) :=
    tends_stmts_first hend (tends_stmt_expr hbind hgive (h (stops_of_closes hcloses)) hcloses)
      (.succ (.of_eq fun _ => congrFun (if_pos hlast) _))
  rw [← Cursor.ofTokens_append] at hrun
  rw [parse, hscan, ofTokens, stmts_of_tends (Cursor.ended_ofTokens _ hlast) hrun]

theorem parse_numeral (h : Token.Numeral w) (hv : Number.ofLiteral? w = some v) :
    ∃ t, parse w = .ok ⟨[.expr t (.number t v)]⟩ := by
  obtain ⟨ts, last, hscan, hts, hlast⟩ := h.lexes.exists_scan
  obtain ⟨t, rfl, ht⟩ := List.map_eq_singleton_iff.mp hts
  have hkind : t.kind = .number := congrArg Token.kind ht
  have hliteral : t.literal = w := congrArg Token.literal ht
  rw [← hliteral] at hv
  exact ⟨t, parse_expr hscan hlast (hkind ▸ nofun) (hkind ▸ nofun) (hkind ▸ nofun)
    (Starts.number hkind hv).expr⟩

theorem parse_minus (h : Token.Numeral w) (hv : Number.ofLiteral? w = some v) :
    ∃ t u, parse (0x2D :: w) = .ok ⟨[.expr t (.unary t .neg (.number u v))]⟩ := by
  obtain ⟨ts, last, hscan, hts, hlast⟩ := h.lexes_minus.exists_scan
  obtain ⟨t, us, rfl, ht, hus⟩ := List.map_eq_cons_iff.mp hts
  obtain ⟨u, rfl, hu⟩ := List.map_eq_singleton_iff.mp hus
  have hminus : t.kind = .minus := congrArg Token.kind ht
  have hkind : u.kind = .number := congrArg Token.kind hu
  have hliteral : u.literal = w := congrArg Token.literal hu
  have hsign : t.kind.unary? = some .neg := by rw [hminus]; rfl
  rw [← hliteral] at hv
  exact ⟨t, u, parse_expr hscan hlast (hminus ▸ nofun) (hminus ▸ nofun) (hminus ▸ nofun)
    ((Starts.number hkind hv).expr_unary hsign)⟩

end Program

/-! ## Running -/

/-- In every state the expression has a value, and that is this object. -/
def Expr.Evaluates (e : Expr) (fuel : Nat) (scope : ScopeId) (o : Object) : Prop :=
  ∀ s : State, ∃ r t, e.eval fuel scope s = .ok r t ∧ t.store.get r = o

namespace Expr

variable {e : Expr} {fuel : Nat} {scope : ScopeId} {o : Object} {t : Token}

theorem evaluates_number (t : Token) (v : Float) (fuel : Nat) (scope : ScopeId) :
    (number t v).Evaluates (fuel + 1) scope (.number v) :=
  fun s => ⟨(s.alloc (.number v)).1, (s.alloc (.number v)).2, rfl, State.get_alloc_self⟩

theorem Evaluates.neg (h : e.Evaluates fuel scope (.number v)) :
    (unary t .neg e).Evaluates (fuel + 1) scope (.number (-v)) := by
  intro s
  obtain ⟨r, u, heval, hget⟩ := h s
  refine ⟨(u.alloc (.number (-v))).1, (u.alloc (.number (-v))).2, ?_, State.get_alloc_self⟩
  change EStateM.bind (e.eval fuel scope) (fun r => do
    Eval.ofResult (UnaryOp.neg.apply (← Eval.read r))) s = _
  rw [EStateM.bind, heval]
  change Eval.ofResult (UnaryOp.neg.apply (u.store.get r)) u = _
  rw [hget]
  rfl

theorem Evaluates.run (h : e.Evaluates fuel scope o) (s : State) :
    ∃ r u, Program.run fuel scope ⟨[.expr t e]⟩ s = .ok r u ∧ u.store.get r = o := by
  let begun := s.trace fun _ => text "eval program (" ++ Bytes.ofNat 1 ++ text " statements)"
  obtain ⟨r, u, heval, hget⟩ := h { begun with statements := begun.statements + 1 }
  refine ⟨r, u.collectIfDue scope r, ?_, ?_⟩
  · change EStateM.bind (e.eval fuel scope)
      (fun r => do
        modify fun state => state.collectIfDue scope r
        pure r) { begun with statements := begun.statements + 1 } = _
    rw [EStateM.bind, heval]
    rfl
  · rw [State.store_collectIfDue]
    exact hget

end Expr

namespace Session

variable {s : Session} {fuel : Nat} {e : Expr} {o : Object} {t : Token}

theorem exec_expr (hparse : Program.parse w = .ok ⟨[.expr t e]⟩)
    (h : e.Evaluates fuel s.scope o) :
    ∃ r s', s.exec fuel w = (.finished (.value r), s') ∧ s'.object r = o := by
  obtain ⟨r, u, hrun, hget⟩ := h.run (t := t) s.state
  refine ⟨r, ⟨u, s.scope⟩, ?_, hget⟩
  rw [exec_of_parse hparse, hrun]
  rfl

/-- What is shown of a finite number is a program, and in every session its value is the number. Two
numbers are equal only if their bits are, so a zero keeps its sign. -/
theorem exec_inspect (hfinite : v.isFinite = true) (s : Session) (fuel : Nat) :
    (∃ p, Program.parse (Object.number v).inspect = .ok p) ∧
      ∃ r s', s.exec (fuel + 2) (Object.number v).inspect = (.finished (.value r), s') ∧
        s'.object r = .number v := by
  obtain ⟨negative, m, e, hparts⟩ := Number.isFinite_parts hfinite
  have hliteral := Number.ofLiteral?_layout hparts
  have hnumeral := Decimal.numeral_layout (Decimal.shortest v.abs m e)
  change (∃ p, Program.parse (Number.toText v) = .ok p) ∧
    ∃ r s', s.exec (fuel + 2) (Number.toText v) = _ ∧ _
  rw [Number.toText_eq hparts]
  cases negative with
  | false =>
    have hv : v.abs = v := (Number.abs_eq hparts).trans (Number.toFloat_parts hparts)
    obtain ⟨t, hparse⟩ := Program.parse_numeral hnumeral (hliteral.trans (congrArg some hv))
    rw [if_neg Bool.false_ne_true, List.nil_append]
    exact ⟨⟨_, hparse⟩, exec_expr hparse (Expr.evaluates_number t v (fuel + 1) s.scope)⟩
  | true =>
    obtain ⟨t, u, hparse⟩ := Program.parse_minus hnumeral hliteral
    have hrun := (Expr.evaluates_number u v.abs fuel s.scope).neg (t := t)
    rw [Number.neg_abs hparts] at hrun
    rw [if_pos rfl, List.singleton_append]
    exact ⟨⟨_, hparse⟩, exec_expr hparse hrun⟩

theorem exec_inspect_negZero :
    (-0.0 : Float).isFinite = true ∧ (Object.number (-0.0)).inspect = text "-0" ∧
      (∃ p, Program.parse (text "-0") = .ok p) ∧
      ∃ r s', (Session.new 1 .unlimited (.start .info)).exec 2 (text "-0") =
        (.finished (.value r), s') ∧ s'.object r = .number (-0.0) := by
  have hfinite : (-0.0 : Float).isFinite = true := by decide +kernel
  have htext : (Object.number (-0.0)).inspect = text "-0" := by decide +kernel
  have hexec := exec_inspect hfinite (.new 1 .unlimited (.start .info)) 0
  rw [htext] at hexec
  exact ⟨hfinite, htext, hexec⟩

end Session

end CornScript
