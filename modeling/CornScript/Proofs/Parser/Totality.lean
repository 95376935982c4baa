import CornScript.Proofs.Parser.Legal
import CornScript.Proofs.Parser.Prefix
import CornScript.Proofs.Parser.Reporting
import CornScript.Proofs.Parser.WellFormed

/-! # The parser always comes to an end

From wherever a part of the parser starts, it comes to an end. It has either a tree, which is
well-formed and was read from legal tokens, or an error about a token it has come to. So a whole
text either is a program, and all its tokens are taken, or has one error. That a tree and an error
never come together, and one of them always comes, holds as well where errors are reported on the
side, and the outcome is the same.
-/

namespace CornScript

theorem Cursor.after_inj {c : Cursor} {ts us : List Token} (h : c.after ts = c.after us) :
    ts = us := by
  have htokens := congrArg (fun d : Cursor => d.head :: d.rest) h
  simp only [tokens_after] at htokens
  exact List.append_cancel_right htokens

namespace Parser

variable {α : Type} {c : Cursor} {m : Bool} {x : Follow} {P : α → Prop} {slack extra : Nat}

/-- How a part of the parser that starts at `c` may end: it has read something with `P` from legal
tokens, and from at least one if `m` is set; or it has read nothing, and reports an error at a token
that it has come to. -/
inductive Ends (m : Bool) (P : α → Prop) (c : Cursor) :
    EStateM.Result SyntaxError Cursor α → Prop where
  | tree {a : α} {d : Cursor} {ts : List Token} : P a → c = d.after ts →
    (∀ t ∈ ts, t.kind.isIllegal = false) → (m → ts ≠ []) → Ends m P c (.ok a d)
  | error {d : Cursor} {ts : List Token} {cause : SyntaxError.Cause} : c = d.after ts →
    (d.report cause).cause ≠ .tooDeep → Ends m P c (.error (d.report cause) d)

/-- A part of the parser comes to an end everywhere. Four steps for every token and `extra` more are
enough for that, and with more steps it ends in the same way. -/
structure Settles (m : Bool) (extra : Nat) (P : α → Prop) (p : Nat → Parser α) : Prop where
  ends : ∀ {c n}, c.Ended → 4 * c.rest.length + extra ≤ n → Ends m P c (p n c)
  same : ∀ {c n n'}, c.Ended → 4 * c.rest.length + extra ≤ n → n ≤ n' → p n' c = p n c

theorem Settles.of {p : Nat → Parser α} (henough : ∀ n, Enough slack extra n p)
    (hviable : ∀ n {c}, c.Ended → Viable m x c (p n) p) (hyields : ∀ n, Yields P (p n))
    (hlegal : ∀ n c, Legal c (p n)) : Settles m extra P p := by
  refine ⟨fun {c n} hc hn => ?_, fun {c n n'} hc hn hle => ?_⟩
  · have hagrees := (henough n).agrees hc hn hn
    cases hr : p n c with
    | ok a d =>
      obtain ⟨ts, hts, hlegal⟩ := (hlegal n c).passes hr
      obtain ⟨us, hus, hnil, -⟩ := (hviable n hc).ok hr
      obtain rfl := Cursor.after_inj (hts.symm.trans hus)
      refine .tree ((hyields n).result hr) hts hlegal fun hm h => ?_
      rw [(hnil h).1] at hm
      cases hm
    | error e d =>
      have he := hagrees.error hr
      obtain ⟨ts, cause, hts, rfl, -⟩ := (hviable n hc).error hr he
      exact .error hts he
  · exact ((henough n).agrees hc hn (Nat.le_trans hn hle)).same.symm

structure Total : Prop where
  expr : ∀ level, Settles true 2 Expr.WellFormed (expr · level)
  operand : Settles true 1 Expr.WellFormed operand
  operators : ∀ level {left}, left.WellFormed →
    Settles false 1 Expr.WellFormed (operators · level left)
  exprList : ∀ {close}, close = .rightParen ∨ close = .rightBracket →
    Settles true 3 (fun es => ∀ e ∈ es, e.WellFormed) (exprList · close)
  moreExprs : Settles false 1 (fun es => ∀ e ∈ es, e.WellFormed) moreExprs
  hashPairs : Settles true 3 (fun ps => ∀ p ∈ ps, p.1.WellFormed ∧ p.2.WellFormed) hashPairs
  params : Settles true 1 (fun _ => True) params
  moreParams : Settles false 1 (fun _ => True) moreParams
  block : Settles true 1 Block.WellFormed block
  blockBody : Settles true 4 (fun body => ∀ st ∈ body, st.WellFormed) blockBody
  stmt : Settles true 3 Stmt.WellFormed stmt
  stmts : Settles false 4 (fun body => ∀ st ∈ body, st.WellFormed) stmts

theorem legal_stmts (n : Nat) (c : Cursor) : Legal c (stmts n) :=
  ⟨fun h => (passes_of_stmts h).1⟩

theorem total : Total where
  expr level := .of (fun n => (ample n).expr level) (fun n => ((predictive n).expr level).viable)
    (fun n => (builds n).expr level) fun n => (lawful n).expr level
  operand := .of (fun n => (ample n).operand) (fun n => (predictive n).operand.viable)
    (fun n => (builds n).operand) fun n => (lawful n).operand
  operators level left hleft := .of (fun n => (ample n).operators level left)
    (fun n => ((predictive n).operators level left).viable)
    (fun n => (builds n).operators hleft level) fun n => (lawful n).operators level left
  exprList := by
    intro close hclose
    have hplain : (Token.sample close).Plain ∧ close.closes := by
      rcases hclose with rfl | rfl <;> decide
    exact .of (fun n => (ample n).exprList hplain.1.1)
      (fun n => ((predictive n).exprList hplain.1 hplain.2).viable)
      (fun n => (builds n).exprList close) fun n => (lawful n).exprList hplain.1.2
  moreExprs := .of (fun n => (ample n).moreExprs) (fun n => (predictive n).moreExprs.viable)
    (fun n => (builds n).moreExprs) fun n => (lawful n).moreExprs
  hashPairs := .of (fun n => (ample n).hashPairs) (fun n => (predictive n).hashPairs.viable)
    (fun n => (builds n).hashPairs) fun n => (lawful n).hashPairs
  params := .of enough_params (fun n => (phrase_params n).viable) (fun _ => ⟨fun _ => trivial⟩)
    .params
  moreParams := .of enough_moreParams (fun n => (phrase_moreParams n).viable)
    (fun _ => ⟨fun _ => trivial⟩) .moreParams
  block := .of (fun n => (ample n).block) (fun n => (predictive n).block.viable)
    (fun n => (builds n).block) fun n => (lawful n).block
  blockBody := .of (fun n => (ample n).blockBody) (fun n => (predictive n).blockBody.viable)
    (fun n => (builds n).blockBody) fun n => (lawful n).blockBody
  stmt := .of (fun n => (ample n).stmt) (fun n => (predictive n).stmt) (fun n => (builds n).stmt)
    fun n => (lawful n).stmt
  stmts := .of enough_stmts (fun n => (phrase_stmts n).viable) yields_stmts legal_stmts

theorem eq_of_stmts {ts : List Token} {last : Token} {body : List Stmt} {n : Nat}
    (hts : ∀ t ∈ ts, t.kind ≠ .endOfInput)
    (h : stmts n (Cursor.ofTokens (ts ++ [last])) = .ok body c) : c = ⟨last, []⟩ := by
  obtain ⟨⟨us, hus, -⟩, hend⟩ := passes_of_stmts h
  rw [Cursor.ofTokens_append] at hus
  have htokens := congrArg (fun d : Cursor => d.head :: d.rest) hus
  simp only [Cursor.tokens_after] at htokens
  obtain ⟨-, hlast, hrest⟩ := Token.eq_of_append hts hend htokens
  rw [hlast, ← hrest]

end Parser

/-- A text has one error, at one of its tokens, or it is a program. Then it has no illegal token,
all its tokens are taken up to the end of input, and the program is well-formed. All parts of the
parser come to an end, so there are always enough steps for that, and more steps change nothing.

When errors are reported on the side, a part of the parser has no result if and only if one has been
reported, there is at most one, and it is that of the text. -/
theorem Program.parse_total (source : Bytes) : Parser.Total ∧
    (∀ n, Reporter.AllCohere n ∧ Reporter.AllMirror n ∧
      (Reporter.program n (Desk.start source)).2.errors.length ≤ 1) ∧
    match parse source with
    | .error e => e.cause ≠ .tooDeep ∧ (∃ t ∈ Token.scan source, e.pos = t.pos) ∧
      (∃ c, ∀ n, Parser.bound (Token.scan source).length ≤ n →
        Parser.stmts n (Cursor.ofTokens (Token.scan source)) = .error e c) ∧
      ∀ n, Parser.bound (Token.scan source).length ≤ n →
        (Reporter.program n (Desk.start source)).2.errors = [e]
    | .ok p => p.WellFormed ∧ Token.illegal? (Token.scan source) = none ∧
      (∃ q, ∀ n, Parser.bound (Token.scan source).length ≤ n →
        Parser.stmts n (Cursor.ofTokens (Token.scan source)) =
          .ok p.body ⟨Token.endAt q, []⟩) ∧
      ∀ n, Parser.bound (Token.scan source).length ≤ n →
        ∃ d, Reporter.program n (Desk.start source) = (p, d) ∧ d.errors = [] ∧
          d.cur.kind = .endOfInput := by
  refine ⟨Parser.total, fun n => ⟨Reporter.allCohere n, Reporter.allMirror n,
    Reporter.length_errors_program n rfl⟩, ?_⟩
  obtain ⟨ts, q, hscan, hts⟩ := Token.exists_scan_eq source
  have hended : (Cursor.ofTokens (Token.scan source)).Ended := by
    rw [hscan]
    exact Cursor.ended_ofTokens ts rfl
  have hsame (n) (hn : Parser.bound (Token.scan source).length ≤ n) :=
    (Parser.stmts_bound hended hn).symm
  cases hparse : parse source with
  | error e =>
    obtain ⟨c, hr, hdeep⟩ := exists_stmts_error hended hparse
    have hstmts (n) (hn : Parser.bound (Token.scan source).length ≤ n) := (hsame n hn).trans hr
    exact ⟨hdeep, exists_pos_of_parse hparse, ⟨c, hstmts⟩, fun n hn =>
      Reporter.errors_program_of_error (.start source) (hstmts n hn) hdeep⟩
  | ok p =>
    have hstmts (n) (hn : Parser.bound (Token.scan source).length ≤ n) :
        Parser.stmts n (Cursor.ofTokens (Token.scan source)) =
          .ok p.body ⟨Token.endAt q, []⟩ := by
      rw [hsame n hn]
      unfold parse ofTokens at hparse
      split at hparse
      · next body c hr =>
        cases hparse
        rw [hr]
        rw [hscan] at hr
        rw [Parser.eq_of_stmts hts hr]
      · cases hparse
    exact ⟨wellFormed_of_parse hparse, illegal?_of_parse hparse, ⟨q, hstmts⟩, fun n hn =>
      Reporter.program_of_ok (.start source) (hstmts n hn) rfl⟩

end CornScript
