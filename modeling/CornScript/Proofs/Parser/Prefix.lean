import CornScript.Proofs.Parser.Climbing
import CornScript.Proofs.Parser.Viability
import Mathlib

/-! # Errors are reported at the first wrong token

Every part of the parser is viable. So the tokens before a syntax error can be completed to a
program, and the token at the error cannot stand where it does, whatever follows it.
-/

namespace CornScript

def Token.Kind.stops : Kind → Bool
  | rightParen | rightBracket | rightBrace | comma | colon | semicolon | endOfInput => true
  | _ => false

namespace Parser

variable {c d : Cursor} {n : Nat} {w x : Follow} {level : Level} {left e : Expr}
  {kind close : Token.Kind}

/-! ## The end of an expression -/

section Ends

theorem stops_of_closes (h : kind.closes) : kind.stops := by
  cases kind <;> cases h <;> rfl

theorem rests_of_stops (h : kind.stops) : level.Rests kind := by
  cases kind <;> cases h <;> exact ⟨rfl, nofun⟩

theorem not_stray_of_stops (h : kind.stops) : ¬ kind.isStray := by
  cases kind <;> cases h <;> nofun

theorem operators_of_rests (h : level.Rests c.head.kind) :
    operators (n + 1) level left c = .ok left c :=
  quiet_eq_some.mp (quiet_operators_rests h)

theorem tends_operators (h : d.head.kind.stops) : Tends (operators · level e) d (.ok e d) :=
  .succ (.of_eq fun _ => operators_of_rests (rests_of_stops h))

theorem tends_unlessStray (h : d.head.kind.stops) :
    Tends (fun _ => do
      let t ← head
      if t.kind.isStray then refuse (.strayOperator t.literal) else return e) d (.ok e d) :=
  .of_eq fun _ => congrFun (if_neg (not_stray_of_stops h)) d

theorem tends_expr
    (h : Tends (fun n => operand n >>= fun first => operators n level first) c (.ok e d))
    (hd : d.head.kind.stops) : Tends (expr · level) c (.ok e d) := by
  let check (e : Expr) (_ : Nat) : Parser Expr := do
    let t ← head
    if t.kind.isStray then refuse (.strayOperator t.literal) else return e
  have hcheck : Tends (check e) d (.ok e d) := tends_unlessStray hd
  have hall := h.bind_ok hcheck
  simp only [bind_assoc] at hall
  exact .succ hall

end Ends

/-! ## Shortest completions -/

section Completions

theorem reads_operators (level : Level) (left : Expr) :
    Reads (operators · level left) .closers [] left :=
  fun _ hd => tends_operators (stops_of_closes hd)

theorem reads_operand :
    Reads operand x [Token.sample .ident]
      (.ident ⟨Token.sample .ident, Token.Kind.name .ident⟩) := by
  intro d _
  exact .succ (.of_eq fun _ => rfl)

theorem reads_expr (level : Level) :
    Reads (expr · level) .closers [Token.sample .ident]
      (.ident ⟨Token.sample .ident, Token.Kind.name .ident⟩) := by
  intro d hd
  exact tends_expr ((reads_operand d hd).bind_ok (reads_operators level _ d hd))
    (stops_of_closes hd)

theorem reads_subscript (level : Level) (t : Token) (left : Expr) :
    Reads (fun n => do
        let index ← expr n .lowest
        let _ ← expect .rightBracket
        operators n level (.call t left [index])) .closers
      [Token.sample .ident, Token.sample .rightBracket]
      (.call t left [.ident ⟨Token.sample .ident, Token.Kind.name .ident⟩]) := by
  have hclose : Reads (fun _ => expect .rightBracket) .closers [Token.sample .rightBracket]
      (Token.sample .rightBracket) := fun _ _ => .of_eq fun _ => rfl
  have hafter (e : Expr) : Reads (fun n => expect .rightBracket >>= fun _ => operators n level e)
      .closers [Token.sample .rightBracket] e :=
    hclose.bind (reads_operators level e) fun _ hd => hd
  exact (reads_expr .lowest).bind (hafter _) fun _ _ => rfl

theorem reads_exprList (close : Token.Kind) :
    Reads (exprList · close) x [Token.sample close] [] := by
  intro d _
  exact .succ (.of_eq fun _ => congrFun (if_pos rfl) _)

theorem reads_moreExprs : Reads moreExprs .closers [] [] := by
  intro d hd
  exact .succ (Reads.skip rfl d hd)

theorem reads_blockBody : Reads blockBody x [Token.sample .rightBrace] [] := by
  intro d _
  exact .succ (.of_eq fun _ => rfl)

theorem completes_expr (level : Level) : Completes .anything .closers (expr · level) :=
  .single (by decide) rfl (reads_expr level)

theorem completes_hashPairs : Completes .anything .closers hashPairs :=
  .succ (.bind (completes_expr _) fun _ =>
    .bind (Phrase.expect (w := .closers) rfl (by decide)).completes fun _ =>
      .bind (completes_expr _) fun k => .nil (fun _ hk => hk) (.skip rfl))

theorem completes_block : Completes .anything .anything block := by
  have hbody : Completes .anything .anything blockBody := .single (by decide) rfl reads_blockBody
  exact .succ (.bind (Phrase.expect (w := .anything) rfl (by decide)).completes fun _ => hbody.map)

end Completions

/-! ## The parts of the parser -/

theorem viable_numberLiteral (hc : c.Ended) (hk : c.head.kind ≠ .endOfInput) :
    Viable true x c numberLiteral fun _ => numberLiteral := by
  apply Viable.peek
  split
  · exact (Viable.take hc hk).map.of_anything
  · exact .refuseOperand rfl

theorem phrase_optionalSemicolon :
    Phrase .closers false .closers optionalSemicolon fun _ => optionalSemicolon :=
  .optional (by decide) (by decide) rfl fun hc hk =>
    (Viable.take hc (hk ▸ nofun)).map.of_anything

theorem phrase_moreParams (n : Nat) :
    Phrase .anything false .closers (moreParams n) moreParams := by
  have hcompletes : Completes .anything .closers moreParams :=
    .succ (.nil (fun _ _ => rfl) (.skip (a := []) rfl))
  induction n with
  | zero => exact ⟨fun hc => .tooDeep, hcompletes⟩
  | succ n ih =>
    refine ⟨fun hc => .succ (.optional (by decide) rfl fun hk => ?_), hcompletes⟩
    exact .bind (by decide) hc (.take hc (hk ▸ nofun)) fun _ =>
      .bind (by decide) .expectIdent fun _ => ih.map

theorem phrase_params (n : Nat) : Phrase .anything true .anything (params n) params :=
  .closed rfl (by decide) fun hc => .bind (by decide) hc (Phrase.expectIdent.viable hc) fun _ =>
    .bind (by decide) (phrase_moreParams n) fun _ => .map (.expect rfl (by decide))

theorem phrase_unlessStray (e : Expr) :
    Phrase .closers false .closers
      (do let t ← head; if t.kind.isStray then refuse (.strayOperator t.literal) else return e)
      fun _ => do
        let t ← head
        if t.kind.isStray then refuse (.strayOperator t.literal) else return e := by
  have hreads : Reads (fun _ => do
      let t ← head
      if t.kind.isStray then refuse (.strayOperator t.literal) else return e) .closers [] e :=
    fun _ hd => tends_unlessStray (stops_of_closes hd)
  refine ⟨fun {c} hc => ?_, .nil (fun _ hk => hk) hreads⟩
  by_cases hs : c.head.kind.isStray
  · refine .weaken (.peek ?_)
    simp only [if_pos hs]
    exact .refuse rfl
  · exact .stop nofun (congrFun (if_neg hs) c)
      (fun d hd => .of_eq fun _ => congrFun (if_neg (hd ▸ hs)) d) hreads

structure Predictive (n : Nat) : Prop where
  expr : ∀ level, Phrase .anything true .closers (expr n level) (expr · level)
  operand : Phrase .anything true .closers (operand n) operand
  operators : ∀ level left,
    Phrase .closers false .closers (operators n level left) (operators · level left)
  exprList : ∀ {close}, (Token.sample close).Plain → close.closes →
    Phrase .anything true .anything (exprList n close) (exprList · close)
  moreExprs : Phrase .closers false .closers (moreExprs n) moreExprs
  hashPairs : Phrase .anything true .closers (hashPairs n) hashPairs
  block : Phrase .anything true .anything (block n) block
  blockBody : Phrase .closers true .anything (blockBody n) blockBody
  stmt : ∀ {c}, c.Ended → Viable true .closers c (stmt n) stmt

namespace Predictive

theorem expr_succ (h : Predictive n) (level : Level) (hc : c.Ended) :
    Viable true .closers c (Parser.expr (n + 1) level) (Parser.expr · level) :=
  .succ (.bind (by decide) hc (h.operand.viable hc) fun first =>
    .bind (by decide) (h.operators level first) phrase_unlessStray)

theorem exprList_succ (h : Predictive n) (hk : (Token.sample close).Plain) (hclose : close.closes) :
    Phrase .anything true .anything (Parser.exprList (n + 1) close) (Parser.exprList · close) :=
  .succ (.closed rfl hk fun hc => .bind (by decide) hc ((h.expr _).viable hc) fun _ =>
    .bind (by decide) h.moreExprs fun _ => .map (.expect hclose hk))

theorem moreExprs_succ (h : Predictive n) (hc : c.Ended) :
    Viable false .closers c (Parser.moreExprs (n + 1)) Parser.moreExprs := by
  refine .succ (.optional (by decide) rfl fun hk => ?_)
  exact .bind (by decide) hc (.take hc (hk ▸ nofun)) fun _ =>
    .bind (by decide) (h.expr _) fun _ => h.moreExprs.map

theorem hashPairs_succ (h : Predictive n) (hc : c.Ended) :
    Viable true .closers c (Parser.hashPairs (n + 1)) Parser.hashPairs :=
  .succ (.bind (by decide) hc ((h.expr _).viable hc) fun _ =>
    .bind (by decide) (.expect rfl (by decide)) fun _ =>
      .bind (by decide) (h.expr _) fun _ => .optional (by decide) (by decide) rfl fun hc hk =>
        .bind (by decide) hc (.take hc (hk ▸ nofun)) fun _ => h.hashPairs.map)

theorem block_succ (h : Predictive n) (hc : c.Ended) :
    Viable true .anything c (Parser.block (n + 1)) Parser.block := by
  have hbrace : Phrase .anything true .anything (Parser.expect .leftBrace) _ :=
    .expect rfl (by decide)
  exact .succ (.bind (by decide) hc (hbrace.viable hc) fun _ => h.blockBody.after_anything.map)

theorem blockBody_succ (h : Predictive n) (hc : c.Ended) :
    Viable true .anything c (Parser.blockBody (n + 1)) Parser.blockBody := by
  refine .succ (.peek ?_)
  split
  · next hk => exact (Viable.take hc (hk ▸ nofun)).map
  · exact .refuse rfl
  · exact .bind (by decide) hc (h.stmt hc) fun _ => h.blockBody.map

theorem stmt_succ (h : Predictive n) (hc : c.Ended) :
    Viable true .closers c (Parser.stmt (n + 1)) Parser.stmt := by
  refine .succ (.peek ?_)
  split
  · next hk =>
    exact .bind (by decide) hc (.take hc (hk ▸ nofun)) fun _ =>
      .bind (by decide) .expectIdent fun _ => .bind (by decide) (.expect rfl (by decide)) fun _ =>
        .bind (by decide) (h.expr _) fun _ => phrase_optionalSemicolon.map
  · next hk =>
    exact .bind (by decide) hc (.take hc (hk ▸ nofun)) fun _ =>
      .bind (by decide) (h.expr _) fun _ => phrase_optionalSemicolon.map
  · exact .bind (by decide) hc ((h.expr _).viable hc) fun _ => phrase_optionalSemicolon.map

theorem operators_succ (h : Predictive n) (level : Level) (left : Expr) (hc : c.Ended) :
    Viable false .closers c (Parser.operators (n + 1) level left)
      (Parser.operators · level left) := by
  have again (left : Expr) := (h.operators level left).after_anything
  rcases level.rests_or c.head.kind with hs | ⟨op, own, hb, hl⟩ | hr
  · refine .weaken (.succ (.peek ?_))
    cases hk : c.head.kind with
    | leftParen =>
      exact .bind (by decide) hc (.take hc (hk ▸ nofun)) fun _ =>
        .bind (by decide) (h.exprList (by decide) rfl) fun _ => again _
    | leftBracket =>
      exact .bind (by decide) hc (.take hc (hk ▸ nofun)) fun _ =>
        .barred rfl (by decide) (by decide) (reads_subscript level _ left) fun hc =>
          .bind (by decide) hc ((h.expr _).viable hc) fun _ =>
            .bind (by decide) (.expect rfl (by decide)) fun _ => again _
    | dot =>
      exact .bind (by decide) hc (.take hc (hk ▸ nofun)) fun _ =>
        .bind (by decide) .expectIdent fun _ => .bind (by decide) (.expect rfl (by decide)) fun _ =>
          .bind (by decide) (h.exprList (by decide) rfl) fun _ => again _
    | _ => rw [hk] at hs; cases hs
  · have hk : c.head.kind ≠ .endOfInput := by
      intro he
      rw [he] at hb
      cases hb
    refine .weaken (.succ (.peek ?_))
    split
    · next hk => rw [hk] at hb; cases hb
    · next hk => rw [hk] at hb; cases hb
    · next hk => rw [hk] at hb; cases hb
    · simp only [hb, if_pos hl]
      exact .bind (by decide) hc (.take hc hk) fun _ =>
        .bind (by decide) (h.expr _) fun _ => h.operators _ _
  · exact .stop nofun (operators_of_rests hr)
      (fun d hd => .succ (.of_eq fun _ => operators_of_rests (hd ▸ hr)))
      (reads_operators level left)

theorem operand_succ (h : Predictive n) (hc : c.Ended) :
    Viable true .closers c (Parser.operand (n + 1)) Parser.operand := by
  refine .succ (.peek ?_)
  by_cases hend : c.head.kind = .endOfInput
  · rw [hend]
    exact .refuseOperand rfl
  have htake := Viable.take hc hend
  have leaf (e : Expr) : Viable true .closers c (take >>= fun _ => pure e) fun _ =>
      take >>= fun _ => pure e := htake.map.of_anything
  split
  · exact leaf _
  · exact viable_numberLiteral hc hend
  · exact leaf _
  · exact leaf _
  · exact leaf _
  · exact leaf _
  · exact .bind (by decide) hc htake fun _ => (h.expr _).map
  · exact .bind (by decide) hc htake fun _ => (h.expr _).map
  · exact .of_anything (.bind (by decide) hc htake fun _ =>
      .bind (by decide) (h.expr _) fun _ => .map (.expect rfl (by decide)))
  · exact .of_anything (.bind (by decide) hc htake fun _ => (h.exprList (by decide) rfl).map)
  · exact .of_anything (.bind (by decide) hc htake fun _ => 
      .closed rfl (by decide) fun hc => .bind (by decide) hc (h.hashPairs.viable hc) fun _ =>
        .map (.expect rfl (by decide)))
  · exact .bind (by decide) hc htake fun _ => .bind (by decide) (.expect rfl (by decide)) fun _ =>
      .bind (by decide) (h.expr _) fun _ => .bind (by decide) (.expect rfl (by decide)) fun _ =>
        .bind (by decide) h.block fun _ => .optional (by decide) (by decide) rfl fun hc hk =>
          .of_anything (.bind (by decide) hc (.take hc (hk ▸ nofun)) fun _ => h.block.map)
  · exact .of_anything (.bind (by decide) hc htake fun _ =>
      .bind (by decide) (.expect rfl (by decide)) fun _ =>
        .bind (by decide) (phrase_params n) fun _ => h.block.map)
  · exact .refuseOperand rfl
  · exact .refuseOperand rfl

end Predictive

theorem predictive (n : Nat) : Predictive n := by
  have hoperand : Completes .anything .closers operand := .single (by decide) rfl reads_operand
  have hoperators (level : Level) (left : Expr) :
      Completes .closers .closers (operators · level left) :=
    .nil (fun _ hk => hk) (reads_operators level left)
  have hlist {close : Token.Kind} (hk : (Token.sample close).Plain) :
      Completes .anything .anything (exprList · close) := .single hk rfl (reads_exprList close)
  have hmore : Completes .closers .closers moreExprs := .nil (fun _ hk => hk) reads_moreExprs
  have hbody : Completes .closers .anything blockBody := .single (by decide) rfl reads_blockBody
  induction n with
  | zero =>
    exact ⟨fun level => .tooDeep (completes_expr level), .tooDeep hoperand,
      fun level left => .tooDeep (hoperators level left), fun hk _ => .tooDeep (hlist hk),
      .tooDeep hmore, .tooDeep completes_hashPairs, .tooDeep completes_block, .tooDeep hbody,
      fun _ => .tooDeep⟩
  | succ n ih =>
    exact ⟨fun level => ⟨ih.expr_succ level, completes_expr level⟩, ⟨ih.operand_succ, hoperand⟩,
      fun level left => ⟨ih.operators_succ level left, hoperators level left⟩, ih.exprList_succ,
      ⟨ih.moreExprs_succ, hmore⟩, ⟨ih.hashPairs_succ, completes_hashPairs⟩,
      ⟨ih.block_succ, completes_block⟩, ⟨ih.blockBody_succ, hbody⟩, ih.stmt_succ⟩

theorem reads_stmts : Reads stmts .ending [] [] := by
  intro d hd
  exact .succ (.of_eq fun _ => congrFun (if_pos (eq_of_beq hd)) d)

theorem phrase_stmts (n : Nat) : Phrase .closers false .ending (stmts n) stmts := by
  have hcompletes : Completes .closers .ending stmts :=
    .nil (fun _ => Follow.admits_of_admits (by decide) (by decide)) reads_stmts
  induction n with
  | zero => exact .tooDeep hcompletes
  | succ n ih =>
    refine ⟨fun {c} hc => ?_, hcompletes⟩
    by_cases hk : c.head.kind = .endOfInput
    · refine .stop nofun (congrFun (if_pos hk) c) (fun d hd => ?_) reads_stmts
      exact .succ (.of_eq fun _ => congrFun (if_pos (hd ▸ hk)) d)
    · refine .weaken (.succ (.peek ?_))
      simp only [if_neg hk]
      exact .bind (by decide) hc ((predictive n).stmt hc) fun _ => ih.map

end Parser

open CornScript.Parser

variable {before rest tokens : List Token} {t : Token} {source : Bytes} {e : SyntaxError}

theorem Cursor.ofTokens_append (before : List Token) (t : Token) (rest : List Token) :
    ofTokens (before ++ t :: rest) = (⟨t, rest⟩ : Cursor).after before := by
  cases before with
  | nil => rfl
  | cons t' ts => simp only [List.cons_append, ofTokens, after, tokens_after]

theorem Token.Lexed.valid (h : Token.Lexed tokens) : (Cursor.ofTokens tokens).Valid := by
  obtain ⟨ts, last, rfl, hlast, hts⟩ := h
  refine ⟨Cursor.ended_ofTokens ts hlast, ?_⟩
  rw [Cursor.ofTokens_append, Cursor.tokens_after]
  intro t ht
  rcases List.mem_append.mp ht with ht | ht
  · exact (hts t ht).2
  · rw [List.mem_singleton.mp ht, hlast]
    rfl

theorem Program.stmts_of_tends {r : EStateM.Result SyntaxError Cursor (List Stmt)}
    (htokens : (Cursor.ofTokens tokens).Ended) (h : Tends stmts (Cursor.ofTokens tokens) r) :
    stmts (bound tokens.length) (Cursor.ofTokens tokens) = r := by
  obtain ⟨N, h⟩ := h
  rw [stmts_bound htokens (Nat.le_max_right N _)]
  exact h _ (Nat.le_max_left N _)

theorem Program.exists_stmts_error (htokens : (Cursor.ofTokens tokens).Ended)
    (h : Program.ofTokens tokens = .error e) :
    ∃ c, stmts (bound tokens.length) (Cursor.ofTokens tokens) = .error e c ∧
      e.cause ≠ .tooDeep := by
  unfold Program.ofTokens at h
  cases hr : stmts (bound tokens.length) (Cursor.ofTokens tokens) with
  | ok body c =>
    rw [hr] at h
    cases h
  | error e' c =>
    rw [hr] at h
    cases h
    have hl := Cursor.length_rest_ofTokens tokens
    have henough : 4 * (Cursor.ofTokens tokens).rest.length + 4 ≤ bound tokens.length := by
      unfold bound
      omega
    exact ⟨c, rfl, ((enough_stmts _).agrees htokens henough henough).error hr⟩

/-- The token that a list of tokens is refused for, and the cause. The tokens before it begin a
program, and whatever legal tokens follow it, it is refused for the same cause. -/
theorem Program.ofTokens_stops {last : Token} (hlast : last.kind = .endOfInput)
    (h : Program.ofTokens (tokens ++ [last]) = .error e) :
    ∃ before t rest cause, tokens ++ [last] = before ++ t :: rest ∧
      e = (⟨t, rest⟩ : Cursor).report cause ∧
      (∀ rest', Token.Lexed (before ++ t :: rest') →
        Program.ofTokens (before ++ t :: rest') = .error ⟨cause, t.literal, t.pos⟩) ∧
      ∃ us p, (∀ t ∈ us, t.Plain) ∧
        Program.ofTokens (before ++ us ++ [Token.endAt Pos.start]) = .ok p := by
  have hended := Cursor.ended_ofTokens tokens hlast
  obtain ⟨c, hr, hdeep⟩ := Program.exists_stmts_error hended h
  obtain ⟨ts, cause, hts, hat, hsame, hcomplete⟩ := ((phrase_stmts _).viable hended).error hr hdeep
  refine ⟨ts, c.head, c.rest, cause, ?_, hat, ?_, ?_⟩
  · rw [← Cursor.tokens_after, ← hts, Cursor.ofTokens_append, Cursor.tokens_after]
  · intro rest' hlexed
    have hvalid := hlexed.valid
    rw [Cursor.ofTokens_append] at hvalid
    have htends := hsame ⟨c.head, rest'⟩ hvalid.of_after rfl
    rw [← Cursor.ofTokens_append, hvalid.of_after.report] at htends
    rw [Program.ofTokens, Program.stmts_of_tends hlexed.valid.ended htends]
  · have hreads : ∃ us body, (∀ t ∈ us, t.Plain) ∧ Reads stmts .ending (ts ++ us) body := by
      by_cases hnil : ts = []
      · subst hnil
        exact ⟨[], [], nofun, reads_stmts⟩
      · exact hcomplete hnil
    obtain ⟨us, body, hus, hreads⟩ := hreads
    have htends := hreads ⟨Token.endAt Pos.start, []⟩ rfl
    rw [← Cursor.ofTokens_append] at htends
    refine ⟨us, ⟨body⟩, hus, ?_⟩
    rw [Program.ofTokens, Program.stmts_of_tends (Cursor.ended_ofTokens _ rfl) htends]

theorem Token.Lexed.plain_of_append (h : Token.Lexed (before ++ t :: rest)) :
    ∀ t' ∈ before, t'.Plain := by
  obtain ⟨ts, last, heq, -, hts⟩ := h
  have hinit := congrArg List.dropLast heq
  rw [List.dropLast_append_of_ne_nil (List.cons_ne_nil _ _), List.dropLast_concat] at hinit
  intro t' ht'
  exact hts t' (hinit ▸ List.mem_append_left _ ht')

theorem Program.ofTokens_refused (htokens : Token.Lexed tokens)
    (h : Program.ofTokens tokens = .error e) :
    ∃ before t rest, tokens = before ++ t :: rest ∧
      (e.context = t.literal ∧ e.pos = t.pos) ∧
      (∀ rest', Token.Lexed (before ++ t :: rest') →
        Program.ofTokens (before ++ t :: rest') = .error e) ∧
      ∃ rest' p, Token.Lexed (before ++ rest') ∧
        Program.ofTokens (before ++ rest') = .ok p := by
  have hvalid := htokens.valid
  have ⟨ts, last, heq, hlast, _⟩ := htokens
  subst heq
  obtain ⟨before, t, rest, cause, hsplit, hat, hsame, us, p, hus, hok⟩ :=
    Program.ofTokens_stops hlast h
  rw [hsplit, Cursor.ofTokens_append] at hvalid
  rw [hvalid.of_after.report] at hat
  subst hat
  refine ⟨before, t, rest, hsplit, ⟨rfl, rfl⟩, hsame, us ++ [Token.endAt Pos.start], p, ?_, ?_⟩
  · rw [hsplit] at htokens
    refine ⟨before ++ us, _, (List.append_assoc ..).symm, rfl, ?_⟩
    simpa only [List.forall_mem_append] using ⟨htokens.plain_of_append, hus⟩
  · rw [← List.append_assoc, hok]

/-- A syntax error is reported at the first token that no program could have there. -/
theorem Program.parse_refused (hlegal : Token.illegal? (Token.scan source) = none)
    (h : Program.parse source = .error e) :
    ∃ before t rest, Token.scan source = before ++ t :: rest ∧
      (e.context = t.literal ∧ e.pos = t.pos ∧ ∀ t' ∈ before ++ rest, t'.pos ≠ e.pos) ∧
      (∀ rest', Token.Lexed (before ++ t :: rest') →
        Program.ofTokens (before ++ t :: rest') = .error e) ∧
      ∃ rest' p, Token.Lexed (before ++ rest') ∧
        Program.ofTokens (before ++ rest') = .ok p := by
  obtain ⟨before, t, rest, htokens, ⟨hcontext, hpos⟩, hrefused, hcomplete⟩ :=
    Program.ofTokens_refused (Token.lexed_scan hlegal) h
  have hordered := (Token.ordered_scan source).2
  rw [htokens, List.pairwise_append, List.pairwise_cons] at hordered
  obtain ⟨-, ⟨hafter, -⟩, hbefore⟩ := hordered
  refine ⟨before, t, rest, htokens, ⟨hcontext, hpos, fun t' ht' => ?_⟩, hrefused, hcomplete⟩
  rw [hpos]
  rcases List.mem_append.mp ht' with ht' | ht'
  · exact Pos.ne_of_lt (hbefore t' ht' t List.mem_cons_self)
  · exact (Pos.ne_of_lt (hafter t' ht')).symm

def unclosed : Bytes := text "f(a, [b\x7d"

theorem Program.parse_refused_unclosed :
    Token.illegal? (Token.scan unclosed) = none ∧
      Program.parse unclosed =
        .error ⟨.expected .rightBracket .rightBrace, text "\x7d", ⟨1, 8⟩⟩ ∧
      ∃ before t rest, Token.scan unclosed = before ++ t :: rest ∧ t.pos = ⟨1, 8⟩ ∧
        ∃ rest' p, Program.ofTokens (before ++ rest') = .ok p := by
  have hlegal : Token.illegal? (Token.scan unclosed) = none := by cbv
  have herror : Program.parse unclosed =
      .error ⟨.expected .rightBracket .rightBrace, text "\x7d", ⟨1, 8⟩⟩ := by cbv
  obtain ⟨before, t, rest, hscan, ⟨-, hpos, -⟩, -, rest', p, -, hok⟩ :=
    Program.parse_refused hlegal herror
  exact ⟨hlegal, herror, before, t, rest, hscan, hpos.symm, rest', p, hok⟩

theorem Cursor.exists_report_pos (c : Cursor) (cause : SyntaxError.Cause) :
    ∃ t ∈ c.head :: c.rest, (c.report cause).pos = t.pos := by
  unfold report
  split
  · exact ⟨c.head, List.mem_cons_self, rfl⟩
  · refine ⟨c.next, ?_, rfl⟩
    obtain ⟨t, ts⟩ := c
    cases ts <;> simp [next]
  · exact ⟨c.head, List.mem_cons_self, rfl⟩

theorem Program.exists_pos_of_parse (h : Program.parse source = .error e) :
    ∃ t ∈ Token.scan source, e.pos = t.pos := by
  obtain ⟨ts, q, hscan, -⟩ := Token.exists_scan_eq source
  rw [Program.parse, hscan] at h
  obtain ⟨before, t, rest, cause, hsplit, rfl, -⟩ := Program.ofTokens_stops rfl h
  obtain ⟨t', ht', hpos⟩ := (⟨t, rest⟩ : Cursor).exists_report_pos cause
  rw [hscan, hsplit]
  exact ⟨t', List.mem_append_right before ht', hpos⟩

end CornScript
