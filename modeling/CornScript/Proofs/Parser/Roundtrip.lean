import CornScript.Proofs.Parser.Genuine
import CornScript.Proofs.Parser.Moved
import CornScript.Proofs.Parser.Rereading
import CornScript.Proofs.Tree.Scanning

/-! # What is printed can be parsed again

The parser reads the tokens of a printed tree as that tree, by induction on the tree. Only the token
by which an expression statement is known may be a different one, since the expression may be
printed with parentheses that it did not have.
-/

namespace CornScript

open Token (Kind sample)
open Printer (commas pairTokens)
open CornScript.Parser

variable {p : Expr → Bool}

theorem Expr.length_tokensAll (es : List Expr) : (Expr.tokensAll es).length = es.length := by
  induction es with
  | nil => rfl
  | cons e es ih => exact congrArg Nat.succ ih

theorem Stmt.exists_tokens (s : Stmt) (h : s.Genuine) :
    ∃ t ts, s.tokens = t :: ts ∧ t.kind ≠ .rightBrace ∧ t.kind ≠ .endOfInput := by
  cases s with
  | bind t target v =>
    have hkind : t.unplaced.kind = .letWord := h.1.2
    exact ⟨t.unplaced, _, rfl, ne_of_eq_of_ne hkind nofun, ne_of_eq_of_ne hkind nofun⟩
  | give t v =>
    have hkind : t.unplaced.kind = .returnWord := h.1.2
    exact ⟨t.unplaced, _, rfl, ne_of_eq_of_ne hkind nofun, ne_of_eq_of_ne hkind nofun⟩
  | expr t v =>
    obtain ⟨u, us, hu, hopens⟩ := Expr.opens_tokens v h
    exact ⟨u, us, hu, Kind.ne_of_opens hopens rfl, Kind.ne_of_opens hopens rfl⟩
  | block b => cases h

section Statements

variable {c d : Cursor} {e : Expr} {s : Stmt} {s' : Stmt} {body : List Stmt} {t : Token}
  {ts : List Token}

theorem tends_blockBody_cons (h : s.Genuine) (hs : Tends stmt (c.after s.tokens) (.ok s' c))
    (hbody : Tends blockBody c (.ok body d)) :
    Tends blockBody (c.after s.tokens) (.ok (s' :: body) d) := by
  obtain ⟨t, ts, heq, hbrace, hend⟩ := s.exists_tokens h
  rw [heq] at hs ⊢
  refine .succ (.look ?_)
  split
  · next hk => exact absurd hk hbrace
  · next hk => exact absurd hk hend
  · exact hs.bind_ok (hbody.bind_ok (.of_eq fun _ => rfl))

theorem tends_stmts_first (ht : t.kind ≠ .endOfInput)
    (hs : Tends stmt (c.after (t :: ts)) (.ok s' c)) (hbody : Tends stmts c (.ok body d)) :
    Tends stmts (c.after (t :: ts)) (.ok (s' :: body) d) := by
  refine .succ (.look ?_)
  simp only [if_neg ht]
  exact hs.bind_ok (hbody.bind_ok (.of_eq fun _ => rfl))

theorem tends_stmts_cons (h : s.Genuine) (hs : Tends stmt (c.after s.tokens) (.ok s' c))
    (hbody : Tends stmts c (.ok body d)) :
    Tends stmts (c.after s.tokens) (.ok (s' :: body) d) := by
  obtain ⟨t, ts, heq, -, hend⟩ := s.exists_tokens h
  rw [heq] at hs ⊢
  exact tends_stmts_first hend hs hbody

theorem tends_stmt_expr (hbind : t.kind ≠ .letWord) (hgive : t.kind ≠ .returnWord)
    (h : Tends (expr · .lowest) (d.after (t :: ts)) (.ok e d)) (hd : d.head.kind.closes) :
    Tends stmt (d.after (t :: ts)) (.ok (.expr t e) d) := by
  have hsemicolon : d.head.kind ≠ .semicolon := by
    intro hk
    rw [hk] at hd
    cases hd
  have hnone : Tends (fun _ => optionalSemicolon) d (.ok () d) :=
    .of_eq fun _ => congrFun (if_neg hsemicolon) d
  refine .succ (.look ?_)
  split
  · next hk => exact absurd hk hbind
  · next hk => exact absurd hk hgive
  · exact h.bind_ok (hnone.bind_ok (.of_eq fun _ => rfl))

end Statements

theorem starts_hash {t : Token} {ks vs ks' vs' : List Expr} (h : (Expr.hash t ks vs).Genuine)
    (hkstarts : List.Forall₂ Starts ks' (Expr.tokensAll ks))
    (hvstarts : List.Forall₂ Starts vs' (Expr.tokensAll vs)) :
    Starts (.hash t.unplaced ks' vs') (Expr.hash t ks vs).tokens := by
  obtain ⟨⟨-, hkind⟩, hlength, hks, -⟩ := h
  have hlength' : ks'.length = vs'.length := by
    rw [hkstarts.length_eq, hvstarts.length_eq, Expr.length_tokensAll, Expr.length_tokensAll,
      hlength]
  cases ks with
  | nil =>
    cases hkstarts
    obtain rfl : vs' = [] := List.length_eq_zero_iff.mp hlength'.symm
    exact .emptyHash hkind
  | cons k ks =>
    cases vs with
    | nil => cases hlength
    | cons v vs =>
      -- The parser reads pairs, and the tree has their keys and their values.
      cases hkstarts with | @cons k' _ ks' _ hk hks' =>
      cases hvstarts with | @cons v' _ vs' _ hv hvs' =>
      have hpairs := Starts.hash (t := t.unplaced) hkind
        (((Expr.opens_tokens k hks.1).append).append) fun hd => tends_hashPairs hk hv hks' hvs' hd
      rw [List.map_fst_zip hlength'.le, List.map_snd_zip hlength'.ge] at hpairs
      exact hpairs

theorem exists_starts_call {t : Token} {f f' : Expr} {args args' : List Expr}
    (h : (Expr.call t f args).Genuine) (hfeq : f'.unlabelled = (f.moved .forget).unlabelled)
    (hcallee : Starts f' f.tokens)
    (haeq : Expr.unlabelledAll args' = Expr.unlabelledAll (Expr.movedAll .forget args))
    (hstarts : List.Forall₂ Starts args' (Expr.tokensAll args)) :
    ∃ e', e'.unlabelled = ((Expr.call t f args).moved .forget).unlabelled ∧
      Starts e' (Expr.call t f args).tokens := by
  obtain ⟨⟨-, hcall⟩, hf, hargs⟩ := h
  have hopens := Expr.opens_tokensAll args hargs
  rw [Expr.tokens]
  rcases hcall with hk | ⟨hk, index, rfl⟩ | ⟨hk, name, receiver, others, rfl, rfl⟩
  · rw [Printer.callTokens_paren hk]
    exact ⟨.call t.unplaced f' args', congrArg₂ (Expr.call t.unplaced) hfeq haeq,
      hcallee.call hk (tends_exprList hstarts hopens (.inl rfl))⟩
  · cases hstarts with | @cons i' _ _ _ hindex hnone =>
    cases hnone
    refine ⟨.call t.unplaced f' [i'], congrArg₂ (Expr.call t.unplaced) hfeq haeq, ?_⟩
    have hsubscript := hcallee.subscript (t := t.unplaced) hk hindex
      (hopens _ List.mem_cons_self)
    rw [Printer.callTokens_bracket hk, Expr.tokensAll, Expr.tokensAll, commas, List.flatMap_nil,
      List.append_nil]
    exact hsubscript
  · -- A receiver stands in front of the name but is the first argument.
    rw [Expr.Genuine] at hf
    cases hstarts with | @cons r' _ others' _ hreceiver hothers =>
    rw [Expr.tokensAll, Printer.callTokens_dot hk]
    refine ⟨.call t.unplaced (.ident (name.moved .forget)) (r' :: others'),
      congrArg (Expr.call t.unplaced _) haeq, ?_⟩
    rw [hf.moved_eq]
    exact hreceiver.method hk hf.kind
      (tends_exprList hothers (List.forall_mem_cons.mp hopens).2 (.inl rfl))

mutual

/-- The tokens of an expression begin with it, whatever follows them. -/
theorem Expr.exists_starts (e : Expr) (h : e.Genuine) (hq : e.every p Stmt.areTerminated) :
    ∃ e', e'.unlabelled = (e.moved .forget).unlabelled ∧ Starts e' e.tokens := by
  cases e with
  | missing => cases h
  | ident id =>
    rw [Expr.Genuine] at h
    exact ⟨.ident (id.moved .forget), rfl, h.moved_eq ▸ .ident h.kind⟩
  | number t v => exact ⟨.number t.unplaced v, rfl, .number h.2.1 h.2.2⟩
  | string t v =>
    obtain ⟨-, hkind, rfl⟩ := h
    exact ⟨.string t.unplaced t.literal, rfl, .string hkind⟩
  | boolean t b => exact ⟨.boolean t.unplaced b, rfl, .boolean h.2⟩
  | null t => exact ⟨.null t.unplaced, rfl, .null h.2⟩
  | array t es =>
    obtain ⟨⟨-, hkind⟩, hes⟩ := h
    rw [Expr.every, Bool.and_eq_true] at hq
    obtain ⟨es', heq, hstarts⟩ := Expr.exists_startsAll es hes hq.2
    exact ⟨.array t.unplaced es', congrArg (Expr.array t.unplaced) heq,
      .array hkind (tends_exprList hstarts (Expr.opens_tokensAll es hes) (.inr rfl))⟩
  | hash t ks vs =>
    simp only [Expr.every, Bool.and_eq_true] at hq
    obtain ⟨ks', hkeq, hkstarts⟩ := Expr.exists_startsAll ks h.2.2.1 hq.1.2
    obtain ⟨vs', hveq, hvstarts⟩ := Expr.exists_startsAll vs h.2.2.2 hq.2
    exact ⟨.hash t.unplaced ks' vs', congrArg₂ (Expr.hash t.unplaced) hkeq hveq,
      starts_hash h hkstarts hvstarts⟩
  | unary t op e =>
    obtain ⟨⟨-, hop⟩, he⟩ := h
    rw [Expr.every, Bool.and_eq_true] at hq
    obtain ⟨e', heq, hstarts⟩ := Expr.exists_starts e he hq.2
    exact ⟨.unary t.unplaced op e', congrArg (Expr.unary t.unplaced op) heq, hstarts.unary hop⟩
  | binary t l op r =>
    obtain ⟨⟨-, own, hop⟩, hl, hr⟩ := h
    simp only [Expr.every, Bool.and_eq_true] at hq
    obtain ⟨l', hleq, hleft⟩ := Expr.exists_starts l hl hq.1.2
    obtain ⟨r', hreq, hright⟩ := Expr.exists_starts r hr hq.2
    exact ⟨.binary t.unplaced l' op r',
      congrArg₂ (fun l r => Expr.binary t.unplaced l op r) hleq hreq, hleft.binary hright hop⟩
  | cond t c b a =>
    cases a with
    | none =>
      obtain ⟨⟨-, hkind⟩, hc, hb⟩ := h
      simp only [Expr.every, Bool.and_eq_true] at hq
      obtain ⟨c', hceq, hcondition⟩ := Expr.exists_starts c hc hq.1.2
      obtain ⟨b', hbeq, hblock⟩ := Block.exists_tends b hb hq.2
      exact ⟨.cond t.unplaced c' b' none,
        congrArg₂ (fun c b => Expr.cond t.unplaced c b none) hceq hbeq,
        .cond hkind hcondition (hblock _)⟩
    | some a =>
      obtain ⟨⟨-, hkind⟩, hc, hb, ha⟩ := h
      simp only [Expr.every, Bool.and_eq_true] at hq
      obtain ⟨c', hceq, hcondition⟩ := Expr.exists_starts c hc hq.1.1.2
      obtain ⟨b', hbeq, hblock⟩ := Block.exists_tends b hb hq.1.2
      obtain ⟨a', haeq, hother⟩ := Block.exists_tends a ha hq.2
      refine ⟨.cond t.unplaced c' b' (some a'), ?_,
        .condElse hkind hcondition (hblock _) (hother _)⟩
      simp only [Expr.moved, Expr.unlabelled, hceq, hbeq, haeq, Token.unplaced]
  | function t ps b =>
    obtain ⟨⟨-, hkind⟩, hps, hb⟩ := h
    rw [Expr.every, Bool.and_eq_true] at hq
    obtain ⟨b', hbeq, hblock⟩ := Block.exists_tends b hb hq.2
    refine ⟨.function t.unplaced (ps.map (Ident.moved .forget)) b', ?_, ?_⟩
    · exact congrArg (Expr.function t.unplaced (ps.map (Ident.moved .forget))) hbeq
    · have hfunction := Starts.function (t := t.unplaced) hkind (tends_params hps) (hblock _)
      rw [List.append_assoc] at hfunction
      exact hfunction
  | call t f args =>
    simp only [Expr.every, Bool.and_eq_true] at hq
    obtain ⟨f', hfeq, hcallee⟩ := Expr.exists_starts f h.2.1 hq.1.2
    obtain ⟨args', haeq, hstarts⟩ := Expr.exists_startsAll args h.2.2 hq.2
    exact exists_starts_call h hfeq hcallee haeq hstarts

theorem Expr.exists_startsAll (es : List Expr) (h : Expr.GenuineAll es)
    (hq : Expr.everyAll p Stmt.areTerminated es) :
    ∃ es', Expr.unlabelledAll es' = Expr.unlabelledAll (Expr.movedAll .forget es) ∧
      List.Forall₂ Starts es' (Expr.tokensAll es) := by
  cases es with
  | nil => exact ⟨[], rfl, .nil⟩
  | cons e es =>
    rw [Expr.everyAll, Bool.and_eq_true] at hq
    obtain ⟨e', heq, hstarts⟩ := Expr.exists_starts e h.1 hq.1
    obtain ⟨es', hall, hothers⟩ := Expr.exists_startsAll es h.2 hq.2
    exact ⟨e' :: es', congrArg₂ List.cons heq hall, .cons hstarts hothers⟩

theorem Block.exists_tends (b : Block) (h : b.Genuine) (hq : b.every p Stmt.areTerminated) :
    ∃ b', b'.unlabelled = (b.moved .forget).unlabelled ∧
      ∀ d : Cursor, Tends block (d.after b.tokens) (.ok b' d) := by
  cases b with
  | mk t body =>
    obtain ⟨⟨-, hkind⟩, hbody⟩ := h
    rw [Block.every, Bool.and_eq_true] at hq
    obtain ⟨body', heq, hinner, -⟩ := Stmt.exists_tendsAll body hbody hq.2 hq.1
    exact ⟨.mk t.unplaced body', congrArg (Block.mk t.unplaced) heq,
      fun d => .succ (.expect hkind ((hinner d).bind_ok (.of_eq fun _ => rfl)))⟩

theorem Stmt.exists_tendsAll (body : List Stmt) (h : Stmt.GenuineAll body)
    (hq : Stmt.everyAll p Stmt.areTerminated body) (hterminated : Stmt.areTerminated body) :
    ∃ body', Stmt.unlabelledAll body' = Stmt.unlabelledAll (Stmt.movedAll .forget body) ∧
      (∀ d : Cursor, Tends blockBody (d.after (Stmt.tokensAll body ++ [sample .rightBrace]))
        (.ok body' d)) ∧
      ∀ d : Cursor, d.head.kind = .endOfInput →
        Tends stmts (d.after (Stmt.tokensAll body)) (.ok body' d) := by
  cases body with
  | nil =>
    exact ⟨[], rfl, fun _ => .succ (.look (.take (.of_eq fun _ => rfl))),
      fun d hd => .succ (.of_eq fun _ => congrFun (if_pos hd) d)⟩
  | cons s body =>
    rw [Stmt.everyAll, Bool.and_eq_true] at hq
    have hall : Stmt.areTerminated body ∧ (body = [] ∨ s.isTerminated) := by
      cases body with
      | nil => exact ⟨rfl, .inl rfl⟩
      | cons s' body =>
        rw [Stmt.areTerminated, List.dropLast_cons_cons, List.all_cons, Bool.and_eq_true]
          at hterminated
        exact ⟨hterminated.2, .inr hterminated.1⟩
    obtain ⟨s', hseq, hfirst⟩ := Stmt.exists_tends s h.1 hq.1
    obtain ⟨body', heq, hinner, houter⟩ := Stmt.exists_tendsAll body h.2 hq.2 hall.1
    have hstart (d : Cursor) (hd : d.head.kind.closes) :
        Tends stmt ((d.after (Stmt.tokensAll body)).after s.tokens)
          (.ok s' (d.after (Stmt.tokensAll body))) := by
      refine hfirst _ ?_
      rcases hall.2 with rfl | hs
      · exact .inr hd
      · exact .inl hs
    refine ⟨s' :: body', congrArg₂ List.cons hseq heq, fun d => ?_, fun d hd => ?_⟩
    · have hbrace := hstart (d.after [sample .rightBrace]) rfl
      rw [Stmt.tokensAll, List.append_assoc, Cursor.after_append]
      rw [← Cursor.after_append d] at hbrace
      exact tends_blockBody_cons h.1 hbrace (hinner d)
    · rw [Stmt.tokensAll, Cursor.after_append]
      exact tends_stmts_cons h.1 (hstart d (by rw [hd]; rfl)) (houter d hd)

theorem Stmt.exists_tends (s : Stmt) (h : s.Genuine) (hq : s.every p Stmt.areTerminated) :
    ∃ s', s'.unlabelled = (s.moved .forget).unlabelled ∧
      ∀ d : Cursor, s.isTerminated ∨ d.head.kind.closes →
        Tends stmt (d.after s.tokens) (.ok s' d) := by
  cases s with
  | bind t target v =>
    obtain ⟨⟨-, hkind⟩, htarget, hv⟩ := h
    obtain ⟨v', heq, hvalue⟩ := Expr.exists_starts v hv hq
    refine ⟨.bind t.unplaced (target.moved .forget) v', congrArg (Stmt.bind _ _) heq,
      fun d _ => .succ (.look ?_)⟩
    rw [show t.unplaced.kind = .letWord from hkind, htarget.moved_eq]
    refine .take (.expectIdent htarget.kind (.expect rfl ?_))
    exact (hvalue.expr_before rfl).bind_ok (.of_eq fun _ => rfl)
  | give t v =>
    obtain ⟨⟨-, hkind⟩, hv⟩ := h
    obtain ⟨v', heq, hvalue⟩ := Expr.exists_starts v hv hq
    refine ⟨.give t.unplaced v', congrArg (Stmt.give _) heq, fun d _ => .succ (.look ?_)⟩
    rw [show t.unplaced.kind = .returnWord from hkind]
    exact .take ((hvalue.expr_before rfl).bind_ok (.of_eq fun _ => rfl))
  | expr t v =>
    obtain ⟨v', heq, hvalue⟩ := Expr.exists_starts v h hq
    obtain ⟨u, us, htokens, hopens⟩ := Expr.opens_tokens v h
    refine ⟨.expr u v', congrArg (Stmt.expr _) heq, fun d hd => ?_⟩
    have hcloses : d.head.kind.closes := hd.resolve_left nofun
    have hrun : Tends (expr · .lowest) (d.after v.tokens) (.ok v' d) :=
      hvalue.expr (stops_of_closes hcloses)
    rw [htokens] at hrun
    rw [Stmt.tokens, htokens]
    exact tends_stmt_expr (Kind.ne_of_opens hopens rfl) (Kind.ne_of_opens hopens rfl) hrun hcloses
  | block b => cases h

end

theorem Program.exists_of_unplaced {source : Bytes} {q : Program}
    (h : ofTokens ((Token.scan source).map Token.unplaced) = .ok q) :
    ∃ r, parse source = .ok r ∧ r.unplaced = q := by
  have hmoved := (ofTokens_moved (f := Pos.forget) rfl (Token.scan source)).symm.trans h
  unfold parse
  cases hr : ofTokens (Token.scan source) with
  | ok r =>
    rw [hr] at hmoved
    cases hmoved
    exact ⟨r, rfl, rfl⟩
  | error e =>
    rw [hr] at hmoved
    cases hmoved

/-- A program without a double quote in a string, in which only the last of several statements lacks
a semicolon, can be printed and parsed again: the tree is the same. -/
theorem Program.parse_print {source : Bytes} {p : Program} (h : parse source = .ok p)
    (hp : p.every Expr.isUnquoted Stmt.areTerminated) :
    ∃ q, parse p.print = .ok q ∧ q.SameTree p := by
  have hgenuine := genuine_of_parse h
  have hscan := (Program.lexes hgenuine hp).map_scan
  rw [every, Bool.and_eq_true] at hp
  obtain ⟨body, heq, -, hbody⟩ := Stmt.exists_tendsAll p.body hgenuine hp.2 hp.1
  have hrun := hbody ⟨Token.endAt .start, []⟩ rfl
  rw [← Cursor.ofTokens_append] at hrun
  have htokens : ofTokens (Stmt.tokensAll p.body ++ [Token.endAt .start]) = .ok ⟨body⟩ := by
    rw [ofTokens, stmts_of_tends (Cursor.ended_ofTokens _ rfl) hrun]
  rw [← hscan] at htokens
  obtain ⟨q, hq, hbody⟩ := exists_of_unplaced htokens
  refine ⟨q, hq, ?_⟩
  rw [SameTree, hbody, unplaced, moved, ← Stmt.movedAll_eq_map]
  exact congrArg Program.mk heq

def callNested : Bytes :=
  text "let f = fn(x) \x7b let a = x.g(-i)[j]; " ++
  text "if (!a) \x7b g \x7d else \x7b \x7b'k': a\x7d \x7d (a) \x7d; " ++
  text "(f(b)(c) + d) * fn() \x7b\x7d"

def callNestedPrinted : Bytes :=
  text "let f = fn(x) \x7b let a = (x.g((-i))[j]); " ++
  text "if ((!a)) \x7b g \x7d else \x7b \x7b\x22k\x22: a\x7d \x7d(a) \x7d;" ++
  text "((f(b)(c) + d) * fn() \x7b \x7d)"

theorem Program.parse_print_callNested :
    ∃ p q, parse callNested = .ok p ∧ p.every Expr.isUnquoted Stmt.areTerminated ∧
      p.print = callNestedPrinted ∧ parse callNestedPrinted = .ok q ∧ q.SameTree p := by
  have hread : (parse callNested).toOption.any fun p =>
      p.every Expr.isUnquoted Stmt.areTerminated && p.print == callNestedPrinted := by
    cbv
  cases h : parse callNested with
  | error e =>
    rw [h] at hread
    cases hread
  | ok p =>
    rw [h] at hread
    obtain ⟨hp, hprint⟩ := Bool.and_eq_true_iff.mp hread
    obtain ⟨q, hq, hsame⟩ := Program.parse_print h hp
    rw [eq_of_beq hprint] at hq
    exact ⟨p, q, rfl, hp, eq_of_beq hprint, hq, hsame⟩

end CornScript
