import CornScript.Proofs.Parser.Legal
import CornScript.Proofs.Parser.Prefix

/-! # Which of two errors is reported

A text with a lexical error has legal tokens and then an illegal one. If the legal tokens make a
program impossible already, that is a syntax error at one of them, and otherwise the illegal token
is where parsing stops. The syntax error comes first and is the one to be reported. There is one
exception: where an operand is wanted, the parser has the token after the wrong one in view, and if
that is the illegal one, its fault and place are reported with the literal of the wrong token.
-/

namespace CornScript

namespace Token

variable {source : Bytes} {fault : Fault} {place : Pos} {t : Token} {ts : List Token}

theorem illegal?_cons (h : t.kind.isIllegal = false) : illegal? (t :: ts) = illegal? ts := by
  rw [illegal?, List.findSome?_cons]
  cases hk : t.kind with
  | illegal => rw [hk] at h; cases h
  | _ => rfl

theorem exists_scanFrom_of_illegal {s : Bytes} {p : Pos}
    (h : illegal? (scanFrom s p) = some (fault, place)) :
    ∃ ts l q, scanFrom s p = ts ++ [⟨.illegal fault, l, place⟩, endAt q] ∧
      ∀ t ∈ ts, t.Plain := by
  fun_induction scanFrom s p with
  | case1 => cases h
  | case2 s p b rest q _ lexeme token next hk =>
    obtain ⟨f, hkind⟩ := Kind.exists_of_isIllegal hk
    have htoken : token = ⟨.illegal f, lexeme.literal, q⟩ := by rw [← hkind]
    rw [htoken] at h ⊢
    cases h
    exact ⟨[], _, _, rfl, List.forall_mem_nil _⟩
  | case3 s p b rest q _ lexeme token next hk ih =>
    have hlegal : token.kind.isIllegal = false := Bool.eq_false_iff.mpr hk
    rw [illegal?_cons hlegal] at h
    obtain ⟨ts, l, q', hscan, hts⟩ := ih h
    refine ⟨token :: ts, l, q', congrArg (token :: ·) hscan, ?_⟩
    exact List.forall_mem_cons.mpr ⟨⟨Lexeme.kind_front_ne_endOfInput b rest, hlegal⟩, hts⟩

theorem split_unique {before after before' after' : List Token} {t' : Token}
    (hordered : (before ++ t :: after).Pairwise (·.pos < ·.pos))
    (heq : before ++ t :: after = before' ++ t' :: after') (hpos : t'.pos = t.pos) :
    before = before' ∧ t = t' ∧ after = after' := by
  rw [List.pairwise_append, List.pairwise_cons] at hordered
  obtain ⟨-, ⟨hafter, -⟩, hbefore⟩ := hordered
  refine (List.append_cons_inj_of_notMem ?_ ?_).mp heq
  · exact fun hmem => Pos.ne_of_lt (hbefore t' hmem t List.mem_cons_self) hpos
  · exact fun hmem => Pos.ne_of_lt (hafter t' hmem) hpos.symm

end Token

open Token

variable {source l : Bytes} {fault : Fault} {place q : Pos} {t t' : Token} {e e' : SyntaxError}
  {before after before' after' ts us : List Token} {p : Program}

/-- No program goes on with `t` after the tokens before it: whatever legal tokens follow, the error
is `e`, which is about `t`. -/
structure Program.Refuses (before : List Token) (t : Token) (e : SyntaxError) : Prop where
  context : e.context = t.literal
  pos : e.pos = t.pos
  always : ∀ rest, Lexed (before ++ t :: rest) → ofTokens (before ++ t :: rest) = .error e

namespace Program.Refuses

theorem ofTokens_eq_error (h : Refuses before t e) (hts : ∀ t' ∈ before ++ t :: after, t'.Plain)
    (hus : ∀ t' ∈ us, t'.Plain) :
    ofTokens (before ++ t :: after ++ us ++ [endAt q]) = .error e := by
  have hassoc : before ++ t :: after ++ us ++ [endAt q] =
      before ++ t :: (after ++ us ++ [endAt q]) := by simp
  rw [hassoc]
  exact h.always _ ⟨_, _, hassoc.symm, rfl, List.forall_mem_append.mpr ⟨hts, hus⟩⟩

theorem unique (hordered : (before ++ t :: after).Pairwise (·.pos < ·.pos))
    (hts : ∀ t' ∈ before ++ t :: after, t'.Plain)
    (heq : before ++ t :: after = before' ++ t' :: after')
    (h : Refuses before t e) (h' : Refuses before' t' e') : after = after' ∧ t = t' ∧ e = e' := by
  have hnone : ∀ t' ∈ ([] : List Token), t'.Plain := nofun
  have herror := h.ofTokens_eq_error (q := .start) hts hnone
  have herror' := h'.ofTokens_eq_error (q := .start) (heq ▸ hts) hnone
  rw [← heq, herror] at herror'
  cases herror'
  obtain ⟨-, ht, hafter⟩ := split_unique hordered heq (h'.pos.symm.trans h.pos)
  exact ⟨hafter, ht, rfl⟩

theorem of_parse (hscan : scan source = before ++ t :: after)
    (hlegal : illegal? (scan source) = none) (h : parse source = .error e) (hpos : e.pos = t.pos) :
    Refuses before t e := by
  obtain ⟨before', t', after', heq, ⟨hcontext, hpos'⟩, hrefused, -⟩ :=
    ofTokens_refused (lexed_scan hlegal) h
  have hordered := (ordered_scan source).2
  rw [hscan] at hordered heq
  obtain ⟨rfl, rfl, -⟩ := split_unique hordered heq (hpos'.symm.trans hpos)
  exact ⟨hcontext, hpos, hrefused⟩

end Program.Refuses

theorem Program.parse_stops (hts : ∀ t ∈ ts, t.Plain)
    (h : ofTokens (ts ++ [⟨.illegal fault, l, place⟩, endAt q]) = .error e) :
    (∃ before t after cause, ts = before ++ t :: after ∧
      Refuses before t ⟨cause, t.literal, t.pos⟩ ∧
      e = if after = [] ∧ cause.isOperand then ⟨.lexical fault, t.literal, place⟩
        else ⟨cause, t.literal, t.pos⟩) ∨
    e = ⟨.lexical fault, l, place⟩ ∧
      ∀ before t after e', ts = before ++ t :: after → ¬ Refuses before t e' := by
  have hbad : ∀ t ∈ ts ++ [⟨.illegal fault, l, place⟩], t.kind ≠ .endOfInput :=
    List.forall_mem_append.mpr ⟨fun t ht => (hts t ht).1, List.forall_mem_singleton.mpr nofun⟩
  rw [List.append_cons] at h
  obtain ⟨before, t, rest, cause, hsplit, hat, hsame, us, p, hus, hok⟩ :=
    ofTokens_stops rfl h
  rcases List.eq_nil_or_concat rest with rfl | ⟨rest, t', rfl⟩
  · -- The illegal token cannot be among those that a program begins with.
    obtain ⟨rfl, -⟩ := List.append_inj' hsplit rfl
    have hlegal := legal_of_ofTokens
      (List.forall_mem_append.mpr ⟨hbad, fun t ht => (hus t ht).1⟩) hok
    cases hlegal ⟨.illegal fault, l, place⟩ (by simp)
  · rw [List.concat_eq_append, ← List.cons_append, ← List.append_assoc] at hsplit
    obtain ⟨hsplit, ht'⟩ := List.append_inj' hsplit rfl
    rcases List.eq_nil_or_concat rest with rfl | ⟨after, bad, rfl⟩
    · obtain ⟨rfl, ht⟩ := List.append_inj' hsplit rfl
      cases ht
      refine .inr ⟨hat.trans (Cursor.report_of_illegal rfl), ?_⟩
      rintro before t after e' rfl hrefuses
      rw [hrefuses.ofTokens_eq_error hts hus] at hok
      cases hok
    · rw [List.concat_eq_append, ← List.cons_append, ← List.append_assoc] at hsplit
      obtain ⟨rfl, hbad'⟩ := List.append_inj' hsplit rfl
      cases hbad'
      refine .inl ⟨before, t, after, cause, rfl, ⟨rfl, rfl, hsame⟩, hat.trans ?_⟩
      obtain ⟨ht, hafter⟩ := List.forall_mem_cons.mp (List.forall_mem_append.mp hts).2
      cases after with
      | nil =>
        cases hcause : cause.isOperand with
        | true =>
          rw [if_pos ⟨rfl, rfl⟩]
          exact Cursor.report_of_next ht.2 rfl hcause
        | false =>
          rw [if_neg (by simp)]
          exact Cursor.report_of_legal ht.2 (.inr hcause)
      | cons t₂ after =>
        rw [if_neg (by simp)]
        exact Cursor.report_of_legal ht.2 (.inl (hafter t₂ List.mem_cons_self).2)

/-- A text with a lexical error has one error, which is the earlier one of two: if a token before
the illegal one is refused, whatever comes after it, then the error at that token, and otherwise the
fault at the illegal token. Only where an operand is wanted and the illegal token comes next, its
fault and its place are reported with the literal of the token that is refused. -/
theorem Program.parse_illegal (h : illegal? (scan source) = some (fault, place)) :
    ∃ ts l q, scan source = ts ++ [⟨.illegal fault, l, place⟩, endAt q] ∧
      (∀ t ∈ ts, t.Plain) ∧
      (∀ before t after e, ts = before ++ t :: after → Refuses before t e →
        parse source = .error
          (if after = [] ∧ e.cause.isOperand then ⟨.lexical fault, t.literal, place⟩ else e)) ∧
      ((∀ before t after e, ts = before ++ t :: after → ¬ Refuses before t e) →
        parse source = .error ⟨.lexical fault, l, place⟩) := by
  obtain ⟨ts, l, q, hscan, hts⟩ := exists_scanFrom_of_illegal h
  refine ⟨ts, l, q, hscan, hts, ?_⟩
  cases hparse : parse source with
  | ok p =>
    rw [illegal?_of_parse hparse] at h
    cases h
  | error e =>
    have hstops := hparse
    rw [parse, scan, hscan] at hstops
    rcases parse_stops hts hstops with ⟨before, t, after, cause, rfl, hrefuses, he⟩ | ⟨he, hnone⟩
    · refine ⟨fun before' t' after' e' heq hrefuses' => ?_, fun hnone => ?_⟩
      · have hordered := (ordered_scan source).2
        rw [scan, hscan, List.pairwise_append] at hordered
        obtain ⟨rfl, rfl, rfl⟩ := hrefuses.unique hordered.1 hts heq hrefuses'
        rw [he]
      · exact absurd hrefuses (hnone before t after _ rfl)
    · refine ⟨fun before' t' after' e' heq hrefuses' => ?_, fun _ => by rw [he]⟩
      exact absurd hrefuses' (hnone before' t' after' e' heq)

def twoNames : Bytes := text "f(x y @"

theorem Program.parse_illegal_twoNames :
    illegal? (scan twoNames) = some (.unknownCharacter 0x40, ⟨1, 7⟩) ∧
      parse twoNames = .error ⟨.expected .rightParen .ident, text "y", ⟨1, 5⟩⟩ := by
  have hillegal : illegal? (scan twoNames) = some (.unknownCharacter 0x40, ⟨1, 7⟩) := by cbv
  have hscan' : scan twoNames = ([⟨.ident, text "f", ⟨1, 1⟩⟩, ⟨.leftParen, text "(", ⟨1, 2⟩⟩,
      ⟨.ident, text "x", ⟨1, 3⟩⟩, ⟨.ident, text "y", ⟨1, 5⟩⟩] : List Token) ++
      [⟨.illegal (.unknownCharacter 0x40), text "@", ⟨1, 7⟩⟩, endAt ⟨1, 8⟩] := by cbv
  have hcut : scan (text "f(x y") = ([⟨.ident, text "f", ⟨1, 1⟩⟩,
      ⟨.leftParen, text "(", ⟨1, 2⟩⟩, ⟨.ident, text "x", ⟨1, 3⟩⟩] : List Token) ++
      ⟨.ident, text "y", ⟨1, 5⟩⟩ :: [endAt ⟨1, 6⟩] := by cbv
  have hparse : parse (text "f(x y") =
      .error ⟨.expected .rightParen .ident, text "y", ⟨1, 5⟩⟩ := by cbv
  have hlegal : illegal? (scan (text "f(x y")) = none := by cbv
  obtain ⟨ts, l, q, hscan, -, hrefused, -⟩ := Program.parse_illegal hillegal
  obtain ⟨rfl, -⟩ := List.append_inj' (hscan'.symm.trans hscan) rfl
  exact ⟨hillegal, hrefused _ _ [] _ rfl (.of_parse hcut hlegal hparse rfl)⟩

def closedFirst : Bytes := text ") @"

/-- The first token is refused whatever follows it, but the fault of the second one is reported,
with the place of the second one and the literal of the first. -/
theorem Program.not_earliest_closedFirst : ∃ t last, scan closedFirst =
      [t, ⟨.illegal (.unknownCharacter 0x40), text "@", ⟨1, 3⟩⟩, last] ∧
    Refuses [] t ⟨.noOperand .rightParen, text ")", ⟨1, 1⟩⟩ ∧
    parse closedFirst = .error ⟨.lexical (.unknownCharacter 0x40), text ")", ⟨1, 3⟩⟩ := by
  have hcut : scan (text ")") = [] ++ ⟨.rightParen, text ")", ⟨1, 1⟩⟩ :: [endAt ⟨1, 2⟩] := by cbv
  have hparse : parse (text ")") = .error ⟨.noOperand .rightParen, text ")", ⟨1, 1⟩⟩ := by cbv
  have hlegal : illegal? (scan (text ")")) = none := by cbv
  refine ⟨⟨.rightParen, text ")", ⟨1, 1⟩⟩, endAt ⟨1, 4⟩, by cbv, ?_, by cbv⟩
  exact .of_parse hcut hlegal hparse rfl

end CornScript
