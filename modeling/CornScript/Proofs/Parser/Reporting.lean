import CornScript.Proofs.Parser.Climbing
import CornScript.Proofs.Parser.Coherence
import CornScript.Proofs.Parser.Viability
import CornScript.Proofs.Token.Reading

/-! # One result or the other is enough

The parser that enters its errors in a list does what the parser that stops at an error does: it has
the same trees, and it enters the same error. The tokens that are left to the one are those that the
other sees at its desk or has not read yet.

A part begins with its first token at hand, and ends with the token after it in view.
-/

namespace CornScript

namespace Token.Kind

variable {kind : Kind} {op : BinaryOp} {level own : Level}

theorem precedence_of_suffix (h : kind.isSuffix = true) : kind.precedence = 8 := by
  cases kind <;> first | rfl | cases h

theorem precedence_of_binary (h : kind.binary? = some (op, own)) : kind.precedence = own.rank := by
  cases kind <;> cases h <;> rfl

theorem rests_of_weak (h : kind = .semicolon ∨ kind.precedence ≤ level.rank) :
    level.Rests kind := by
  rcases h with rfl | h
  · exact ⟨rfl, nofun⟩
  · refine ⟨Bool.eq_false_iff.mpr fun hs => ?_, fun hb => precedence_of_binary hb ▸ h⟩
    rw [precedence_of_suffix hs] at h
    exact absurd h (by cases level <;> decide)

end Token.Kind

theorem Cursor.next_eq (c : Cursor) : c.next = c.advance.head := by
  obtain ⟨t, ts⟩ := c
  cases ts <;> rfl

namespace Token.Reader

variable {r : Reader} {c : Cursor}

/-- The calls of a reader hand out the tokens of a cursor, the last of which is the end of input. -/
inductive Hands : Reader → Cursor → Prop where
  | last {r : Reader} : r.next.1.kind = .endOfInput → Hands r ⟨r.next.1, []⟩
  | more {r : Reader} {c : Cursor} : r.next.1.kind ≠ .endOfInput → Hands r.next.2 c →
    Hands r ⟨r.next.1, c.head :: c.rest⟩

namespace Hands

theorem head (h : Hands r c) : r.next.1 = c.head := by
  cases h <;> rfl

theorem advance (h : Hands r c) : Hands r.next.2 c.advance := by
  cases h with
  | last hend =>
    have hsame := (call_next r).next_eq hend
    have hlast : Hands r.next.2 ⟨r.next.2.next.1, []⟩ := .last (by rw [hsame]; exact hend)
    rwa [hsame] at hlast
  | more _ h => exact h

theorem second (h : Hands r c) : r.next.2.next.1 = c.next := by
  rw [h.advance.head, c.next_eq]

theorem next_of_endOfInput (h : Hands r c) (hend : c.head.kind = .endOfInput) :
    c.next = c.head := by
  rw [← h.second, (call_next r).next_eq (by rwa [h.head]), h.head]

theorem of_token {k : Nat} (h : ∀ i ≤ k, (r.token i).kind = .endOfInput ↔ i = k) :
    Hands r (.ofTokens ((List.range (k + 1)).map r.token)) := by
  induction k generalizing r with
  | zero => exact .last ((h 0 (Nat.le_refl 0)).mpr rfl)
  | succ k ih =>
    have hne : r.next.1.kind ≠ .endOfInput := fun hk => absurd ((h 0 (Nat.zero_le _)).mp hk) nofun
    have hrest := ih (r := r.next.2) fun i hi =>
      (h (i + 1) (Nat.succ_le_succ hi)).trans Nat.succ_inj
    rw [List.range_succ_eq_map, List.map_cons, List.map_map]
    rw [List.range_succ_eq_map, List.map_cons] at hrest ⊢
    exact .more hne hrest

theorem start (source : Bytes) : Hands (.start source) (.ofTokens (scan source)) := by
  obtain ⟨k, hscan, hend⟩ := (reading_ends source).scan_eq
  rw [hscan]
  exact .of_token hend

end Hands

theorem fault_next_of_legal (hr : r.fault = none) (h : r.next.1.kind.isIllegal = false) :
    r.next.2.fault = none := by
  rw [(call_next r).fault_eq hr, Kind.fault?_eq_none_iff.mpr h]
  rfl

theorem fault_next_of_illegal {fault : Fault} (hr : r.fault = none)
    (h : r.next.1.kind = .illegal fault) : r.next.2.fault = some (fault, r.next.1.pos) := by
  rw [(call_next r).fault_eq hr, Kind.fault?_eq_some_iff.mpr h]
  rfl

end Token.Reader

namespace Desk

variable {c : Cursor} {d : Desk} {cause : SyntaxError.Cause}

/-- The next token of the cursor is the current one. -/
def Here (c : Cursor) (d : Desk) : Prop :=
  ∃ r : Token.Reader, r.fault = none ∧ r.Hands c ∧ d = reading r

/-- The current token is legal and has been taken, and the next token of the cursor is the one
behind it. -/
def Ahead (c : Cursor) (d : Desk) : Prop :=
  ∃ r : Token.Reader, r.next.2.fault = none ∧ r.next.2.Hands c ∧ d = reading r

theorem Here.start (source : Bytes) : Here (.ofTokens (Token.scan source)) (start source) :=
  ⟨.start source, rfl, .start source, rfl⟩

theorem Here.errors (h : Here c d) : d.errors = [] := by
  obtain ⟨r, -, -, rfl⟩ := h
  rfl

theorem Ahead.errors (h : Ahead c d) : d.errors = [] := by
  obtain ⟨r, -, -, rfl⟩ := h
  rfl

theorem Here.cur (h : Here c d) : d.cur = c.head := by
  obtain ⟨r, -, hr, rfl⟩ := h
  exact hr.head

theorem Ahead.peek (h : Ahead c d) : d.peek = c.head := by
  obtain ⟨r, -, hr, rfl⟩ := h
  exact hr.head

theorem Here.ahead (h : Here c d) (hk : c.head.kind.isIllegal = false) : Ahead c.advance d := by
  obtain ⟨r, hfault, hr, rfl⟩ := h
  exact ⟨r, Token.Reader.fault_next_of_legal hfault (by rwa [hr.head]), hr.advance, rfl⟩

theorem Ahead.here (h : Ahead c d) : Here c d.advance := by
  obtain ⟨r, hfault, hr, rfl⟩ := h
  exact ⟨r.next.2, hfault, hr, rfl⟩

theorem errors_report_of_fault {fault : Token.Fault} {q : Pos} (hd : d.errors = [])
    (h : d.reader.fault = some (fault, q)) (cause : SyntaxError.Cause) (t : Token) :
    (d.report cause t).errors = [⟨.lexical fault, t.literal, q⟩] := by
  rw [Desk.report, failed_of_nil hd, h, if_neg Bool.false_ne_true, hd]
  rfl

theorem errors_report_of_none (hd : d.errors = []) (h : d.reader.fault = none)
    (cause : SyntaxError.Cause) (t : Token) :
    (d.report cause t).errors = [⟨cause, t.literal, t.pos⟩] := by
  rw [Desk.report, failed_of_nil hd, h, if_neg Bool.false_ne_true, hd]
  rfl

theorem Here.fault_of_illegal {fault : Token.Fault} (h : Here c d)
    (hk : c.head.kind = .illegal fault) : d.reader.fault = some (fault, c.head.pos) := by
  obtain ⟨r, hfault, hr, rfl⟩ := h
  rw [← hr.head] at hk ⊢
  exact ((Token.Reader.call_next _).of_fault
    (Token.Reader.fault_next_of_illegal hfault hk)).2

theorem Ahead.fault_of_illegal {fault : Token.Fault} (h : Ahead c d)
    (hk : c.head.kind = .illegal fault) : d.reader.fault = some (fault, c.head.pos) := by
  obtain ⟨r, hfault, hr, rfl⟩ := h
  rw [← hr.head] at hk ⊢
  exact Token.Reader.fault_next_of_illegal hfault hk

theorem Ahead.fault_of_legal (h : Ahead c d) (hk : c.head.kind.isIllegal = false) :
    d.reader.fault = none := by
  obtain ⟨r, hfault, hr, rfl⟩ := h
  exact Token.Reader.fault_next_of_legal hfault (by rwa [hr.head])

theorem Ahead.errors_report (h : Ahead c d) (hcause : cause.isOperand = false) :
    (d.report cause c.head).errors = [c.report cause] := by
  cases hk : c.head.kind.isIllegal with
  | false =>
    rw [errors_report_of_none h.errors (h.fault_of_legal hk),
      Cursor.report_of_legal hk (.inr hcause)]
  | true =>
    obtain ⟨fault, hk⟩ := Token.Kind.exists_of_isIllegal hk
    rw [errors_report_of_fault h.errors (h.fault_of_illegal hk), Cursor.report_of_illegal hk]

/-- When something is reported about the current token, the token after it has been read as well:
it may be that one that counts. -/
theorem Here.errors_report (h : Here c d) (hcause : cause.isOperand) :
    (d.report cause c.head).errors = [c.report cause] := by
  cases hk : c.head.kind.isIllegal with
  | true =>
    obtain ⟨fault, hk⟩ := Token.Kind.exists_of_isIllegal hk
    rw [errors_report_of_fault h.errors (h.fault_of_illegal hk), Cursor.report_of_illegal hk]
  | false =>
    have hahead := h.ahead hk
    cases hn : c.next.kind.isIllegal with
    | true =>
      obtain ⟨fault, hn⟩ := Token.Kind.exists_of_isIllegal hn
      have hfault := hahead.fault_of_illegal (c.next_eq ▸ hn)
      rw [← c.next_eq] at hfault
      rw [errors_report_of_fault h.errors hfault, Cursor.report_of_next hk hn hcause]
    | false =>
      rw [errors_report_of_none h.errors (hahead.fault_of_legal (c.next_eq ▸ hn)),
        Cursor.report_of_legal hk (.inl hn)]

theorem Here.fault_of_endOfInput (h : Here c d) (hend : c.head.kind = .endOfInput) :
    d.reader.fault = none := by
  have hahead := h.ahead (by rw [hend]; rfl)
  obtain ⟨r, -, hr, -⟩ := h
  refine hahead.fault_of_legal ?_
  rw [← c.next_eq, hr.next_of_endOfInput hend, hend]
  rfl

end Desk

namespace Reporter

variable {α β : Type} {c c' : Cursor} {d d' : Desk} {n : Nat} {cause : SyntaxError.Cause}

/-- The parser that stops at an error has the result on the left, the one that reports errors has
the one on the right. What is said if the recursion is too deep does not matter. -/
inductive Mirrored : EStateM.Result SyntaxError Cursor α → Option α × Desk → Prop where
  | found {a : α} {c : Cursor} {d : Desk} : d.Ahead c → Mirrored (.ok a c) (some a, d)
  | missing {e : SyntaxError} {c : Cursor} {d : Desk} :
    (e.cause ≠ .tooDeep → d.errors = [e]) → Mirrored (.error e c) (none, d)

theorem expectPeek_of_eq {kind : Token.Kind} (h : d.peek.kind = kind) :
    expectPeek kind d = (some (), d.advance) :=
  congrFun (if_pos h) d

theorem expectPeek_of_ne {kind : Token.Kind} (h : d.peek.kind ≠ kind) :
    expectPeek kind d = (none, d.report (.expected kind d.peek.kind) d.peek) :=
  congrFun (if_neg h) d

namespace Mirrored

theorem pure (h : d.Ahead c) (a : α) :
    Mirrored ((Pure.pure a : Parser α) c) ((Pure.pure a : Reporter α) d) :=
  .found h

theorem bind {p : Parser α} {q : Reporter α} {f : α → Parser β} {g : α → Reporter β}
    (h : Mirrored (p c) (q d)) (hf : ∀ a c' d', d'.Ahead c' → Mirrored (f a c') (g a d')) :
    Mirrored ((p >>= f) c) ((q >>= g) d) := by
  rw [bind_apply]
  generalize hp : p c = x at h
  generalize q d = y at h
  cases h with
  | found h =>
    rw [Parser.bind_ok hp]
    exact hf _ _ _ h
  | missing h =>
    rw [Parser.bind_error hp]
    exact .missing h

section Steps

variable {x : EStateM.Result SyntaxError Cursor α} {y : Option α × Desk} {f : Token → Parser α}
  {g : Token → Reporter α}

theorem take (h : Mirrored (f c.head c.advance) y) : Mirrored ((Parser.take >>= f) c) y := h

theorem next {q : Unit → Reporter α} (h : Mirrored x (q () d.advance)) :
    Mirrored x ((Reporter.next >>= q) d) := h

theorem cur (hd : d.Here c) (h : Mirrored (f c.head c) (g c.head d)) :
    Mirrored ((Parser.head >>= f) c) ((Reporter.cur >>= g) d) := by
  change Mirrored (f c.head c) (g d.cur d)
  rwa [hd.cur]

theorem peek (hd : d.Ahead c) (h : Mirrored (f c.head c) (g c.head d)) :
    Mirrored ((Parser.head >>= f) c) ((Reporter.peek >>= g) d) := by
  change Mirrored (f c.head c) (g d.peek d)
  rwa [hd.peek]

end Steps

theorem ite {p : Prop} [Decidable p] {p₁ p₂ : Parser α} {q₁ q₂ : Reporter α}
    (h₁ : p → Mirrored (p₁ c) (q₁ d)) (h₂ : ¬p → Mirrored (p₂ c) (q₂ d)) :
    Mirrored ((if p then p₁ else p₂) c) ((if p then q₁ else q₂) d) := by
  split
  · next h => exact h₁ h
  · next h => exact h₂ h

theorem refuse (hd : d.Ahead c) (hcause : cause.isOperand = false) :
    Mirrored ((Parser.refuse cause : Parser α) c)
      ((Reporter.refuse cause c.head : Reporter α) d) := by
  rw [Parser.rejects_refuse hcause]
  exact .missing fun _ => hd.errors_report hcause

theorem refuseOperand (hd : d.Here c) (hcause : cause.isOperand) :
    Mirrored ((Parser.refuseOperand cause : Parser α) c)
      ((Reporter.refuse cause c.head : Reporter α) d) := by
  rw [Parser.rejects_refuseOperand hcause]
  exact .missing fun _ => hd.errors_report hcause

theorem unterminatedBlock (hd : d.Here c) (hend : c.head.kind = .endOfInput) :
    Mirrored ((Parser.refuse .unterminatedBlock : Parser α) c)
      ((Reporter.refuse .unterminatedBlock c.head : Reporter α) d) := by
  rw [Parser.refuse_of_legal (by rw [hend]; rfl)]
  exact .missing fun _ =>
    Desk.errors_report_of_none hd.errors (hd.fault_of_endOfInput hend) _ _

theorem tooDeepHere (hd : d.Here c) : Mirrored ((Parser.refuse .tooDeep : Parser α) c)
    ((do Reporter.refuse .tooDeep (← Reporter.cur) : Reporter α) d) := by
  change Mirrored _ ((Reporter.refuse .tooDeep d.cur : Reporter α) d)
  rw [hd.cur]
  cases hk : c.head.kind.isIllegal with
  | false =>
    rw [Parser.refuse_of_legal hk]
    exact .missing fun h => absurd rfl h
  | true =>
    obtain ⟨fault, hk⟩ := Token.Kind.exists_of_isIllegal hk
    rw [Parser.refuse_of_illegal hk]
    exact .missing fun _ => Desk.errors_report_of_fault hd.errors (hd.fault_of_illegal hk) _ _

theorem tooDeepAhead (hd : d.Ahead c) : Mirrored ((Parser.refuse .tooDeep : Parser α) c)
    ((do Reporter.refuse .tooDeep (← Reporter.peek) : Reporter α) d) := by
  change Mirrored _ ((Reporter.refuse .tooDeep d.peek : Reporter α) d)
  rw [hd.peek]
  exact .refuse hd rfl

theorem expect {kind : Token.Kind} {f : Token → Parser α} {q : Unit → Reporter α}
    (hd : d.Ahead c) (hkind : kind.isIllegal = false)
    (h : d.advance.Here c → d.advance.Ahead c.advance →
      Mirrored (f c.head c.advance) (q () d.advance)) :
    Mirrored ((Parser.expect kind >>= f) c) ((expectPeek kind >>= q) d) := by
  rw [bind_apply]
  by_cases hk : c.head.kind = kind
  · have htake : Parser.expect kind c = .ok c.head c.advance := congrFun (if_pos hk) c
    rw [Parser.bind_ok htake, expectPeek_of_eq (hd.peek ▸ hk)]
    exact h hd.here (hd.here.ahead (by rwa [hk]))
  · have hrefuse : Parser.expect kind c = Parser.refuse (.expected kind c.head.kind) c :=
      congrFun (if_neg hk) c
    rw [Parser.bind_error (hrefuse.trans (Parser.rejects_refuse rfl c)),
      expectPeek_of_ne (hd.peek ▸ hk), hd.peek]
    exact .missing fun _ => hd.errors_report rfl

theorem ident (hd : d.Ahead c) : Mirrored (Parser.expectIdent c) (Reporter.ident d) := by
  refine .expect hd rfl fun here ahead => ?_
  change Mirrored _ ((Pure.pure ⟨d.advance.cur, d.advance.cur.literal⟩ : Reporter Ident) d.advance)
  rw [here.cur]
  exact .pure ahead _

theorem optionalSemicolon (hd : d.Ahead c) :
    Mirrored (Parser.optionalSemicolon c) (Reporter.optionalSemicolon d) := by
  refine .peek hd (.ite (fun hk => ?_) fun _ => .pure hd _)
  exact .found (hd.here.ahead (by rw [hk]; rfl))

theorem numberLiteral (hd : d.Here c) (hk : c.head.kind.isIllegal = false) :
    Mirrored (Parser.numberLiteral c) (Reporter.numberLiteral d) := by
  refine .cur hd ?_
  cases Number.ofLiteral? c.head.literal with
  | none => exact .refuseOperand hd rfl
  | some v => exact .take (.pure (hd.ahead hk) _)

theorem unless_failed {x : EStateM.Result SyntaxError Cursor α} {q : Reporter α}
    (hd : d.errors = []) (h : Mirrored x (q d)) :
    Mirrored x ((do if (← get).failed then failure else q : Reporter α) d) := by
  change Mirrored x ((if d.failed then failure else q : Reporter α) d)
  rw [Desk.failed_of_nil hd]
  exact h

end Mirrored

theorem mirrored_moreParams (n : Nat) (hd : d.Ahead c) :
    Mirrored (Parser.moreParams n c) (moreParams n d) := by
  induction n generalizing c d with
  | zero => exact .tooDeepAhead hd
  | succ n ih =>
    refine .peek hd (.ite (fun hk => ?_) fun _ => .pure hd _)
    have hahead := hd.here.ahead (by rw [hk]; rfl)
    exact .take (.next (.bind (.ident hahead) fun _ _ _ hd => .bind (ih hd) fun _ _ _ hd =>
      .pure hd _))

theorem mirrored_params (n : Nat) (hd : d.Ahead c) :
    Mirrored (Parser.params n c) (params n d) := by
  refine .peek hd (.ite (fun hk => ?_) fun _ => ?_)
  · exact .take (.next (.pure (hd.here.ahead (by rw [hk]; rfl)) _))
  · refine .bind (.ident hd) fun _ _ _ hd => .bind (mirrored_moreParams n hd) fun _ _ _ hd => ?_
    exact .expect hd rfl fun _ hd => .pure hd _

structure AllMirror (n : Nat) : Prop where
  expr : ∀ level {c d}, d.Here c → Mirrored (Parser.expr n level c) (expr n level d)
  operand : ∀ {c d}, d.Here c → Mirrored (Parser.operand n c) (operand n d)
  operators : ∀ level left {c d}, d.Ahead c →
    Mirrored (Parser.operators n level left c) (operators n level left d)
  exprList : ∀ {close c d}, close.isIllegal = false → d.Ahead c →
    Mirrored (Parser.exprList n close c) (exprList n close d)
  moreExprs : ∀ {c d}, d.Ahead c → Mirrored (Parser.moreExprs n c) (moreExprs n d)
  hashPairs : ∀ {c d}, d.Ahead c → Mirrored (Parser.hashPairs n c) (hashPairs n d)
  block : ∀ {c d}, d.Ahead c →
    Mirrored (Parser.block n c) ((do expectPeek .leftBrace; block n) d)
  blockBody : ∀ {c d}, d.Here c → Mirrored (Parser.blockBody n c) (blockBody n d)
  stmt : ∀ {c d}, d.Here c → Mirrored (Parser.stmt n c) (stmt n d)

theorem operators_of_weak {level : Level} {left : Expr}
    (h : d.peek.kind = .semicolon ∨ d.peek.kind.precedence ≤ level.rank) :
    operators (n + 1) level left d = (some left, d) :=
  congrFun (if_pos h) d

namespace AllMirror

variable (h : AllMirror n)

include h

theorem block_bind {f : Block → Parser β} {g : Block → Reporter β} (hd : d.Ahead c)
    (hf : ∀ b c' d', d'.Ahead c' → Mirrored (f b c') (g b d')) :
    Mirrored ((Parser.block n >>= f) c)
      ((expectPeek .leftBrace >>= fun _ => Reporter.block n >>= g) d) := by
  rw [← bind_assoc]
  exact .bind (h.block hd) hf

theorem expr_succ (level : Level) (hd : d.Here c) :
    Mirrored (Parser.expr (n + 1) level c) (Reporter.expr (n + 1) level d) := by
  refine .bind (h.operand hd) fun _ _ _ hd => .bind (h.operators _ _ hd) fun _ _ _ hd => ?_
  exact .peek hd (.ite (fun _ => .refuse hd rfl) fun _ => .pure hd _)

theorem exprList_succ {close : Token.Kind} (hclose : close.isIllegal = false) (hd : d.Ahead c) :
    Mirrored (Parser.exprList (n + 1) close c) (Reporter.exprList (n + 1) close d) := by
  refine .peek hd (.ite (fun hk => ?_) fun _ => .next ?_)
  · exact .take (.next (.pure (hd.here.ahead (by rwa [hk])) _))
  · refine .bind (h.expr _ hd.here) fun _ _ _ hd => .bind (h.moreExprs hd) fun _ _ _ hd => ?_
    exact .expect hd hclose fun _ hd => .pure hd _

theorem moreExprs_succ (hd : d.Ahead c) :
    Mirrored (Parser.moreExprs (n + 1) c) (Reporter.moreExprs (n + 1) d) := by
  refine .peek hd (.ite (fun hk => ?_) fun _ => .pure hd _)
  have hahead := hd.here.ahead (by rw [hk]; rfl)
  exact .take (.next (.next (.bind (h.expr _ hahead.here) fun _ _ _ hd =>
    .bind (h.moreExprs hd) fun _ _ _ hd => .pure hd _)))

theorem hashPairs_succ (hd : d.Ahead c) :
    Mirrored (Parser.hashPairs (n + 1) c) (Reporter.hashPairs (n + 1) d) := by
  refine .next (.bind (h.expr _ hd.here) fun _ _ _ hd => .expect hd rfl fun _ hd => .next ?_)
  refine .bind (h.expr _ hd.here) fun _ _ _ hd => .peek hd (.ite (fun hk => ?_) fun _ => .pure hd _)
  exact .take (.next (.bind (h.hashPairs (hd.here.ahead (by rw [hk]; rfl))) fun _ _ _ hd =>
    .pure hd _))

theorem block_succ (hd : d.Ahead c) :
    Mirrored (Parser.block (n + 1) c) ((do expectPeek .leftBrace; Reporter.block (n + 1)) d) := by
  refine .expect hd rfl fun here ahead => ?_
  change Mirrored _ ((Reporter.next >>= fun _ => Reporter.blockBody n >>= fun body =>
    Pure.pure (Block.mk d.advance.cur body) : Reporter Block) d.advance)
  rw [here.cur]
  exact .next (.bind (h.blockBody ahead.here) fun _ _ _ hd => .pure hd _)

theorem blockBody_succ (hd : d.Here c) :
    Mirrored (Parser.blockBody (n + 1) c) (Reporter.blockBody (n + 1) d) := by
  refine .cur hd ?_
  generalize hk : c.head.kind = kind
  cases kind with
  | rightBrace => exact .take (.pure (hd.ahead (by rw [hk]; rfl)) _)
  | endOfInput => exact .unterminatedBlock hd hk
  | _ =>
    refine .bind (h.stmt hd) fun _ _ _ hd => .unless_failed hd.errors (.next ?_)
    exact .bind (h.blockBody hd.here) fun _ _ _ hd => .pure hd _

theorem stmt_succ (hd : d.Here c) :
    Mirrored (Parser.stmt (n + 1) c) (Reporter.stmt (n + 1) d) := by
  refine .cur hd ?_
  generalize hk : c.head.kind = kind
  cases kind with
  | letWord =>
    refine .take (.bind (.ident (hd.ahead (by rw [hk]; rfl))) fun _ _ _ hd => ?_)
    refine .expect hd rfl fun _ hd => .next (.bind (h.expr _ hd.here) fun _ _ _ hd => ?_)
    exact .bind (.optionalSemicolon hd) fun _ _ _ hd => .pure hd _
  | returnWord =>
    have hahead := hd.ahead (by rw [hk]; rfl)
    refine .take (.next (.bind (h.expr _ hahead.here) fun _ _ _ hd => ?_))
    exact .bind (.optionalSemicolon hd) fun _ _ _ hd => .pure hd _
  | _ =>
    refine .bind (h.expr _ hd) fun _ _ _ hd => ?_
    exact .bind (.optionalSemicolon hd) fun _ _ _ hd => .pure hd _

theorem operators_binary (level : Level) (left : Expr) (hd : d.Ahead c) (op : BinaryOp)
    (own : Level) (hop : c.head.kind.binary? = some (op, own))
    (hlt : level.rank < c.head.kind.precedence) :
    Mirrored ((if level.rank < own.rank then do
        let _ ← Parser.take
        let right ← Parser.expr n own
        Parser.operators n level (.binary c.head left op right)
      else Pure.pure left : Parser Expr) c)
      ((do
        Reporter.next
        Reporter.next
        let right ← Reporter.expr n own
        Reporter.operators n level (.binary c.head left op right) : Reporter Expr) d) := by
  have hlegal := Token.Kind.isIllegal_eq_false fun fault (he : c.head.kind = .illegal fault) => by
    rw [he] at hop
    cases hop
  rw [if_pos (Token.Kind.precedence_of_binary hop ▸ hlt)]
  refine .take (.next (.next (.bind (h.expr own (hd.here.ahead hlegal).here) fun _ _ _ hd => ?_)))
  exact h.operators _ _ hd

theorem operators_succ (level : Level) (left : Expr) (hd : d.Ahead c) :
    Mirrored (Parser.operators (n + 1) level left c) (Reporter.operators (n + 1) level left d) := by
  by_cases hweak : c.head.kind = .semicolon ∨ c.head.kind.precedence ≤ level.rank
  · have hrests : (Parser.operators (n + 1) level left).quiet c = some (left, c) :=
      Parser.quiet_operators_rests (Token.Kind.rests_of_weak hweak)
    rw [Parser.quiet_eq_some.mp hrests, operators_of_weak (hd.peek ▸ hweak)]
    exact .found hd
  refine .peek hd ?_
  rw [if_neg hweak]
  have hahead (hk : c.head.kind.isIllegal = false) := hd.here.ahead hk
  have binary (op own hop) := h.operators_binary level left hd op own hop (by omega)
  generalize hk : c.head.kind = kind at hahead binary
  cases kind with
  | leftParen =>
    refine .take (.next (.bind (h.exprList rfl (hahead rfl)) fun _ _ _ hd => ?_))
    exact h.operators _ _ hd
  | leftBracket =>
    refine .take (.next (.peek (hahead rfl) (.ite (fun _ => .refuse (hahead rfl) rfl) fun _ => ?_)))
    refine .next (.bind (h.expr _ (hahead rfl).here) fun _ _ _ hd => ?_)
    exact .expect hd rfl fun _ hd => h.operators _ _ hd
  | dot =>
    refine .take (.next (.bind (.ident (hahead rfl)) fun _ _ _ hd => .expect hd rfl fun _ hd => ?_))
    exact .bind (h.exprList rfl hd) fun _ _ _ hd => h.operators _ _ hd
  | _ => first | exact .pure hd _ | exact binary _ _ rfl

theorem operand_succ (hd : d.Here c) :
    Mirrored (Parser.operand (n + 1) c) (Reporter.operand (n + 1) d) := by
  refine .cur hd ?_
  have hahead (hk : c.head.kind.isIllegal = false) := hd.ahead hk
  have taken (hk : c.head.kind.isIllegal = false) (e : Expr) :
      Mirrored ((Parser.take >>= fun _ => Pure.pure e : Parser Expr) c)
        ((Pure.pure e : Reporter Expr) d) :=
    .take (.pure (hd.ahead hk) e)
  have number := Mirrored.numberLiteral hd
  generalize hk : c.head.kind = kind at hahead taken number
  cases kind with
  | ident => exact taken rfl _
  | number => exact number rfl
  | string => exact taken rfl _
  | trueWord => exact taken rfl _
  | falseWord => exact taken rfl _
  | nullWord => exact taken rfl _
  | bang => exact .take (.next (.bind (h.expr _ (hahead rfl).here) fun _ _ _ hd => .pure hd _))
  | minus => exact .take (.next (.bind (h.expr _ (hahead rfl).here) fun _ _ _ hd => .pure hd _))
  | leftParen =>
    refine .take (.next (.bind (h.expr _ (hahead rfl).here) fun _ _ _ hd => ?_))
    exact .expect hd rfl fun _ hd => .pure hd _
  | leftBracket => exact .take (.bind (h.exprList rfl (hahead rfl)) fun _ _ _ hd => .pure hd _)
  | leftBrace =>
    refine .take (.peek (hahead rfl) (.ite (fun hk => ?_) fun _ => ?_))
    · exact .take (.next (.pure ((hahead rfl).here.ahead (by rw [hk]; rfl)) _))
    · refine .bind (h.hashPairs (hahead rfl)) fun _ _ _ hd => ?_
      exact .expect hd rfl fun _ hd => .pure hd _
  | ifWord =>
    refine .take (.expect (hahead rfl) rfl fun _ hd => .next ?_)
    refine .bind (h.expr _ hd.here) fun _ _ _ hd => .expect hd rfl fun _ hd => ?_
    refine h.block_bind hd fun _ c' _ hd => .peek hd (.ite (fun hk => ?_) fun _ => .pure hd _)
    exact .take (.next (h.block_bind (hd.here.ahead (by rw [hk]; rfl)) fun _ _ _ hd => .pure hd _))
  | fnWord =>
    refine .take (.expect (hahead rfl) rfl fun _ hd => ?_)
    refine .bind (mirrored_params n hd) fun _ _ _ hd => ?_
    exact h.block_bind hd fun _ _ _ hd => .pure hd _
  | _ => exact .refuseOperand hd rfl

end AllMirror

theorem mirrored_block_zero (hd : d.Ahead c) :
    Mirrored (Parser.block 0 c) ((do expectPeek .leftBrace; block 0) d) := by
  rw [bind_apply, Parser.block, Parser.rejects_refuse rfl]
  by_cases hk : c.head.kind = .leftBrace
  · rw [expectPeek_of_eq (hd.peek ▸ hk), Cursor.report_of_legal (by rw [hk]; rfl) (.inr rfl)]
    exact .missing fun h => absurd rfl h
  · rw [expectPeek_of_ne (hd.peek ▸ hk), hd.peek]
    refine .missing fun he => ?_
    rw [hd.errors_report rfl]
    cases hi : c.head.kind.isIllegal with
    | false => exact absurd (by rw [Cursor.report_of_legal hi (.inr rfl)]) he
    | true =>
      obtain ⟨fault, hi⟩ := Token.Kind.exists_of_isIllegal hi
      rw [Cursor.report_of_illegal hi, Cursor.report_of_illegal hi]

theorem allMirror (n : Nat) : AllMirror n := by
  induction n with
  | zero =>
    exact ⟨fun _ _ _ => .tooDeepHere, .tooDeepHere, fun _ _ _ _ => .tooDeepAhead,
      fun _ => .tooDeepAhead, .tooDeepAhead, .tooDeepAhead, mirrored_block_zero, .tooDeepHere,
      .tooDeepHere⟩
  | succ n ih =>
    exact ⟨fun level _ _ => ih.expr_succ level, ih.operand_succ, fun level left _ _ =>
      ih.operators_succ level left, ih.exprList_succ, ih.moreExprs_succ, ih.hashPairs_succ,
      ih.block_succ, ih.blockBody_succ, ih.stmt_succ⟩

/-- For a program the parser that reports errors always has a result. It counts only if no error is
reported. -/
inductive MirroredBody :
    EStateM.Result SyntaxError Cursor (List Stmt) → List Stmt × Desk → Prop where
  | ended {body : List Stmt} {c : Cursor} {d : Desk} :
    d.Here c → MirroredBody (.ok body c) (body, d)
  | stopped {e : SyntaxError} {c : Cursor} {body : List Stmt} {d : Desk} :
    (e.cause ≠ .tooDeep → d.errors = [e]) → MirroredBody (.error e c) (body, d)

theorem mirrored_stmts (n : Nat) (hd : d.Here c) :
    MirroredBody (Parser.stmts n c) (stmts n d) := by
  induction n generalizing c d with
  | zero =>
    have h : Mirrored (Parser.stmts 0 c) (none, d.report .tooDeep d.cur) := .tooDeepHere hd
    generalize Parser.stmts 0 c = x at h ⊢
    cases h with
    | missing h => exact .stopped h
  | succ n ih =>
    have hstmts : Parser.stmts (n + 1) c = if c.head.kind = .endOfInput then .ok [] c
        else (Parser.stmt n >>= fun s => Parser.stmts n >>= fun body => pure (s :: body)) c := by
      change (if c.head.kind = .endOfInput then pure [] else _ : Parser (List Stmt)) c = _
      split <;> rfl
    rw [hstmts, stmts_succ, hd.cur]
    split
    · exact .ended hd
    · have h := (allMirror n).stmt hd
      generalize hp : Parser.stmt n c = x at h
      generalize stmt n d = y at h
      cases h with
      | missing h =>
        rw [Parser.bind_error hp]
        exact .stopped h
      | found h =>
        rw [Parser.bind_ok hp]
        dsimp only
        rw [Desk.failed_of_nil h.errors]
        have hrest := ih h.here
        generalize hp' : Parser.stmts n _ = x' at hrest
        generalize stmts n _ = y' at hrest
        cases hrest with
        | ended h =>
          rw [Parser.bind_ok hp']
          exact .ended h
        | stopped h =>
          rw [Parser.bind_error hp']
          exact .stopped h

theorem program_of_ok {body : List Stmt} (hd : d.Here c) (h : Parser.stmts n c = .ok body c')
    (hend : c'.head.kind = .endOfInput) :
    ∃ d', program n d = (⟨body⟩, d') ∧ d'.errors = [] ∧ d'.cur.kind = .endOfInput := by
  have hbody := mirrored_stmts n hd
  rw [h] at hbody
  generalize hy : stmts n d = y at hbody
  cases hbody with
  | @ended _ _ d' hd' =>
    have hclose := Desk.close_of_fault (hd'.fault_of_endOfInput hend)
    refine ⟨d', ?_, hd'.errors, by rw [hd'.cur, hend]⟩
    change ((⟨(stmts n d).1⟩, (stmts n d).2.close) : Program × Desk) = _
    rw [hy, hclose]

theorem errors_program_of_error {e : SyntaxError} (hd : d.Here c)
    (h : Parser.stmts n c = .error e c') (he : e.cause ≠ .tooDeep) :
    (program n d).2.errors = [e] := by
  have hbody := mirrored_stmts n hd
  rw [h] at hbody
  change (stmts n d).2.close.errors = [e]
  generalize stmts n d = y at hbody
  cases hbody with
  | stopped hd' =>
    rw [Desk.close_of_failed (Desk.failed_of_singleton (hd' he))]
    exact hd' he

end Reporter

end CornScript
