import CornScript.Proofs.Parser.Bound
import CornScript.Proofs.Parser.Grammar

/-! # Comparing readers

A parser without its errors is a reader that may fail, so it can be compared with the rules of the
grammar. Where one reader succeeds, another one that is given more and more depth is to succeed in
the end, with the same result.
-/

namespace CornScript

variable {α β : Type} {c c' : Cursor}

namespace Descent

theorem bind_run (p : Descent α) (q : α → Descent β) (c : Cursor) :
    (p >>= q) c = (p c).bind fun r => q r.1 r.2 := rfl

theorem bind_eq_some {p : Descent α} {q : α → Descent β} {b : β} :
    (p >>= q) c = some (b, c') ↔ ∃ a c₁, p c = some (a, c₁) ∧ q a c₁ = some (b, c') := by
  rw [bind_run, Option.bind_eq_some_iff, Prod.exists]

theorem peek_run (q : Token → Descent β) (c : Cursor) : (Grammar.peek >>= q) c = q c.head c := rfl

theorem next_run (q : Token → Descent β) (c : Cursor) :
    (Grammar.next >>= q) c = q c.head c.advance := rfl

theorem token_of_eq {kind : Token.Kind} (h : c.head.kind = kind) :
    Grammar.token kind c = some (c.head, c.advance) := by
  rw [Grammar.token, peek_run, if_pos h]
  rfl

theorem token_eq_some {kind : Token.Kind} {t : Token} :
    Grammar.token kind c = some (t, c') ↔ c.head.kind = kind ∧ c.head = t ∧ c.advance = c' := by
  constructor
  · intro h
    rw [Grammar.token, peek_run] at h
    split at h
    · cases h
      exact ⟨‹_›, rfl, rfl⟩
    · cases h
  · rintro ⟨h, rfl, rfl⟩
    exact token_of_eq h

end Descent

namespace Parser

def quiet (p : Parser α) : Descent α := fun c =>
  match p c with
  | .ok a c' => some (a, c')
  | .error _ _ => none

theorem quiet_eq_some {p : Parser α} {a : α} : p.quiet c = some (a, c') ↔ p c = .ok a c' := by
  unfold quiet
  split <;> simp [*]

theorem quiet_eq_failure {p : Parser α} {cause : SyntaxError.Cause}
    (h : ∀ c, Refuses cause c p) : p.quiet = failure := by
  funext c
  obtain ⟨e, hp, -⟩ := h c
  simp only [quiet, hp]
  rfl

@[simp] theorem quiet_pure (a : α) : (pure a : Parser α).quiet = pure a := rfl

@[simp] theorem quiet_bind (p : Parser α) (f : α → Parser β) :
    (p >>= f).quiet = p.quiet >>= fun a => (f a).quiet := by
  funext c
  rw [Descent.bind_run]
  cases h : p c with
  | ok a c' =>
    rw [quiet_eq_some.mpr h]
    simp only [quiet, bind_ok h]
    rfl
  | error e c' =>
    have hn : p.quiet c = none := by simp only [quiet, h]
    rw [hn]
    simp only [quiet, bind_error h]
    rfl

@[simp] theorem quiet_head : head.quiet = Grammar.peek := rfl

@[simp] theorem quiet_take : take.quiet = Grammar.next := rfl

@[simp] theorem quiet_refuse (cause : SyntaxError.Cause) :
    (refuse cause : Parser α).quiet = failure :=
  quiet_eq_failure (refuses_refuse cause)

@[simp] theorem quiet_refuseOperand (cause : SyntaxError.Cause) :
    (refuseOperand cause : Parser α).quiet = failure :=
  quiet_eq_failure (refuses_refuseOperand cause)

@[simp] theorem quiet_ite (P : Prop) [Decidable P] (p q : Parser α) :
    (if P then p else q).quiet = if P then p.quiet else q.quiet :=
  apply_ite quiet P p q

@[simp] theorem quiet_expect (kind : Token.Kind) : (expect kind).quiet = Grammar.token kind := by
  simp only [expect, Grammar.token, quiet_bind, quiet_head, quiet_ite, quiet_take, quiet_refuse]

@[simp] theorem quiet_expectIdent : expectIdent.quiet = Grammar.name := by
  simp only [expectIdent, Grammar.name, quiet_bind, quiet_expect, quiet_pure]

@[simp] theorem quiet_optionalSemicolon : optionalSemicolon.quiet = Grammar.semicolon := by
  simp only [optionalSemicolon, Grammar.semicolon, quiet_bind, quiet_head, quiet_ite, quiet_take,
    quiet_pure]

theorem quiet_numberLiteral (h : c.head.kind = .number) :
    numberLiteral.quiet c = Grammar.number c := by
  rw [numberLiteral, quiet_bind, quiet_head, Descent.peek_run, Grammar.number, Descent.bind_run,
    Descent.token_of_eq h, Option.bind_some]
  cases Number.ofLiteral? c.head.literal with
  | some v => rfl
  | none =>
    dsimp only
    rw [quiet_refuseOperand]
    rfl

variable (n : Nat)

theorem quiet_moreParams : (moreParams n).quiet = Grammar.moreNames n := by
  induction n with
  | zero => simp only [moreParams, Grammar.moreNames, quiet_refuse]
  | succ n ih =>
    simp only [moreParams, Grammar.moreNames, Grammar.afterComma, quiet_bind, quiet_head,
      quiet_ite, quiet_take, quiet_expectIdent, quiet_pure, ih]

theorem quiet_params : (params n).quiet = Grammar.parameters n := by
  simp only [params, Grammar.parameters, Grammar.listed, quiet_bind, quiet_head, quiet_ite,
    quiet_take, quiet_expectIdent, quiet_expect, quiet_pure, quiet_moreParams]

theorem quiet_expr (level : Level) :
    (expr (n + 1) level).quiet = do
      let first ← (operand n).quiet
      let e ← (operators n level first).quiet
      let t ← Grammar.peek
      if t.kind.isStray then failure else return e := by
  simp only [expr, quiet_bind, quiet_head, quiet_ite, quiet_refuse, quiet_pure]

theorem quiet_exprList (close : Token.Kind) :
    (exprList (n + 1) close).quiet =
      Grammar.listed close (expr n .lowest).quiet (moreExprs n).quiet := by
  simp only [exprList, Grammar.listed, quiet_bind, quiet_head, quiet_ite, quiet_take, quiet_expect,
    quiet_pure]

theorem quiet_moreExprs :
    (moreExprs (n + 1)).quiet = Grammar.afterComma (expr n .lowest).quiet (moreExprs n).quiet := by
  simp only [moreExprs, Grammar.afterComma, quiet_bind, quiet_head, quiet_ite, quiet_take,
    quiet_pure]

theorem quiet_hashPairs :
    (hashPairs (n + 1)).quiet = Grammar.paired (expr n .lowest).quiet (hashPairs n).quiet := by
  simp only [hashPairs, Grammar.paired, quiet_bind, quiet_head, quiet_ite, quiet_take, quiet_expect,
    quiet_pure]

theorem quiet_block :
    (block (n + 1)).quiet = do
      let t ← Grammar.token .leftBrace
      return .mk t (← (blockBody n).quiet) := by
  simp only [block, quiet_bind, quiet_expect, quiet_pure]

theorem quiet_blockBody :
    (blockBody (n + 1)).quiet = Grammar.untilBrace (stmt n).quiet (blockBody n).quiet := by
  simp only [blockBody, Grammar.untilBrace, quiet_bind, quiet_head]
  congr 1
  funext t
  split <;> simp only [*, quiet_bind, quiet_take, quiet_pure, quiet_refuse]

theorem quiet_stmt : (stmt (n + 1)).quiet = Grammar.sentence (expr n .lowest).quiet := by
  simp only [stmt, Grammar.sentence, quiet_bind, quiet_head]
  congr 1
  funext t
  split <;>
    simp only [*, quiet_bind, quiet_take, quiet_expectIdent, quiet_expect, quiet_optionalSemicolon,
      quiet_pure]

theorem quiet_stmts :
    (stmts (n + 1)).quiet = do
      let t ← Grammar.peek
      if t.kind = .endOfInput then return []
      else
        let s ← (stmt n).quiet
        return s :: (← (stmts n).quiet) := by
  simp only [stmts, quiet_bind, quiet_head, quiet_ite, quiet_pure]

theorem quiet_operand (hm : c.head.kind ≠ .minus) (hb : c.head.kind ≠ .bang) :
    (operand (n + 1)).quiet c =
      Grammar.atom (expr n .lowest).quiet (block n).quiet (fun close => (exprList n close).quiet)
        (hashPairs n).quiet (Grammar.parameters n) c := by
  rw [operand, quiet_bind, quiet_head, Descent.peek_run, Grammar.atom, Descent.peek_run]
  cases hk : c.head.kind with
  | minus => exact absurd hk hm
  | bang => exact absurd hk hb
  | number => exact quiet_numberLiteral hk
  | _ =>
    dsimp only
    simp only [Grammar.grouped, Grammar.hash, Grammar.conditional, Grammar.function, quiet_bind,
      quiet_head, quiet_ite, quiet_take, quiet_expect, quiet_pure, quiet_refuseOperand,
      quiet_params, Descent.next_run]

end Parser

def Settles (f : Nat → Descent α) (c : Cursor) (r : α × Cursor) : Prop :=
  ∃ N, ∀ n, N ≤ n → f n c = some r

theorem Settles.succ {f : Nat → Descent α} {r : α × Cursor}
    (h : Settles (fun n => f (n + 1)) c r) : Settles f c r := by
  obtain ⟨N, h⟩ := h
  refine ⟨N + 1, fun n hn => ?_⟩
  obtain ⟨n, rfl⟩ : ∃ i, n = i + 1 := ⟨n - 1, by omega⟩
  exact h n (by omega)

theorem Settles.congr {f g : Nat → Descent α} {r : α × Cursor} (h : Settles f c r)
    (hg : ∀ n, g n c = f n c) : Settles g c r := by
  obtain ⟨N, h⟩ := h
  exact ⟨N, fun n hn => (hg n).trans (h n hn)⟩

theorem Settles.of_bind {f : Nat → Descent α} {g : α → Nat → Descent β} {k : Nat → Descent β}
    {a : α} {r : β × Cursor} {c₁ c₂ : Cursor}
    (hk : ∀ n, k n c = (f n >>= fun a => g a n) c₁) (h : Settles f c₁ (a, c₂))
    (hg : Settles (g a) c₂ r) : Settles k c r := by
  obtain ⟨N, h⟩ := h
  obtain ⟨N', hg⟩ := hg
  refine ⟨max N N', fun n hn => ?_⟩
  rw [hk]
  exact Descent.bind_eq_some.mpr ⟨a, c₂, h n (by omega), hg n (by omega)⟩

theorem Settles.bind {f : Nat → Descent α} {g : α → Nat → Descent β} {a : α} {r : β × Cursor}
    (h : Settles f c (a, c')) (hg : Settles (g a) c' r) :
    Settles (fun n => f n >>= fun a => g a n) c r :=
  .of_bind (fun _ => rfl) h hg

/-- Where `p` succeeds from `c` on and does not stop before a token at which reading halts, `f`
comes to the same result. -/
structure Continues (halt : Token.Kind → Bool) (c : Cursor) (p : Descent α) (f : Nat → Descent α) :
    Prop where
  settles : ∀ {a c'}, p c = some (a, c') → halt c'.head.kind = false → Settles f c (a, c')

/-- Moreover, where reading halts `p` does not go on. -/
structure Leads (halt : Token.Kind → Bool) (c : Cursor) (p : Descent α) (f : Nat → Descent α) :
    Prop extends Continues halt c p f where
  stays : ∀ {a c'}, p c = some (a, c') → halt c.head.kind = true → c' = c

section Rules

variable {halt : Token.Kind → Bool} {p : Descent α} {f : Nat → Descent α}
  {q : α → Descent β} {g : α → Nat → Descent β}

theorem Continues.succ (h : Continues halt c p fun n => f (n + 1)) : Continues halt c p f :=
  ⟨fun hp hk => (h.settles hp hk).succ⟩

theorem Leads.succ (h : Leads halt c p fun n => f (n + 1)) : Leads halt c p f :=
  ⟨h.toContinues.succ, h.stays⟩

theorem Leads.fail : Leads halt c (failure : Descent α) f :=
  ⟨⟨nofun⟩, nofun⟩

theorem Leads.of_continues (hk : halt c.head.kind = false) (h : Continues halt c p f) :
    Leads halt c p f :=
  ⟨h, fun _ hk' => absurd (hk.symm.trans hk') nofun⟩

theorem Leads.pure {a : α} : Leads halt c (pure a) fun _ => pure a where
  settles := by
    rintro _ _ ⟨⟩ _
    exact ⟨0, fun _ _ => rfl⟩
  stays := by
    rintro _ _ ⟨⟩ _
    rfl

theorem Continues.bind (h : Continues halt c p f)
    (hq : ∀ a c₁, Leads halt c₁ (q a) (g a)) :
    Continues halt c (p >>= q) fun n => f n >>= fun a => g a n := by
  refine ⟨fun {b c'} hb hk => ?_⟩
  obtain ⟨a, c₁, hp, hb⟩ := Descent.bind_eq_some.mp hb
  cases hk₁ : halt c₁.head.kind with
  | false => exact (h.settles hp hk₁).bind ((hq a c₁).settles hb hk)
  | true =>
    rw [(hq a c₁).stays hb hk₁, hk₁] at hk
    cases hk

theorem Leads.bind (h : Leads halt c p f) (hq : ∀ a c₁, Leads halt c₁ (q a) (g a)) :
    Leads halt c (p >>= q) fun n => f n >>= fun a => g a n := by
  refine ⟨h.toContinues.bind hq, fun {b c'} hb hk => ?_⟩
  obtain ⟨a, c₁, hp, hq'⟩ := Descent.bind_eq_some.mp hb
  have hc := h.stays hp hk
  subst hc
  exact (hq a c₁).stays hq' hk

variable {q : Token → Descent β} {g : Token → Nat → Descent β}

theorem Leads.peek (h : Leads halt c (q c.head) (g c.head)) :
    Leads halt c (Grammar.peek >>= q) fun n => Grammar.peek >>= fun t => g t n :=
  ⟨⟨h.settles⟩, h.stays⟩

theorem Continues.next (h : Continues halt c.advance (q c.head) (g c.head)) :
    Continues halt c (Grammar.next >>= q) fun n => Grammar.next >>= fun t => g t n :=
  ⟨h.settles⟩

theorem Leads.next (hk : halt c.head.kind = false)
    (h : Continues halt c.advance (q c.head) (g c.head)) :
    Leads halt c (Grammar.next >>= q) fun n => Grammar.next >>= fun t => g t n :=
  .of_continues hk h.next

theorem Continues.token {kind : Token.Kind} (h : ∀ t, Continues halt c.advance (q t) (g t)) :
    Continues halt c (Grammar.token kind >>= q) fun n => Grammar.token kind >>= fun t => g t n := by
  refine ⟨fun hb hk => ?_⟩
  obtain ⟨t, c₁, ht, hb⟩ := Descent.bind_eq_some.mp hb
  obtain ⟨hkind, rfl, rfl⟩ := Descent.token_eq_some.mp ht
  exact Settles.bind ⟨0, fun _ _ => ht⟩ ((h c.head).settles hb hk)

theorem Leads.token {kind : Token.Kind} (hkind : halt kind = false)
    (h : ∀ t, Continues halt c.advance (q t) (g t)) :
    Leads halt c (Grammar.token kind >>= q) fun n => Grammar.token kind >>= fun t => g t n := by
  refine ⟨.token h, fun hb hk => ?_⟩
  obtain ⟨t, c₁, ht, hb⟩ := Descent.bind_eq_some.mp hb
  rw [(Descent.token_eq_some.mp ht).1, hkind] at hk
  cases hk

theorem Continues.name {q : Ident → Descent β} {g : Ident → Nat → Descent β}
    (h : ∀ id, Continues halt c.advance (q id) (g id)) :
    Continues halt c (Grammar.name >>= q) fun n => Grammar.name >>= fun id => g id n := by
  simp only [Grammar.name, bind_assoc, pure_bind]
  exact .token fun t => h _

theorem Leads.name (hident : halt .ident = false) :
    Leads halt c Grammar.name fun _ => Grammar.name :=
  .token hident fun _ => Leads.pure.toContinues

theorem Leads.number (hnumber : halt .number = false) :
    Leads halt c Grammar.number fun _ => Grammar.number := by
  refine .token hnumber fun t => ?_
  split
  · exact Leads.pure.toContinues
  · exact Leads.fail.toContinues

theorem Leads.semicolon (hsemicolon : halt .semicolon = false) :
    Leads halt c Grammar.semicolon fun _ => Grammar.semicolon := by
  refine .peek ?_
  split
  · next h => exact .next (h ▸ hsemicolon) Leads.pure.toContinues
  · exact .pure

end Rules

section Productions

variable {halt : Token.Kind → Bool}
  (hh : ∀ {kind : Token.Kind}, kind.isStray = false → halt kind = false)
  {expression : Descent Expr} {expression' : Nat → Descent Expr}
  {block : Descent Block} {block' : Nat → Descent Block}
  {pairs : Descent (List (Expr × Expr))} {pairs' : Nat → Descent (List (Expr × Expr))}
  {elements : Token.Kind → Descent (List Expr)} {elements' : Nat → Token.Kind → Descent (List Expr)}

include hh

theorem Leads.listed {item : Descent α} {item' : Nat → Descent α} {more : Descent (List α)}
    {more' : Nat → Descent (List α)} {close : Token.Kind} (hclose : close.isStray = false)
    (hitem : ∀ c, Leads halt c item item') (hmore : ∀ c, Leads halt c more more') :
    Leads halt c (Grammar.listed close item more) fun n =>
      Grammar.listed close (item' n) (more' n) := by
  refine .peek ?_
  split
  · next h => exact .next (hh (h ▸ hclose)) Leads.pure.toContinues
  · exact .bind (hitem c) fun _ c => .bind (hmore c) fun _ _ =>
      .token (hh hclose) fun _ => Leads.pure.toContinues

theorem Leads.afterComma {item : Descent α} {item' : Nat → Descent α} {more : Descent (List α)}
    {more' : Nat → Descent (List α)} (hitem : ∀ c, Leads halt c item item')
    (hmore : ∀ c, Leads halt c more more') :
    Leads halt c (Grammar.afterComma item more) fun n =>
      Grammar.afterComma (item' n) (more' n) := by
  refine .peek ?_
  split
  · next h =>
    refine .next (hh (h ▸ rfl)) ?_
    exact (hitem _).toContinues.bind fun _ c => .bind (hmore c) fun _ _ => .pure
  · exact .pure

theorem Leads.paired (hexpr : ∀ c, Leads halt c expression expression')
    (hpairs : ∀ c, Leads halt c pairs pairs') :
    Leads halt c (Grammar.paired expression pairs) fun n =>
      Grammar.paired (expression' n) (pairs' n) := by
  refine .bind (hexpr c) fun _ c => .token (hh rfl) fun _ => ?_
  refine (hexpr _).toContinues.bind fun _ c => .peek ?_
  split
  · next h => exact .next (hh (h ▸ rfl)) ((hpairs _).toContinues.bind fun _ _ => .pure)
  · exact .pure

theorem Continues.grouped (hexpr : ∀ c, Leads halt c expression expression') :
    Continues halt c (Grammar.grouped expression) fun n => Grammar.grouped (expression' n) :=
  .next ((hexpr _).toContinues.bind fun _ _ => .token (hh rfl) fun _ => Leads.pure.toContinues)

theorem Continues.hash (hpairs : ∀ c, Leads halt c pairs pairs') :
    Continues halt c (Grammar.hash pairs) fun n => Grammar.hash (pairs' n) := by
  refine .next (Leads.peek ?_).toContinues
  split
  · next h => exact .next (hh (h ▸ rfl)) Leads.pure.toContinues
  · exact .bind (hpairs _) fun _ _ => .token (hh rfl) fun _ => Leads.pure.toContinues

theorem Continues.conditional (hexpr : ∀ c, Leads halt c expression expression')
    (hblock : ∀ c, Leads halt c block block') :
    Continues halt c (Grammar.conditional expression block) fun n =>
      Grammar.conditional (expression' n) (block' n) := by
  refine .next (.token fun _ => (hexpr _).toContinues.bind fun _ c => ?_)
  refine .token (hh rfl) fun _ => (hblock _).toContinues.bind fun _ c => .peek ?_
  split
  · next h => exact .next (hh (h ▸ rfl)) ((hblock _).toContinues.bind fun _ _ => .pure)
  · exact .pure

omit hh in
theorem Continues.function {parameters : Descent (List Ident)}
    {parameters' : Nat → Descent (List Ident)} (hparams : ∀ c, Leads halt c parameters parameters')
    (hblock : ∀ c, Leads halt c block block') :
    Continues halt c (Grammar.function block parameters) fun n =>
      Grammar.function (block' n) (parameters' n) :=
  .next (.token fun _ => (hparams _).toContinues.bind fun _ c => .bind (hblock c) fun _ _ => .pure)

theorem Leads.atom {parameters : Descent (List Ident)} {parameters' : Nat → Descent (List Ident)}
    (hexpr : ∀ c, Leads halt c expression expression') (hblock : ∀ c, Leads halt c block block')
    (helems : ∀ {close : Token.Kind}, close.isStray = false → ∀ c,
      Leads halt c (elements close) fun n => elements' n close)
    (hpairs : ∀ c, Leads halt c pairs pairs')
    (hparams : ∀ c, Leads halt c parameters parameters') :
    Leads halt c (Grammar.atom expression block elements pairs parameters) fun n =>
      Grammar.atom (expression' n) (block' n) (elements' n) (pairs' n) (parameters' n) := by
  refine .peek ?_
  have leaf (e : Expr) : Continues halt c.advance (Pure.pure e) fun _ => Pure.pure e :=
    Leads.pure.toContinues
  have opens {p : Descent Expr} {f : Nat → Descent Expr} {kind : Token.Kind}
      (hk : c.head.kind = kind) (hkind : kind.isStray = false) (h : Continues halt c p f) :
      Leads halt c p f := .of_continues (hh (hk ▸ hkind)) h
  split
  · exact .number (hh rfl)
  · next hk => exact opens hk rfl (.next (leaf _))
  · next hk => exact opens hk rfl (.next (leaf _))
  · next hk => exact opens hk rfl (.next (leaf _))
  · next hk => exact opens hk rfl (.next (leaf _))
  · next hk => exact opens hk rfl (.next (leaf _))
  · next hk => exact opens hk rfl (.grouped hh hexpr)
  · next hk => exact opens hk rfl (.next ((helems rfl _).toContinues.bind fun _ _ => .pure))
  · next hk => exact opens hk rfl (.hash hh hpairs)
  · next hk => exact opens hk rfl (.conditional hh hexpr hblock)
  · next hk => exact opens hk rfl (.function hparams hblock)
  · exact .fail

theorem Continues.suffix {callee : Expr} (hexpr : ∀ c, Leads halt c expression expression')
    (helems : ∀ {close : Token.Kind}, close.isStray = false → ∀ c,
      Leads halt c (elements close) fun n => elements' n close) :
    Continues halt c (Grammar.suffix expression elements callee) fun n =>
      Grammar.suffix (expression' n) (elements' n) callee := by
  refine .next ?_
  split
  · exact (helems rfl _).toContinues.bind fun _ _ => .pure
  · exact (hexpr _).toContinues.bind fun _ _ => .token (hh rfl) fun _ => Leads.pure.toContinues
  · exact .name fun _ => .token fun _ => (helems rfl _).toContinues.bind fun _ _ => .pure
  · exact Leads.fail.toContinues

theorem Leads.untilBrace {statement : Descent Stmt} {statement' : Nat → Descent Stmt}
    {more : Descent (List Stmt)} {more' : Nat → Descent (List Stmt)}
    (hstmt : ∀ c, Leads halt c statement statement') (hmore : ∀ c, Leads halt c more more') :
    Leads halt c (Grammar.untilBrace statement more) fun n =>
      Grammar.untilBrace (statement' n) (more' n) := by
  refine .peek ?_
  split
  · next hk => exact .next (hh (hk ▸ rfl)) Leads.pure.toContinues
  · exact .fail
  · exact .bind (hstmt c) fun _ c => .bind (hmore c) fun _ _ => .pure

theorem Leads.sentence (hexpr : ∀ c, Leads halt c expression expression') :
    Leads halt c (Grammar.sentence expression) fun n => Grammar.sentence (expression' n) := by
  refine .peek ?_
  split
  · next hk =>
    refine .next (hh (hk ▸ rfl)) (.name fun _ => .token fun _ => ?_)
    exact (hexpr _).toContinues.bind fun _ _ => .bind (.semicolon (hh rfl)) fun _ _ => .pure
  · next hk =>
    refine .next (hh (hk ▸ rfl)) ((hexpr _).toContinues.bind fun _ _ => ?_)
    exact .bind (.semicolon (hh rfl)) fun _ _ => .pure
  · exact .bind (hexpr _) fun _ _ => .bind (.semicolon (hh rfl)) fun _ _ => .pure

theorem leads_moreNames (n : Nat) (c : Cursor) :
    Leads halt c (Grammar.moreNames n) Grammar.moreNames := by
  induction n generalizing c with
  | zero => exact .fail
  | succ n ih => exact .succ (.afterComma hh (fun _ => .name (hh rfl)) ih)

theorem leads_parameters (n : Nat) (c : Cursor) :
    Leads halt c (Grammar.parameters n) Grammar.parameters :=
  .listed hh rfl (fun _ => .name (hh rfl)) (leads_moreNames hh n)

end Productions

end CornScript
