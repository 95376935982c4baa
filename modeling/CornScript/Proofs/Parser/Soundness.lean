import CornScript.Proofs.Parser.Climbing

/-! # What the parser reads belongs to the grammar

Wherever a part of the parser succeeds, the rule of the grammar for that part succeeds with the same
tree, given enough depth. The induction is on the steps that the parser is allowed.
-/

namespace CornScript

open CornScript.Grammar CornScript.Parser

def never : Token.Kind → Bool := fun _ => false

theorem never_eq_false {kind : Token.Kind} (_ : kind.isStray = false) : never kind = false := rfl

theorem Leads.settles_never {α : Type} {c : Cursor} {p : Descent α} {f : Nat → Descent α}
    {r : α × Cursor} (h : Leads never c p f) (hp : p c = some r) : Settles f c r :=
  h.settles hp rfl

theorem leads_never {α : Type} {c : Cursor} {p : Descent α} {f : Nat → Descent α}
    (h : ∀ {r}, p c = some r → Settles f c r) : Leads never c p f :=
  ⟨⟨fun hp _ => h hp⟩, nofun⟩

namespace Parser

variable {c c' c₀ : Cursor} {n : Nat} {level own : Level} {left first e : Expr}

structure Sound (n : Nat) : Prop where
  expr : ∀ level c, Leads never c (expr n level).quiet fun m => layered m (layers.drop level.rank)
  operand : ∀ {c}, sign? c.head.kind = none → Leads never c (operand n).quiet primary
  exprList : ∀ {close}, close.isStray = false → ∀ c,
    Leads never c (exprList n close).quiet fun m => elements m close
  moreExprs : ∀ c, Leads never c (moreExprs n).quiet moreElements
  hashPairs : ∀ c, Leads never c (hashPairs n).quiet pairs
  block : ∀ c, Leads never c (block n).quiet Grammar.block
  blockBody : ∀ c, Leads never c (blockBody n).quiet body
  stmt : ∀ c, Leads never c (stmt n).quiet statement

theorem Sound.expression (h : Sound n) (c : Cursor) :
    Leads never c (Parser.expr n .lowest).quiet Grammar.expression :=
  .succ (h.expr .lowest c)

theorem settles_suffixes (ih : ∀ k < n, Sound k) (h6 : 6 ≤ level.rank)
    (h : (operators n level left).quiet c = some (e, c')) :
    Settles (fun m => suffixes m left) c (e, c') := by
  induction n generalizing left c with
  | zero => exact (operators_zero h).elim
  | succ n hn =>
    refine .succ ?_
    cases proceeds_of_operators h with
    | @suffix e₁ c₁ hs hsuffix h =>
      have hsound := ih n (Nat.lt_succ_self n)
      have hfirst : Settles (fun m => suffix (Grammar.expression m) (elements m) left) c (e₁, c₁) :=
        (Continues.suffix never_eq_false hsound.expression hsound.exprList).settles hsuffix rfl
      have hrest := hn (fun k hk => ih k (Nat.lt_succ_of_lt hk)) h
      exact .of_bind (fun m => suffixes_of_suffix hs) hfirst hrest
    | binary hb hl => exact absurd (Level.rank_le_of_binary hb) (by omega)
    | rest hr he hc =>
      subst he hc
      exact ⟨0, fun m _ => suffixes_of_not_suffix hr.suffix⟩

theorem settles_operations (ih : ∀ k < n, Sound k) (hl : own.rank = level.rank + 1)
    (hr : own.Rests c.head.kind) (h : (operators n level left).quiet c = some (e, c')) :
    Settles (fun m => operations m own.layer (layers.drop own.rank) left) c (e, c') := by
  induction n generalizing left c with
  | zero => exact (operators_zero h).elim
  | succ n hn =>
    refine .succ ?_
    cases proceeds_of_operators h with
    | suffix hs =>
      rw [hr.suffix] at hs
      cases hs
    | @binary op strong right c₁ hb hstrong hright h =>
      have hown : own = strong := Level.rank_injective (by have := hr.binary hb; omega)
      subst hown
      have hlayered := ((ih n (Nat.lt_succ_self n)).expr own c.advance).settles_never hright
      have hmore := hn (fun k hk => ih k (Nat.lt_succ_of_lt hk)) (rests_of_expr hright) h
      exact .of_bind (fun m => operations_of_some (Level.lookup_layer_of_binary hb)) hlayered hmore
    | rest hrest he hc =>
      subst he hc
      exact ⟨0, fun m _ => operations_of_none (Level.lookup_layer_of_rests hrest (by omega))⟩

theorem settles_unary_of_layered {r : Expr × Cursor} (h6 : 6 ≤ level.rank)
    (h : Settles (fun m => layered m (layers.drop level.rank)) c r) : Settles unary c r := by
  obtain ⟨N, h⟩ := h
  refine ⟨N, fun m hm => ?_⟩
  have hm := h (m + 1) (by omega)
  rwa [Level.drop_rank_of_le h6] at hm

theorem settles_unary_sign {sign : UnaryOp} (ih : ∀ k ≤ n, Sound k)
    (hsign : sign? c.head.kind = some sign)
    (hfirst : (operand n).quiet c = some (first, c₀)) :
    Settles unary c (first, c₀) ∧ c₀.head.kind.isSuffix = false := by
  cases n with
  | zero =>
    rw [operand, quiet_refuse] at hfirst
    cases hfirst
  | succ n =>
    rw [quiet_operand_sign hsign, Descent.bind_eq_some] at hfirst
    obtain ⟨e, c₁, he, hpure⟩ := hfirst
    cases hpure
    have hlayered := ((ih n (Nat.le_succ n)).expr .unary c.advance).settles_never he
    have hsub : Settles unary c.advance (e, c₀) := settles_unary_of_layered (by decide) hlayered
    exact ⟨.succ (.of_bind (fun m => unary_of_sign hsign) hsub ⟨0, fun _ _ => rfl⟩),
      (rests_of_expr he).suffix⟩

theorem settles_unary {k : Nat} (ih : ∀ k ≤ n, Sound k) (h6 : 6 ≤ level.rank) (hk : k ≤ n)
    (hfirst : (operand n).quiet c = some (first, c₀))
    (h : (operators k level first).quiet c₀ = some (e, c')) : Settles unary c (e, c') := by
  have hsuffixes := settles_suffixes (fun j hj => ih j (by omega)) h6 h
  cases hsign : sign? c.head.kind with
  | none =>
    have hprimary := ((ih n (Nat.le_refl n)).operand hsign).settles_never hfirst
    have hcall : Settles call c (e, c') := .succ (.bind hprimary hsuffixes)
    exact .succ (hcall.congr fun m => unary_of_not_sign hsign)
  | some sign =>
    obtain ⟨hunary, hrest⟩ := settles_unary_sign ih hsign hfirst
    obtain ⟨N, hN⟩ := hsuffixes
    have hstop : suffixes (N + 1) first c₀ = some (e, c') := hN (N + 1) (Nat.le_succ N)
    rw [suffixes_of_not_suffix hrest] at hstop
    rwa [← Option.some.inj hstop]

/-- An operand and its operators at a level are read by the rules from the layer above that level
on. -/
theorem settles_layered {k : Nat} (ih : ∀ k ≤ n, Sound k) (hk : k ≤ n)
    (hfirst : (operand n).quiet c = some (first, c₀))
    (h : (operators k level first).quiet c₀ = some (e, c')) :
    Settles (fun m => layered m (layers.drop level.rank)) c (e, c') := by
  -- The induction goes down from the strongest level, whose rest are unary expressions.
  induction hd : 7 - level.rank generalizing level k e c' with
  | zero =>
    have h7 : level.rank ≤ 7 := by cases level <;> decide
    rw [Level.drop_rank_of_le (by omega)]
    exact .succ (settles_unary ih (by omega) hk hfirst h)
  | succ d hlayered =>
    by_cases h6 : 6 ≤ level.rank
    · rw [Level.drop_rank_of_le h6]
      exact .succ (settles_unary ih h6 hk hfirst h)
    · obtain ⟨own, hown⟩ := Level.exists_above (Nat.lt_of_not_le h6)
      obtain ⟨j, hj, l, c₁, hstrong, hweak⟩ := operators_split own (by omega) h
      rw [Level.drop_rank hown (by omega)]
      refine .succ (.bind (hlayered hk hstrong (by omega)) ?_)
      exact settles_operations (fun i hi => ih i (by omega)) hown (rests_of_operators hstrong) hweak

namespace Sound

theorem expr_succ (ih : ∀ k ≤ n, Sound k) (level : Level) (c : Cursor) :
    Leads never c (Parser.expr (n + 1) level).quiet fun m =>
      layered m (layers.drop level.rank) := by
  refine leads_never fun {r} h => ?_
  obtain ⟨first, c₀, hfirst, h, -⟩ := quiet_expr_eq_some.mp h
  exact settles_layered ih (Nat.le_refl n) hfirst h

theorem operand_succ (h : Sound n) (hsign : sign? c.head.kind = none) :
    Leads never c (Parser.operand (n + 1)).quiet primary := by
  have hatom := Leads.atom never_eq_false (c := c) h.expression h.block h.exprList h.hashPairs
    (leads_parameters never_eq_false n)
  refine leads_never fun hp => ?_
  rw [quiet_operand_not_sign hsign] at hp
  exact .succ (hatom.settles_never hp)

theorem succ (ih : ∀ k ≤ n, Sound k) : Sound (n + 1) := by
  have h := ih n (Nat.le_refl n)
  refine ⟨expr_succ ih, h.operand_succ, fun hclose c => ?_, fun c => ?_, fun c => ?_, fun c => ?_,
    fun c => ?_, fun c => ?_⟩
  · rw [quiet_exprList]
    exact .succ (.listed never_eq_false hclose h.expression h.moreExprs)
  · rw [quiet_moreExprs]
    exact .succ (.afterComma never_eq_false h.expression h.moreExprs)
  · rw [quiet_hashPairs]
    exact .succ (.paired never_eq_false h.expression h.hashPairs)
  · rw [quiet_block]
    exact .succ (.token rfl fun _ => (h.blockBody _).toContinues.bind fun _ _ => .pure)
  · rw [quiet_blockBody]
    exact .succ (.untilBrace never_eq_false h.stmt h.blockBody)
  · rw [quiet_stmt]
    exact .succ (.sentence never_eq_false h.expression)

end Sound

theorem sound (n : Nat) : Sound n := by
  induction n using Nat.strongRecOn with
  | ind n ih =>
    cases n with
    | zero =>
      constructor <;> intros <;>
        simp only [Parser.expr, Parser.operand, Parser.exprList, Parser.moreExprs, Parser.hashPairs,
          Parser.block, Parser.blockBody, Parser.stmt, quiet_refuse] <;>
        exact .fail
    | succ n => exact .succ fun k hk => ih k (Nat.lt_succ_of_le hk)

theorem settles_program {statements : List Stmt} (h : (stmts n).quiet c = some (statements, c')) :
    Settles program c (statements, c') := by
  induction n generalizing c statements with
  | zero =>
    rw [stmts, quiet_refuse] at h
    cases h
  | succ n ih =>
    refine .succ ?_
    rw [quiet_stmts, Descent.peek_run] at h
    split at h
    · next hk =>
      cases h
      exact ⟨0, fun m _ => program_of_end hk⟩
    · next hk =>
      obtain ⟨s, c₁, hs, h⟩ := Descent.bind_eq_some.mp h
      obtain ⟨ss, c₂, hss, h⟩ := Descent.bind_eq_some.mp h
      cases h
      have hstmt := ((sound n).stmt c).settles_never hs
      exact .of_bind (fun m => program_of_not_end hk) hstmt (.bind (ih hss) ⟨0, fun _ _ => rfl⟩)

end Parser

end CornScript
