import CornScript.Proofs.Parser.Correspondence

/-! # Operators and layers

The parser compares the levels of operators, whereas the grammar has a rule for every layer of them.
Each layer holds the operators of one level. Operators at a weak level come to rest only where those
at a stronger level do, so they can be read level by level, which is how the layers are nested.
-/

namespace CornScript

def Token.Kind.isSuffix : Token.Kind → Bool
  | leftParen | leftBracket | dot => true
  | _ => false

/-- A token of such a kind does not continue an operand at a level. -/
structure Level.Rests (level : Level) (kind : Token.Kind) : Prop where
  suffix : kind.isSuffix = false
  binary : ∀ {op own}, kind.binary? = some (op, own) → own.rank ≤ level.rank

variable {c c' : Cursor} {n : Nat} {level own : Level} {left e : Expr} {op : BinaryOp}

theorem Level.rests_or (level : Level) (kind : Token.Kind) :
    kind.isSuffix = true ∨ (∃ op own, kind.binary? = some (op, own) ∧ level.rank < own.rank) ∨
      level.Rests kind := by
  cases hs : kind.isSuffix with
  | true => exact .inl rfl
  | false =>
    cases hb : kind.binary? with
    | none => exact .inr (.inr ⟨hs, fun h => by rw [hb] at h; cases h⟩)
    | some r =>
      obtain ⟨op, own⟩ := r
      by_cases hl : level.rank < own.rank
      · exact .inr (.inl ⟨op, own, rfl, hl⟩)
      · refine .inr (.inr ⟨hs, fun h => ?_⟩)
        rw [hb] at h
        cases h
        exact Nat.le_of_not_lt hl

theorem Level.Rests.weaken (h : level.Rests c.head.kind) (hl : level.rank ≤ own.rank) :
    own.Rests c.head.kind :=
  ⟨h.suffix, fun hb => Nat.le_trans (h.binary hb) hl⟩

theorem Level.rank_injective : Function.Injective Level.rank := by
  intro a b h
  cases a <;> cases b <;> first | rfl | cases h

namespace Parser

theorem quiet_expr_rightBracket (h : c.head.kind = .rightBracket) :
    (expr n level).quiet c = none := by
  cases n with
  | zero => rw [expr, quiet_refuse]; rfl
  | succ n =>
    have ho : (operand n).quiet c = none := by
      cases n with
      | zero => rw [operand, quiet_refuse]; rfl
      | succ n =>
        rw [quiet_operand n (by simp [h]) (by simp [h]), Grammar.atom, Descent.peek_run]
        simp only [h]
        rfl
    rw [quiet_expr, Descent.bind_run, ho]
    rfl

theorem quiet_operators_suffix (h : c.head.kind.isSuffix = true) :
    (operators (n + 1) level left).quiet c =
      (Grammar.suffix (expr n .lowest).quiet (fun close => (exprList n close).quiet) left >>=
        fun e => (operators n level e).quiet) c := by
  rw [operators, quiet_bind, quiet_head, Descent.peek_run]
  cases hk : c.head.kind with
  | leftParen =>
    simp only [Grammar.suffix, quiet_bind, quiet_take, bind_assoc, Descent.next_run, hk, pure_bind]
  | leftBracket =>
    simp only [Grammar.suffix, quiet_bind, quiet_take, bind_assoc, Descent.next_run, hk, pure_bind,
      quiet_head, Descent.peek_run, quiet_ite, quiet_refuse, quiet_expect]
    split
    · next hb =>
      rw [Descent.bind_run, quiet_expr_rightBracket hb]
      rfl
    · rfl
  | dot =>
    simp only [Grammar.suffix, quiet_bind, quiet_take, bind_assoc, Descent.next_run, hk, pure_bind,
      quiet_expectIdent, quiet_expect]
  | _ => rw [hk] at h; cases h

theorem quiet_operators_binary (h : c.head.kind.binary? = some (op, own))
    (hl : level.rank < own.rank) :
    (operators (n + 1) level left).quiet c =
      ((expr n own).quiet >>= fun right =>
        (operators n level (.binary c.head left op right)).quiet) c.advance := by
  rw [operators, quiet_bind, quiet_head, Descent.peek_run]
  split
  · next hk => rw [hk] at h; cases h
  · next hk => rw [hk] at h; cases h
  · next hk => rw [hk] at h; cases h
  · simp only [h, if_pos hl, quiet_bind, quiet_take, Descent.next_run]

theorem quiet_operators_rests (h : level.Rests c.head.kind) :
    (operators (n + 1) level left).quiet c = some (left, c) := by
  rw [operators, quiet_bind, quiet_head, Descent.peek_run]
  have hs := h.suffix
  split
  · next hk => rw [hk] at hs; cases hs
  · next hk => rw [hk] at hs; cases hs
  · next hk => rw [hk] at hs; cases hs
  · split
    · rfl
    · next hb =>
      rw [if_neg (Nat.not_lt.mpr (h.binary hb))]
      rfl

theorem quiet_expr_eq_some :
    (expr (n + 1) level).quiet c = some (e, c') ↔
      ∃ first c₀, (operand n).quiet c = some (first, c₀) ∧
        (operators n level first).quiet c₀ = some (e, c') ∧ c'.head.kind.isStray = false := by
  rw [quiet_expr, Descent.bind_eq_some]
  refine exists_congr fun first => exists_congr fun c₀ => and_congr_right fun _ => ?_
  rw [Descent.bind_eq_some]
  constructor
  · rintro ⟨e₁, c₁, h, hs⟩
    rw [Descent.peek_run] at hs
    split at hs
    · cases hs
    · next hk =>
      cases hs
      exact ⟨h, Bool.eq_false_iff.mpr hk⟩
  · rintro ⟨h, hk⟩
    refine ⟨e, c', h, ?_⟩
    rw [Descent.peek_run, if_neg (Bool.eq_false_iff.mp hk)]
    rfl

theorem operators_zero {r : Expr × Cursor} (h : (operators 0 level left).quiet c = some r) :
    False := by
  rw [operators, quiet_refuse] at h
  cases h

/-- What operators do from `c` on to come to `e` at `c'`: read a call or a subscript and go on, read
an operator with its right operand and go on, or come to rest. -/
inductive Proceeds (n : Nat) (level : Level) (left : Expr) (c : Cursor) (e : Expr) (c' : Cursor) :
    Prop where
  | suffix {e₁ : Expr} {c₁ : Cursor} : c.head.kind.isSuffix = true →
    Grammar.suffix (expr n .lowest).quiet (fun close => (exprList n close).quiet) left c =
      some (e₁, c₁) →
    (operators n level e₁).quiet c₁ = some (e, c') → Proceeds n level left c e c'
  | binary {op : BinaryOp} {own : Level} {right : Expr} {c₁ : Cursor} :
    c.head.kind.binary? = some (op, own) → level.rank < own.rank →
    (expr n own).quiet c.advance = some (right, c₁) →
    (operators n level (.binary c.head left op right)).quiet c₁ = some (e, c') →
    Proceeds n level left c e c'
  | rest : level.Rests c.head.kind → left = e → c = c' → Proceeds n level left c e c'

theorem proceeds_of_operators (h : (operators (n + 1) level left).quiet c = some (e, c')) :
    Proceeds n level left c e c' := by
  rcases level.rests_or c.head.kind with hs | ⟨op, own, hb, hl⟩ | hr
  · rw [quiet_operators_suffix hs, Descent.bind_eq_some] at h
    obtain ⟨e₁, c₁, hsuffix, h⟩ := h
    exact .suffix hs hsuffix h
  · rw [quiet_operators_binary hb hl, Descent.bind_eq_some] at h
    obtain ⟨right, c₁, hright, h⟩ := h
    exact .binary hb hl hright h
  · rw [quiet_operators_rests hr] at h
    cases h
    exact .rest hr rfl rfl

theorem rests_of_operators (h : (operators n level left).quiet c = some (e, c')) :
    level.Rests c'.head.kind := by
  induction n generalizing left c with
  | zero => exact (operators_zero h).elim
  | succ n ih =>
    cases proceeds_of_operators h with
    | suffix _ _ h => exact ih h
    | binary _ _ _ h => exact ih h
    | rest hr _ hc => exact hc ▸ hr

theorem rests_of_expr (h : (expr n level).quiet c = some (e, c')) : level.Rests c'.head.kind := by
  cases n with
  | zero =>
    rw [expr, quiet_refuse] at h
    cases h
  | succ n =>
    obtain ⟨first, c₀, -, h, -⟩ := quiet_expr_eq_some.mp h
    exact rests_of_operators h

/-- Operators at a weak level are those at a stronger one, followed by more. -/
theorem operators_split (own : Level) (hl : level.rank ≤ own.rank)
    (h : (operators n level left).quiet c = some (e, c')) :
    ∃ k ≤ n, ∃ l c₁, (operators n own left).quiet c = some (l, c₁) ∧
      (operators k level l).quiet c₁ = some (e, c') := by
  induction n generalizing left c with
  | zero => exact (operators_zero h).elim
  | succ n ih =>
    cases proceeds_of_operators h with
    | suffix hs hsuffix h' =>
      obtain ⟨k, hk, l, c₂, hown, hrest⟩ := ih h'
      refine ⟨k, Nat.le_succ_of_le hk, l, c₂, ?_, hrest⟩
      rw [quiet_operators_suffix hs]
      exact Descent.bind_eq_some.mpr ⟨_, _, hsuffix, hown⟩
    | @binary op strong right c₁ hb _ hright h' =>
      by_cases hstrong : own.rank < strong.rank
      · obtain ⟨k, hk, l, c₂, hown, hrest⟩ := ih h'
        refine ⟨k, Nat.le_succ_of_le hk, l, c₂, ?_, hrest⟩
        rw [quiet_operators_binary hb hstrong]
        exact Descent.bind_eq_some.mpr ⟨right, c₁, hright, hown⟩
      · refine ⟨n + 1, Nat.le_refl _, left, c, quiet_operators_rests ⟨?_, fun hb' => ?_⟩, h⟩
        · cases hkind : c.head.kind <;> first | rfl | (rw [hkind] at hb; cases hb)
        · rw [hb] at hb'
          cases hb'
          exact Nat.le_of_not_lt hstrong
    | rest hr => exact ⟨n + 1, Nat.le_refl _, left, c, quiet_operators_rests (hr.weaken hl), h⟩

end Parser

def Level.layer : Level → Grammar.Layer
  | logicOr => Grammar.logicOr
  | logicAnd => Grammar.logicAnd
  | equality => Grammar.equality
  | comparison => Grammar.comparison
  | sum => Grammar.term
  | product => Grammar.factor
  | lowest | unary => []

namespace Level

theorem lookup_layer (own : Level) (kind : Token.Kind) :
    own.layer.lookup kind = kind.binary?.bind fun r => if r.2 = own then some r.1 else none := by
  cases own <;> cases kind <;> rfl

theorem lookup_layer_of_binary (h : c.head.kind.binary? = some (op, own)) :
    own.layer.lookup c.head.kind = some op := by
  rw [lookup_layer, h, Option.bind_some, if_pos rfl]

theorem binary_of_lookup_layer (h : own.layer.lookup c.head.kind = some op) :
    c.head.kind.binary? = some (op, own) := by
  rw [lookup_layer, Option.bind_eq_some_iff] at h
  obtain ⟨⟨op', own'⟩, hb, h⟩ := h
  split at h
  · next hown =>
    cases h
    rw [hb, ← hown]
  · cases h

theorem lookup_layer_of_rests (hr : level.Rests c.head.kind) (hl : level.rank < own.rank) :
    own.layer.lookup c.head.kind = none := by
  cases h : own.layer.lookup c.head.kind with
  | none => rfl
  | some op => exact absurd (hr.binary (binary_of_lookup_layer h)) (Nat.not_le.mpr hl)

theorem rank_le_of_binary {kind : Token.Kind} (h : kind.binary? = some (op, own)) :
    own.rank ≤ 6 := by
  cases kind <;> cases h <;> decide

theorem drop_rank (hl : own.rank = level.rank + 1) (h6 : own.rank ≤ 6) :
    Grammar.layers.drop level.rank = own.layer :: Grammar.layers.drop own.rank := by
  cases level <;> cases own <;> first | rfl | exact absurd h6 (by decide) | cases hl

theorem drop_rank_of_le (h6 : 6 ≤ level.rank) : Grammar.layers.drop level.rank = [] :=
  List.drop_eq_nil_of_le h6

theorem exists_above (h6 : level.rank < 6) : ∃ own : Level, own.rank = level.rank + 1 := by
  cases level with
  | lowest => exact ⟨logicOr, rfl⟩
  | logicOr => exact ⟨logicAnd, rfl⟩
  | logicAnd => exact ⟨equality, rfl⟩
  | equality => exact ⟨comparison, rfl⟩
  | comparison => exact ⟨sum, rfl⟩
  | sum => exact ⟨product, rfl⟩
  | product => exact absurd h6 (by decide)
  | unary => exact absurd h6 (by decide)

end Level

namespace Grammar

variable {layer : Layer} {stronger : List Layer}

theorem operations_of_some (h : layer.lookup c.head.kind = some op) :
    operations (n + 1) layer stronger left c =
      (layered n stronger >>= fun right =>
        operations n layer stronger (.binary c.head left op right)) c.advance := by
  rw [operations, Descent.peek_run, h]
  rfl

theorem operations_of_none (h : layer.lookup c.head.kind = none) :
    operations (n + 1) layer stronger left c = some (left, c) := by
  rw [operations, Descent.peek_run, h]
  rfl

theorem suffixes_of_suffix (h : c.head.kind.isSuffix = true) :
    suffixes (n + 1) left c = (suffix (expression n) (elements n) left >>= suffixes n) c := by
  rw [suffixes, Descent.peek_run]
  cases hk : c.head.kind <;> first | rfl | (rw [hk] at h; cases h)

theorem suffixes_of_not_suffix (h : c.head.kind.isSuffix = false) :
    suffixes (n + 1) left c = some (left, c) := by
  rw [suffixes, Descent.peek_run]
  cases hk : c.head.kind <;> first | rfl | (rw [hk] at h; cases h)

def sign? : Token.Kind → Option UnaryOp
  | .minus => some .neg
  | .bang => some .not
  | _ => none

variable {sign : UnaryOp}

theorem unary_of_sign (h : sign? c.head.kind = some sign) :
    unary (n + 1) c = (unary n >>= fun e => pure (.unary c.head sign e)) c.advance := by
  rw [unary, Descent.peek_run]
  cases hk : c.head.kind <;> rw [hk] at h <;> cases h <;> rfl

theorem unary_of_not_sign (h : sign? c.head.kind = none) : unary (n + 1) c = call n c := by
  rw [unary, Descent.peek_run]
  cases hk : c.head.kind <;> first | rfl | (rw [hk] at h; cases h)

theorem program_of_end (h : c.head.kind = .endOfInput) : program (n + 1) c = some ([], c) := by
  rw [program, Descent.peek_run, if_pos h]
  rfl

theorem program_of_not_end (h : c.head.kind ≠ .endOfInput) :
    program (n + 1) c = (statement n >>= fun s => program n >>= fun ss => pure (s :: ss)) c := by
  rw [program, Descent.peek_run, if_neg h]

end Grammar

namespace Parser

variable {sign : UnaryOp}

theorem quiet_operand_sign (h : Grammar.sign? c.head.kind = some sign) :
    (operand (n + 1)).quiet c =
      ((expr n .unary).quiet >>= fun e => pure (.unary c.head sign e)) c.advance := by
  rw [operand, quiet_bind, quiet_head, Descent.peek_run]
  cases hk : c.head.kind <;> rw [hk] at h <;> cases h <;>
    simp only [quiet_bind, quiet_take, quiet_pure, Descent.next_run]

theorem quiet_operand_not_sign (h : Grammar.sign? c.head.kind = none) :
    (operand (n + 1)).quiet c =
      Grammar.atom (expr n .lowest).quiet (block n).quiet (fun close => (exprList n close).quiet)
        (hashPairs n).quiet (Grammar.parameters n) c :=
  quiet_operand n (fun hk => by rw [hk] at h; cases h) fun hk => by rw [hk] at h; cases h

end Parser

end CornScript
