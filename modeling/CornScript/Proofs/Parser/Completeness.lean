import CornScript.Proofs.Parser.Soundness

/-! # The parser reads what belongs to the grammar

Wherever a rule of the grammar succeeds, the part of the parser for it succeeds with the same tree,
given enough steps, unless a stray operator follows. The parser looks for such an operator after
every expression, but no rule could go on there either. The induction is on the depth of the rules.

With the converse, and because the number of tokens sets a bound that is enough, the parser accepts
exactly the programs of the grammar.
-/

namespace CornScript

open CornScript.Grammar CornScript.Parser

variable {c c' c₀ c₁ : Cursor} {n : Nat} {level own : Level} {left first e : Expr}

namespace Grammar

theorem atom_of_sign {expression : Descent Expr} {block : Descent Block}
    {elements : Token.Kind → Descent (List Expr)} {pairs : Descent (List (Expr × Expr))}
    {parameters : Descent (List Ident)} {sign : UnaryOp} (h : sign? c.head.kind = some sign) :
    atom expression block elements pairs parameters c = none := by
  rw [atom, Descent.peek_run]
  cases hk : c.head.kind <;> first | rfl | (rw [hk] at h; cases h)

theorem not_stray_of_primary (h : primary n c = some (e, c')) : c.head.kind.isStray = false := by
  cases n with
  | zero => cases h
  | succ n =>
    rw [primary, atom, Descent.peek_run] at h
    cases hk : c.head.kind <;> first | rfl | (rw [hk] at h; cases h)

theorem not_stray_of_stays (hk : c'.head.kind.isStray = false)
    (h : c.head.kind.isStray = true → c' = c) : c.head.kind.isStray = false := by
  cases hc : c.head.kind.isStray with
  | false => rfl
  | true => rwa [h hc, hc] at hk

theorem lookup_layer_of_isStray (h : c.head.kind.isStray = true) :
    own.layer.lookup c.head.kind = none := by
  rw [Level.lookup_layer]
  cases hk : c.head.kind <;> first | rfl | (rw [hk] at h; cases h)

theorem operations_stays (hc : c.head.kind.isStray = true)
    (h : operations n own.layer (layers.drop own.rank) left c = some (e, c')) : c' = c := by
  cases n with
  | zero => cases h
  | succ n =>
    rw [operations_of_none (lookup_layer_of_isStray hc)] at h
    cases h
    rfl

theorem suffixes_stays (hc : c.head.kind.isStray = true)
    (h : suffixes n left c = some (e, c')) : c' = c := by
  cases n with
  | zero => cases h
  | succ n =>
    have hs : c.head.kind.isSuffix = false := by
      cases hk : c.head.kind <;> first | rfl | (rw [hk] at hc; cases hc)
    rw [suffixes_of_not_suffix hs] at h
    cases h
    rfl

/-- The rules for operators begin at no stray operator, and they end where nothing continues what
they have read. -/
structure Greedy (n : Nat) : Prop where
  layered : ∀ {level : Level} {c e c'}, layered n (layers.drop level.rank) c = some (e, c') →
    c.head.kind.isStray = false ∧ level.Rests c'.head.kind
  operations : ∀ {level own : Level} {left} {c : Cursor} {e c'}, own.rank = level.rank + 1 →
    own.Rests c.head.kind →
    operations n own.layer (layers.drop own.rank) left c = some (e, c') →
    level.Rests c'.head.kind
  unary : ∀ {c e c'}, unary n c = some (e, c') →
    c.head.kind.isStray = false ∧ c'.head.kind.isSuffix = false
  call : ∀ {c e c'}, call n c = some (e, c') →
    c.head.kind.isStray = false ∧ c'.head.kind.isSuffix = false
  suffixes : ∀ {left c e c'}, suffixes n left c = some (e, c') → c'.head.kind.isSuffix = false

namespace Greedy

theorem layered_succ (h : Greedy n)
    (he : Grammar.layered (n + 1) (layers.drop level.rank) c = some (e, c')) :
    c.head.kind.isStray = false ∧ level.Rests c'.head.kind := by
  by_cases h6 : 6 ≤ level.rank
  · rw [Level.drop_rank_of_le h6] at he
    obtain ⟨hstart, hend⟩ := h.unary he
    exact ⟨hstart, hend, fun hb => Nat.le_trans (Level.rank_le_of_binary hb) h6⟩
  · obtain ⟨own, hown⟩ := Level.exists_above (Nat.lt_of_not_le h6)
    rw [Level.drop_rank hown (by omega)] at he
    obtain ⟨left, c₁, hleft, he⟩ := Descent.bind_eq_some.mp he
    obtain ⟨hstart, hrest⟩ := h.layered hleft
    exact ⟨hstart, h.operations hown hrest he⟩

theorem operations_succ (h : Greedy n) (hown : own.rank = level.rank + 1)
    (hr : own.Rests c.head.kind)
    (he : Grammar.operations (n + 1) own.layer (layers.drop own.rank) left c = some (e, c')) :
    level.Rests c'.head.kind := by
  cases hop : own.layer.lookup c.head.kind with
  | none =>
    rw [operations_of_none hop] at he
    cases he
    refine ⟨hr.suffix, fun {op strong} hb => ?_⟩
    have hne : strong ≠ own := by
      rintro rfl
      rw [Level.lookup_layer_of_binary hb] at hop
      cases hop
    have hle := hr.binary hb
    have hlt := Nat.lt_of_le_of_ne hle fun h => hne (Level.rank_injective h)
    omega
  | some op =>
    rw [operations_of_some hop] at he
    obtain ⟨right, c₁, hright, he⟩ := Descent.bind_eq_some.mp he
    exact h.operations hown (h.layered hright).2 he

theorem unary_succ (h : Greedy n) (he : Grammar.unary (n + 1) c = some (e, c')) :
    c.head.kind.isStray = false ∧ c'.head.kind.isSuffix = false := by
  cases hsign : sign? c.head.kind with
  | none =>
    rw [unary_of_not_sign hsign] at he
    exact h.call he
  | some sign =>
    rw [unary_of_sign hsign] at he
    obtain ⟨e₁, c₁, he₁, hpure⟩ := Descent.bind_eq_some.mp he
    cases hpure
    refine ⟨?_, (h.unary he₁).2⟩
    cases hk : c.head.kind <;> first | rfl | (rw [hk] at hsign; cases hsign)

theorem call_succ (h : Greedy n) (he : Grammar.call (n + 1) c = some (e, c')) :
    c.head.kind.isStray = false ∧ c'.head.kind.isSuffix = false := by
  obtain ⟨callee, c₀, hcallee, he⟩ := Descent.bind_eq_some.mp he
  exact ⟨not_stray_of_primary hcallee, h.suffixes he⟩

theorem suffixes_succ (h : Greedy n) (he : Grammar.suffixes (n + 1) left c = some (e, c')) :
    c'.head.kind.isSuffix = false := by
  cases hs : c.head.kind.isSuffix with
  | false =>
    rw [suffixes_of_not_suffix hs] at he
    cases he
    exact hs
  | true =>
    rw [suffixes_of_suffix hs] at he
    obtain ⟨e₁, c₁, -, he⟩ := Descent.bind_eq_some.mp he
    exact h.suffixes he

end Greedy

theorem greedy (n : Nat) : Greedy n := by
  induction n with
  | zero => exact ⟨nofun, nofun, nofun, nofun, nofun⟩
  | succ n ih =>
    exact ⟨ih.layered_succ, ih.operations_succ, ih.unary_succ, ih.call_succ, ih.suffixes_succ⟩

end Grammar

namespace Parser

/-- Operators that are no stronger than `limit` do after `first` what they do after `e`. -/
def Resumes (limit : Level) (first : Expr) (c₀ : Cursor) (e : Expr) (c₁ : Cursor) : Prop :=
  ∀ {level r}, level.rank ≤ limit.rank →
    Settles (fun m => (operators m level e).quiet) c₁ r →
    Settles (fun m => (operators m level first).quiet) c₀ r

def Opens (limit : Level) (c : Cursor) (e : Expr) (c₁ : Cursor) : Prop :=
  ∃ first c₀, Settles (fun m => (operand m).quiet) c (first, c₀) ∧ Resumes limit first c₀ e c₁

theorem Opens.resume {limit : Level} (h : Opens limit c left c₁) (hl : level.rank ≤ limit.rank)
    (hr : Resumes level left c₁ e c') : Opens level c e c' := by
  obtain ⟨first, c₀, hfirst, hl'⟩ := h
  exact ⟨first, c₀, hfirst, fun hlevel hs => hl' (Nat.le_trans hlevel hl) (hr hlevel hs)⟩

theorem Opens.settles (h : Opens level c e c') (hr : level.Rests c'.head.kind)
    (hk : c'.head.kind.isStray = false) : Settles (fun m => (expr m level).quiet) c (e, c') := by
  obtain ⟨first, c₀, ⟨N, hfirst⟩, hresume⟩ := h
  have hrest : Settles (fun m => (operators m level e).quiet) c' (e, c') :=
    .succ ⟨0, fun m _ => quiet_operators_rests hr⟩
  obtain ⟨N', hops⟩ := hresume (Nat.le_refl _) hrest
  refine .succ ⟨max N N', fun m hm => quiet_expr_eq_some.mpr ?_⟩
  exact ⟨first, c₀, hfirst m (by omega), hops m (by omega), hk⟩

structure Complete (n : Nat) : Prop where
  layered : ∀ {level : Level} {c e c'}, layered n (layers.drop level.rank) c = some (e, c') →
    c'.head.kind.isStray = false → Opens level c e c'
  operations : ∀ {level own : Level} {left} {c : Cursor} {e c'}, own.rank = level.rank + 1 →
    operations n own.layer (layers.drop own.rank) left c = some (e, c') →
    c'.head.kind.isStray = false → Resumes level left c e c'
  unary : ∀ {c e c'}, unary n c = some (e, c') → c'.head.kind.isStray = false →
    Opens .unary c e c'
  call : ∀ {c e c'}, call n c = some (e, c') → c'.head.kind.isStray = false → Opens .unary c e c'
  suffixes : ∀ {left c e c'}, suffixes n left c = some (e, c') → c'.head.kind.isStray = false →
    Resumes .unary left c e c'
  expression : ∀ c, Leads Token.Kind.isStray c (expression n) fun m => (expr m .lowest).quiet
  primary : ∀ c, Leads Token.Kind.isStray c (primary n) fun m => (operand m).quiet
  elements : ∀ {close}, close.isStray = false → ∀ c,
    Leads Token.Kind.isStray c (elements n close) fun m => (exprList m close).quiet
  moreElements : ∀ c, Leads Token.Kind.isStray c (moreElements n) fun m => (moreExprs m).quiet
  pairs : ∀ c, Leads Token.Kind.isStray c (pairs n) fun m => (hashPairs m).quiet
  block : ∀ c, Leads Token.Kind.isStray c (Grammar.block n) fun m => (Parser.block m).quiet
  body : ∀ c, Leads Token.Kind.isStray c (body n) fun m => (blockBody m).quiet
  statement : ∀ c, Leads Token.Kind.isStray c (statement n) fun m => (stmt m).quiet

namespace Complete

theorem layered_succ (h : Complete n)
    (he : Grammar.layered (n + 1) (layers.drop level.rank) c = some (e, c'))
    (hk : c'.head.kind.isStray = false) : Opens level c e c' := by
  by_cases h6 : 6 ≤ level.rank
  · rw [Level.drop_rank_of_le h6] at he
    have h7 : level.rank ≤ Level.rank .unary := by cases level <;> decide
    exact (h.unary he hk).resume h7 fun _ hs => hs
  · obtain ⟨own, hown⟩ := Level.exists_above (Nat.lt_of_not_le h6)
    rw [Level.drop_rank hown (by omega)] at he
    obtain ⟨left, c₁, hleft, he⟩ := Descent.bind_eq_some.mp he
    have hk₁ := not_stray_of_stays hk fun hstray => operations_stays hstray he
    exact (h.layered hleft hk₁).resume (by omega) (h.operations hown he hk)

theorem operations_succ (h : Complete n) (hown : own.rank = level.rank + 1)
    (he : Grammar.operations (n + 1) own.layer (layers.drop own.rank) left c = some (e, c'))
    (hk : c'.head.kind.isStray = false) : Resumes level left c e c' := by
  cases hop : own.layer.lookup c.head.kind with
  | none =>
    rw [operations_of_none hop] at he
    cases he
    exact fun _ hs => hs
  | some op =>
    rw [operations_of_some hop] at he
    obtain ⟨right, c₁, hright, he⟩ := Descent.bind_eq_some.mp he
    have hk₁ := not_stray_of_stays hk fun hstray => operations_stays hstray he
    have hexpr := (h.layered hright hk₁).settles ((greedy n).layered hright).2 hk₁
    intro level' r hlevel hs
    exact .succ (.of_bind
      (fun m => quiet_operators_binary (Level.binary_of_lookup_layer hop) (by omega))
      hexpr (h.operations hown he hk hlevel hs))

theorem unary_succ (h : Complete n) (he : Grammar.unary (n + 1) c = some (e, c'))
    (hk : c'.head.kind.isStray = false) : Opens .unary c e c' := by
  cases hsign : sign? c.head.kind with
  | none =>
    rw [unary_of_not_sign hsign] at he
    exact h.call he hk
  | some sign =>
    rw [unary_of_sign hsign] at he
    obtain ⟨e₁, c₁, he₁, hpure⟩ := Descent.bind_eq_some.mp he
    cases hpure
    have hr : Level.Rests .unary c'.head.kind :=
      ⟨((greedy n).unary he₁).2, fun hb => Nat.le_succ_of_le (Level.rank_le_of_binary hb)⟩
    have hexpr := (h.unary he₁ hk).settles hr hk
    exact ⟨_, c', .succ (.of_bind (fun m => quiet_operand_sign hsign) hexpr ⟨0, fun _ _ => rfl⟩),
      fun _ hs => hs⟩

theorem call_succ (h : Complete n) (he : Grammar.call (n + 1) c = some (e, c'))
    (hk : c'.head.kind.isStray = false) : Opens .unary c e c' := by
  obtain ⟨callee, c₀, hcallee, he⟩ := Descent.bind_eq_some.mp he
  have hk₀ := not_stray_of_stays hk fun hstray => suffixes_stays hstray he
  exact ⟨callee, c₀, (h.primary c).settles hcallee hk₀, h.suffixes he hk⟩

theorem suffixes_succ (h : Complete n) (he : Grammar.suffixes (n + 1) left c = some (e, c'))
    (hk : c'.head.kind.isStray = false) : Resumes .unary left c e c' := by
  cases hs : c.head.kind.isSuffix with
  | false =>
    rw [suffixes_of_not_suffix hs] at he
    cases he
    exact fun _ hs => hs
  | true =>
    rw [suffixes_of_suffix hs] at he
    obtain ⟨e₁, c₁, he₁, he⟩ := Descent.bind_eq_some.mp he
    have hk₁ := not_stray_of_stays hk fun hstray => suffixes_stays hstray he
    have hsuffix := (Continues.suffix (fun h => h) h.expression h.elements).settles he₁ hk₁
    intro level r hlevel hs'
    exact .succ (.of_bind (fun m => quiet_operators_suffix hs) hsuffix
      (h.suffixes he hk hlevel hs'))

theorem expression_succ (h : Complete n) (c : Cursor) :
    Leads Token.Kind.isStray c (Grammar.expression (n + 1)) fun m => (expr m .lowest).quiet := by
  have hlayered {e c'} (he : Grammar.expression (n + 1) c = some (e, c')) :
      Grammar.layered n (layers.drop (Level.rank .lowest)) c = some (e, c') := he
  refine ⟨⟨fun he hk => ?_⟩, fun he hk => ?_⟩
  · exact (h.layered (hlayered he) hk).settles ((greedy n).layered (hlayered he)).2 hk
  · rw [((greedy n).layered (hlayered he)).1] at hk
    cases hk

theorem primary_succ (h : Complete n) (c : Cursor) :
    Leads Token.Kind.isStray c (Grammar.primary (n + 1)) fun m => (operand m).quiet := by
  have hatom := Leads.atom (fun h => h) (c := c) h.expression h.block h.elements h.pairs
    (leads_parameters (fun h => h) n)
  refine ⟨⟨fun he hk => ?_⟩, hatom.stays⟩
  cases hsign : sign? c.head.kind with
  | none => exact .succ ((hatom.settles he hk).congr fun m => quiet_operand_not_sign hsign)
  | some sign =>
    rw [Grammar.primary, atom_of_sign hsign] at he
    cases he

theorem succ (h : Complete n) : Complete (n + 1) := by
  refine ⟨h.layered_succ, h.operations_succ, h.unary_succ, h.call_succ, h.suffixes_succ,
    h.expression_succ, h.primary_succ, fun hclose c => .succ ?_, fun c => .succ ?_,
    fun c => .succ ?_, fun c => .succ ?_, fun c => .succ ?_, fun c => .succ ?_⟩
  · simp only [quiet_exprList]
    exact .listed (fun h => h) hclose h.expression h.moreElements
  · simp only [quiet_moreExprs]
    exact .afterComma (fun h => h) h.expression h.moreElements
  · simp only [quiet_hashPairs]
    exact .paired (fun h => h) h.expression h.pairs
  · simp only [quiet_block]
    exact .token rfl fun _ => (h.body _).toContinues.bind fun _ _ => .pure
  · simp only [quiet_blockBody]
    exact .untilBrace (fun h => h) h.statement h.body
  · simp only [quiet_stmt]
    exact .sentence (fun h => h) h.expression

end Complete

theorem complete (n : Nat) : Complete n := by
  induction n with
  | zero =>
    exact ⟨nofun, nofun, nofun, nofun, nofun, fun _ => .fail, fun _ => .fail, fun _ _ => .fail,
      fun _ => .fail, fun _ => .fail, fun _ => .fail, fun _ => .fail, fun _ => .fail⟩
  | succ n ih => exact ih.succ

theorem leads_stmts (n : Nat) (c : Cursor) :
    Leads Token.Kind.isStray c (program n) fun m => (stmts m).quiet := by
  induction n generalizing c with
  | zero => exact .fail
  | succ n ih =>
    refine .succ ?_
    simp only [quiet_stmts]
    refine .peek ?_
    split
    · exact .pure
    · exact .bind ((complete n).statement c) fun _ c => .bind (ih c) fun _ _ => .pure

end Parser

theorem Grammar.end_of_program {statements : List Stmt} (h : program n c = some (statements, c')) :
    c'.head.kind = .endOfInput := by
  induction n generalizing c statements with
  | zero => cases h
  | succ n ih =>
    by_cases hk : c.head.kind = .endOfInput
    · rw [program_of_end hk] at h
      cases h
      exact hk
    · rw [program_of_not_end hk] at h
      obtain ⟨s, c₁, -, h⟩ := Descent.bind_eq_some.mp h
      obtain ⟨ss, c₂, hss, h⟩ := Descent.bind_eq_some.mp h
      cases h
      exact ih hss

theorem Program.ofTokens_eq_ok_iff {tokens : List Token} {p : Program} :
    Program.ofTokens tokens = .ok p ↔
      ∃ c', (stmts (bound tokens.length)).quiet (Cursor.ofTokens tokens) = some (p.body, c') := by
  obtain ⟨body⟩ := p
  simp only [quiet_eq_some]
  unfold Program.ofTokens
  cases stmts (bound tokens.length) (Cursor.ofTokens tokens) <;> simp

/-- The parser accepts exactly the programs of the layered grammar, and it builds the trees that the
grammar builds. -/
theorem Program.ofTokens_iff_derives (tokens : List Token) {last : Token}
    (hlast : last.kind = .endOfInput) (p : Program) :
    Program.ofTokens (tokens ++ [last]) = .ok p ↔ Program.Derives (tokens ++ [last]) p := by
  rw [Program.ofTokens_eq_ok_iff]
  constructor
  · rintro ⟨c, h⟩
    obtain ⟨N, hN⟩ := settles_program h
    exact ⟨N, c, hN N (Nat.le_refl N)⟩
  · rintro ⟨depth, c, h⟩
    have hend : c.head.kind.isStray = false := by rw [end_of_program h]; rfl
    obtain ⟨N, hN⟩ := (leads_stmts depth _).settles h hend
    -- The parser succeeds with very many steps, and so it does with those it is given.
    have hmany := hN (max N (bound (tokens ++ [last]).length)) (Nat.le_max_left _ _)
    have hc := Cursor.ended_ofTokens tokens hlast
    refine ⟨c, quiet_eq_some.mpr ?_⟩
    rw [stmts_bound hc (Nat.le_max_right N _)]
    exact quiet_eq_some.mp hmany

def differences : List Token :=
  [⟨.ident, text "a", ⟨1, 1⟩⟩, ⟨.minus, text "-", ⟨1, 3⟩⟩, ⟨.ident, text "b", ⟨1, 5⟩⟩,
    ⟨.minus, text "-", ⟨1, 7⟩⟩, ⟨.minus, text "-", ⟨1, 9⟩⟩, ⟨.ident, text "c", ⟨1, 10⟩⟩,
    ⟨.star, text "*", ⟨1, 12⟩⟩, ⟨.ident, text "d", ⟨1, 14⟩⟩]

theorem Program.derives_differences :
    (Token.endAt ⟨1, 15⟩).kind = .endOfInput ∧
      Program.Derives (differences ++ [Token.endAt ⟨1, 15⟩])
        ⟨[.expr ⟨.ident, text "a", ⟨1, 1⟩⟩
          (.binary ⟨.minus, text "-", ⟨1, 7⟩⟩
            (.binary ⟨.minus, text "-", ⟨1, 3⟩⟩
              (.ident ⟨⟨.ident, text "a", ⟨1, 1⟩⟩, text "a"⟩) .sub
              (.ident ⟨⟨.ident, text "b", ⟨1, 5⟩⟩, text "b"⟩)) .sub
            (.binary ⟨.star, text "*", ⟨1, 12⟩⟩
              (.unary ⟨.minus, text "-", ⟨1, 9⟩⟩ .neg
                (.ident ⟨⟨.ident, text "c", ⟨1, 10⟩⟩, text "c"⟩)) .mul
              (.ident ⟨⟨.ident, text "d", ⟨1, 14⟩⟩, text "d"⟩)))]⟩ :=
  ⟨rfl, (Program.ofTokens_iff_derives differences rfl _).mp rfl⟩

end CornScript
