import CornScript.Proofs.Parser.Prefix
import CornScript.Proofs.Tree.Tokens
import CornScript.Proofs.Tree.Unlabelled
import Mathlib.Data.List.Forall2

/-! # The tokens of a printed tree tell the tree

Parentheses are printed around operations, so what is printed of an expression can stand in front of
any operator: the parser first reads the expression and then goes on with whatever operators follow.
Calls need no parentheses, since the parser goes on with them in just the same way. Only an `else`
must not follow, which would become a part of a conditional.
-/

namespace CornScript

open Token (Kind sample)
open Printer (commas pairTokens elseToken)

namespace Parser

variable {α β : Type} {c d : Cursor} {t u : Token} {ts us : List Token} {tss : List (List Token)}
  {e f left i key value : Expr} {es args keys values : List Expr} {kind close : Kind}
  {level own : Level} {op : BinaryOp} {r : EStateM.Result SyntaxError Cursor β}
  {keyTokens valueTokens : List Token} {kss vss : List (List Token)}

/-! ## Steps -/

theorem Tends.look {f : Token → Nat → Parser β} (h : Tends (f t) (d.after (t :: ts)) r) :
    Tends (fun n => head >>= fun t => f t n) (d.after (t :: ts)) r := h

theorem Tends.take {f : Token → Nat → Parser β} (h : Tends (f t) (d.after ts) r) :
    Tends (fun n => Parser.take >>= fun t => f t n) (d.after (t :: ts)) r := h

theorem Tends.expect {f : Token → Nat → Parser β} (ht : t.kind = kind)
    (h : Tends (f t) (d.after ts) r) :
    Tends (fun n => Parser.expect kind >>= fun t => f t n) (d.after (t :: ts)) r := by
  have hrun : Tends (fun _ => Parser.expect kind) (d.after (t :: ts)) (.ok t (d.after ts)) :=
    .of_eq fun _ => congrFun (if_pos ht) _
  exact hrun.bind_ok h

theorem Tends.expectIdent {f : Ident → Nat → Parser β} (ht : t.kind = .ident)
    (h : Tends (f ⟨t, t.literal⟩) (d.after ts) r) :
    Tends (fun n => Parser.expectIdent >>= fun p => f p n) (d.after (t :: ts)) r := by
  have hrun : Tends (fun _ => Parser.expectIdent) (d.after (t :: ts))
      (.ok ⟨t, t.literal⟩ (d.after ts)) := .expect ht (.of_eq fun _ => rfl)
  exact hrun.bind_ok h

/-! ## Expressions -/

theorem ne_elseWord_of_stops (h : kind.stops) : kind ≠ .elseWord := by
  rintro rfl
  cases h

/-- The tokens begin with the expression: after it, the parser goes on with the operators that
follow. -/
structure Starts (e : Expr) (ts : List Token) : Prop where
  run : ∀ {level d} {r : EStateM.Result SyntaxError Cursor Expr}, d.head.kind ≠ .elseWord →
    Tends (operators · level e) d r →
      Tends (fun n => operand n >>= fun first => operators n level first) (d.after ts) r

namespace Starts

theorem of_operand (h : ∀ {d : Cursor}, d.head.kind ≠ .elseWord →
    Tends operand (d.after ts) (.ok e d)) : Starts e ts :=
  ⟨fun hd hr => (h hd).bind_ok hr⟩

theorem expr (h : Starts e ts) (hd : d.head.kind.stops) :
    Tends (Parser.expr · level) (d.after ts) (.ok e d) :=
  tends_expr (h.run (ne_elseWord_of_stops hd) (tends_operators hd)) hd

theorem expr_before (h : Starts e ts) (ht : t.kind.stops) :
    Tends (Parser.expr · level) (d.after (ts ++ t :: us)) (.ok e (d.after (t :: us))) := by
  rw [Cursor.after_append]
  exact h.expr ht

theorem group (h : ∀ {d : Cursor}, d.head.kind.stops →
    Tends (Parser.expr · .lowest) (d.after ts) (.ok e d)) :
    Starts e (sample .leftParen :: (ts ++ [sample .rightParen])) := by
  refine .of_operand fun _ => .succ (.look (.take ?_))
  rw [Cursor.after_append]
  exact (h rfl).bind_ok (.expect rfl (.of_eq fun _ => rfl))

theorem expr_unary {op : UnaryOp} (h : Starts e ts) (hop : t.kind.unary? = some op)
    (hd : d.head.kind.stops) :
    Tends (Parser.expr · level) (d.after (t :: ts)) (.ok (.unary t op e) d) := by
  refine tends_expr ?_ hd
  refine Tends.bind_ok (.succ (.look ?_)) (tends_operators hd)
  have hsign : t.kind = .bang ∧ op = .not ∨ t.kind = .minus ∧ op = .neg := by
    cases hk : t.kind <;> rw [hk] at hop <;> cases hop <;> simp
  rcases hsign with ⟨hk, rfl⟩ | ⟨hk, rfl⟩
  · rw [hk]
    exact .take ((h.expr hd).bind_ok (.of_eq fun _ => rfl))
  · rw [hk]
    exact .take ((h.expr hd).bind_ok (.of_eq fun _ => rfl))

theorem unary {op : UnaryOp} (h : Starts e ts) (hop : t.kind.unary? = some op) :
    Starts (.unary t op e) (sample .leftParen :: (t :: ts ++ [sample .rightParen])) :=
  .group fun hd => h.expr_unary hop hd

theorem binary (hleft : Starts left ts) (hright : Starts e us)
    (hop : t.kind.binary? = some (op, own)) :
    Starts (.binary t left op e)
      (sample .leftParen :: (ts ++ t :: (us ++ [sample .rightParen]))) := by
  rw [← List.cons_append (a := t), ← List.append_assoc]
  refine .group fun {d} hd => tends_expr ?_ hd
  rw [Cursor.after_append]
  have hlevel : Level.lowest.rank < own.rank := by
    cases hk : t.kind <;> rw [hk] at hop <;> cases hop <;> decide
  have helse : t.kind ≠ .elseWord := by
    intro hk
    rw [hk] at hop
    cases hop
  refine hleft.run helse (.succ (.look ?_))
  split
  · next hk => rw [hk] at hop; cases hop
  · next hk => rw [hk] at hop; cases hop
  · next hk => rw [hk] at hop; cases hop
  · rw [hop]
    simp only [if_pos hlevel]
    exact .take ((hright.expr hd).bind_ok (tends_operators hd))

theorem call (h : Starts f ts) (ht : t.kind = .leftParen)
    (hargs : ∀ {d : Cursor}, Tends (exprList · .rightParen) (d.after us) (.ok args d)) :
    Starts (.call t f args) (ts ++ t :: us) := by
  refine ⟨fun {level d r} _ hr => ?_⟩
  rw [Cursor.after_append]
  refine h.run (ht ▸ nofun : t.kind ≠ _) (.succ (.look ?_))
  rw [ht]
  exact .take (hargs.bind_ok hr)

theorem subscript (h : Starts f ts) (ht : t.kind = .leftBracket) (hindex : Starts i us)
    (hopens : OpensExpr us) :
    Starts (.call t f [i]) (sample .leftParen ::
      (ts ++ t :: (us ++ [sample .rightBracket, sample .rightParen]))) := by
  rw [List.append_cons us, ← List.cons_append (a := t), ← List.append_assoc]
  refine .group fun {d} hd => tends_expr ?_ hd
  rw [Cursor.after_append]
  refine h.run (ht ▸ nofun : t.kind ≠ _) (.succ (.look ?_))
  rw [ht]
  have hinner : Tends (Parser.expr · .lowest) (d.after (us ++ [sample .rightBracket]))
      (.ok i (d.after [sample .rightBracket])) := hindex.expr_before rfl
  obtain ⟨u, us, rfl, hu⟩ := hopens
  have hclose : u.kind ≠ .rightBracket := Kind.ne_of_opens hu rfl
  refine .take (.look ?_)
  simp only [if_neg hclose]
  exact hinner.bind_ok (.expect rfl (tends_operators hd))

theorem method (h : Starts f ts) (ht : t.kind = .dot) (hu : u.kind = .ident)
    (hargs : ∀ {d : Cursor}, Tends (exprList · .rightParen) (d.after us) (.ok args d)) :
    Starts (.call t (.ident ⟨u, u.literal⟩) (f :: args))
      (ts ++ t :: u :: sample .leftParen :: us) := by
  refine ⟨fun {level d r} _ hr => ?_⟩
  rw [Cursor.after_append]
  refine h.run (ht ▸ nofun : t.kind ≠ _) (.succ (.look ?_))
  rw [ht]
  exact .take (.expectIdent hu (.expect rfl (hargs.bind_ok hr)))

end Starts

/-! ## Lists -/

theorem stops_afterCommas (h : d.head.kind.stops) (tss : List (List Token)) :
    (d.after (tss.flatMap (sample .comma :: ·))).head.kind.stops := by
  cases tss with
  | nil => exact h
  | cons ts tss => rfl

theorem tends_moreExprs (h : List.Forall₂ Starts es tss) (hd : d.head.kind.stops)
    (hcomma : d.head.kind ≠ .comma) :
    Tends moreExprs (d.after (tss.flatMap (sample .comma :: ·))) (.ok es d) := by
  induction h with
  | nil => exact .succ (.of_eq fun _ => congrFun (if_neg hcomma) d)
  | @cons e ts es tss he _ ih =>
    have hfirst : Tends (expr · .lowest) (d.after (ts ++ tss.flatMap (sample .comma :: ·)))
        (.ok e (d.after (tss.flatMap (sample .comma :: ·)))) := by
      rw [Cursor.after_append]
      exact he.expr (stops_afterCommas hd tss)
    rw [List.flatMap_cons, List.cons_append]
    exact .succ (.look (.take (hfirst.bind_ok (ih.bind_ok (.of_eq fun _ => rfl)))))

theorem tends_exprList (h : List.Forall₂ Starts es tss) (hopens : ∀ ts ∈ tss, OpensExpr ts)
    (hclose : close = .rightParen ∨ close = .rightBracket) :
    Tends (exprList · close) (d.after (commas tss ++ [sample close])) (.ok es d) := by
  have hstops : (sample close).kind.stops := by rcases hclose with rfl | rfl <;> rfl
  have hcomma : (sample close).kind ≠ .comma := by rcases hclose with rfl | rfl <;> nofun
  cases h with
  | nil => exact .succ (.of_eq fun _ => congrFun (if_pos rfl) _)
  | @cons e ts es tss he hes =>
    have hfirst : Tends (expr · .lowest)
        (d.after (ts ++ (tss.flatMap (sample .comma :: ·) ++ [sample close])))
        (.ok e (d.after (tss.flatMap (sample .comma :: ·) ++ [sample close]))) := by
      rw [Cursor.after_append]
      refine he.expr ?_
      rw [Cursor.after_append]
      exact stops_afterCommas (d := d.after [sample close]) hstops tss
    have hmore : Tends moreExprs (d.after (tss.flatMap (sample .comma :: ·) ++ [sample close]))
        (.ok es (d.after [sample close])) := by
      rw [Cursor.after_append]
      exact tends_moreExprs hes hstops hcomma
    obtain ⟨u, us, rfl, hu⟩ := hopens ts List.mem_cons_self
    have hne : u.kind ≠ close := Kind.ne_of_opens hu (by rcases hclose with rfl | rfl <;> rfl)
    rw [commas, List.append_assoc]
    refine .succ (.look ?_)
    simp only [if_neg hne]
    exact hfirst.bind_ok (hmore.bind_ok (.expect rfl (.of_eq fun _ => rfl)))

theorem commas_cons_cons (ts us : List Token) (tss : List (List Token)) :
    commas (ts :: us :: tss) = ts ++ sample .comma :: commas (us :: tss) := by
  simp only [commas, List.flatMap_cons, List.cons_append]

theorem tends_pair {r : EStateM.Result SyntaxError Cursor (List (Expr × Expr))}
    (hkey : Starts key keyTokens) (hvalue : Starts value valueTokens) (hd : d.head.kind.stops)
    (hr : Tends (fun n => head >>= fun t =>
      if t.kind = .comma then do
        let _ ← Parser.take
        return (key, value) :: (← hashPairs n)
      else return [(key, value)]) d r) :
    Tends hashPairs (d.after (pairTokens keyTokens valueTokens)) r := by
  rw [pairTokens, Cursor.after_append]
  have hcolon : Tends (expr · .lowest) ((d.after (sample .colon :: valueTokens)).after keyTokens)
      (.ok key (d.after (sample .colon :: valueTokens))) := hkey.expr rfl
  exact .succ (hcolon.bind_ok (.expect rfl ((hvalue.expr hd).bind_ok hr)))

theorem tends_hashPairs (hkey : Starts key keyTokens) (hvalue : Starts value valueTokens)
    (hkeys : List.Forall₂ Starts keys kss) (hvalues : List.Forall₂ Starts values vss)
    (hd : d.head.kind = .rightBrace) :
    Tends hashPairs
      (d.after (commas (List.zipWith pairTokens (keyTokens :: kss) (valueTokens :: vss))))
      (.ok ((key :: keys).zip (value :: values)) d) := by
  have hstops : d.head.kind.stops := by rw [hd]; rfl
  have hlast {key value keyTokens valueTokens} (hkey : Starts key keyTokens)
      (hvalue : Starts value valueTokens) :
      Tends hashPairs (d.after (commas [pairTokens keyTokens valueTokens]))
        (.ok [(key, value)] d) := by
    rw [commas, List.flatMap_nil, List.append_nil]
    have hcomma : d.head.kind ≠ .comma := by rw [hd]; nofun
    exact tends_pair hkey hvalue hstops (.of_eq fun _ => congrFun (if_neg hcomma) d)
  induction hkeys generalizing key value keyTokens valueTokens values vss with
  | nil => exact hlast hkey hvalue
  | @cons key' ts keys kss hkey' _ ih =>
    cases hvalues with
    | nil => exact hlast hkey hvalue
    | @cons value' us values vss hvalue' hvalues =>
      rw [List.zipWith_cons_cons, List.zipWith_cons_cons, commas_cons_cons, Cursor.after_append]
      refine tends_pair hkey hvalue rfl (.look (.take ?_))
      exact (ih hkey' hvalue' hvalues).bind_ok (.of_eq fun _ => rfl)

theorem tends_moreParams {ps : List Ident} (h : ∀ p ∈ ps, p.Genuine)
    (hd : d.head.kind = .rightParen) :
    Tends moreParams (d.after ((ps.map fun p => [p.token.unplaced]).flatMap (sample .comma :: ·)))
      (.ok (ps.map (Ident.moved .forget)) d) := by
  induction ps with
  | nil =>
    have hcomma : d.head.kind ≠ .comma := by rw [hd]; nofun
    exact .succ (.of_eq fun _ => congrFun (if_neg hcomma) d)
  | cons p ps ih =>
    obtain ⟨hp, hps⟩ := List.forall_mem_cons.mp h
    rw [List.map_cons, List.map_cons, List.flatMap_cons, hp.moved_eq]
    refine .succ (.look (.take (.expectIdent hp.kind ?_)))
    exact (ih hps).bind_ok (.of_eq fun _ => rfl)

theorem tends_params {ps : List Ident} (h : ∀ p ∈ ps, p.Genuine) :
    Tends params (d.after (commas (ps.map fun p => [p.token.unplaced]) ++ [sample .rightParen]))
      (.ok (ps.map (Ident.moved .forget)) d) := by
  cases ps with
  | nil => exact .look (.take (.of_eq fun _ => rfl))
  | cons p ps =>
    obtain ⟨hp, hps⟩ := List.forall_mem_cons.mp h
    have hmore := tends_moreParams (d := d.after [sample .rightParen]) hps rfl
    have hne : p.token.unplaced.kind ≠ .rightParen := fun hk => nomatch hp.kind.symm.trans hk
    rw [List.map_cons, List.map_cons, commas, List.append_assoc, List.cons_append, List.nil_append,
      hp.moved_eq]
    refine .look ?_
    simp only [if_neg hne]
    refine .expectIdent hp.kind ?_
    rw [Cursor.after_append]
    exact hmore.bind_ok (.expect rfl (.of_eq fun _ => rfl))

/-! ## Operands -/

namespace Starts

theorem ident (ht : t.kind = .ident) : Starts (.ident ⟨t, t.literal⟩) [t] := by
  refine .of_operand fun _ => .succ (.look ?_)
  rw [ht]
  exact .take (.of_eq fun _ => rfl)

theorem number {v : Float} (ht : t.kind = .number) (hv : Number.ofLiteral? t.literal = some v) :
    Starts (.number t v) [t] := by
  refine .of_operand fun _ => .succ (.look ?_)
  rw [ht]
  refine .look ?_
  rw [hv]
  exact .take (.of_eq fun _ => rfl)

theorem string (ht : t.kind = .string) : Starts (.string t t.literal) [t] := by
  refine .of_operand fun _ => .succ (.look ?_)
  rw [ht]
  exact .take (.of_eq fun _ => rfl)

theorem boolean {b : Bool} (ht : t.kind = if b then .trueWord else .falseWord) :
    Starts (.boolean t b) [t] := by
  refine .of_operand fun _ => .succ (.look ?_)
  cases b with
  | true =>
    rw [show t.kind = .trueWord from ht]
    exact .take (.of_eq fun _ => rfl)
  | false =>
    rw [show t.kind = .falseWord from ht]
    exact .take (.of_eq fun _ => rfl)

theorem null (ht : t.kind = .nullWord) : Starts (.null t) [t] := by
  refine .of_operand fun _ => .succ (.look ?_)
  rw [ht]
  exact .take (.of_eq fun _ => rfl)

theorem array (ht : t.kind = .leftBracket)
    (h : ∀ {d : Cursor}, Tends (exprList · .rightBracket) (d.after ts) (.ok es d)) :
    Starts (.array t es) (t :: ts) := by
  refine .of_operand fun _ => .succ (.look ?_)
  rw [ht]
  exact .take (h.bind_ok (.of_eq fun _ => rfl))

theorem emptyHash (ht : t.kind = .leftBrace) : Starts (.hash t [] []) [t, sample .rightBrace] := by
  refine .of_operand fun _ => .succ (.look ?_)
  rw [ht]
  exact .take (.look (.take (.of_eq fun _ => rfl)))

theorem hash {pairs : List (Expr × Expr)} (ht : t.kind = .leftBrace) (hopens : OpensExpr ts)
    (h : ∀ {d : Cursor}, d.head.kind = .rightBrace → Tends hashPairs (d.after ts) (.ok pairs d)) :
    Starts (.hash t (pairs.map Prod.fst) (pairs.map Prod.snd))
      (t :: (ts ++ [sample .rightBrace])) := by
  refine .of_operand fun {d} _ => .succ (.look ?_)
  have hpairs := h (d := d.after [sample .rightBrace]) rfl
  obtain ⟨u, us, rfl, hu⟩ := hopens
  have hne : u.kind ≠ .rightBrace := Kind.ne_of_opens hu rfl
  rw [ht]
  refine .take ?_
  rw [Cursor.after_append]
  refine .look ?_
  simp only [if_neg hne]
  exact hpairs.bind_ok (.expect rfl (.of_eq fun _ => rfl))

variable {bs as : List Token} {b a : Block}

theorem cond (ht : t.kind = .ifWord) (hcond : Starts e ts)
    (hb : ∀ {d : Cursor}, Tends block (d.after bs) (.ok b d)) :
    Starts (.cond t e b none) (t :: sample .leftParen :: (ts ++ sample .rightParen :: bs)) := by
  refine .of_operand fun {d} hd => .succ (.look ?_)
  rw [ht]
  refine .take (.expect rfl ((hcond.expr_before rfl).bind_ok (.expect rfl (hb.bind_ok ?_))))
  exact .of_eq fun _ => congrFun (if_neg hd) d

theorem condElse (ht : t.kind = .ifWord) (hcond : Starts e ts)
    (hb : ∀ {d : Cursor}, Tends block (d.after bs) (.ok b d))
    (ha : ∀ {d : Cursor}, Tends block (d.after as) (.ok a d)) :
    Starts (.cond t e b (some a))
      (t :: sample .leftParen :: (ts ++ sample .rightParen :: (bs ++ elseToken :: as))) := by
  refine .of_operand fun {d} _ => .succ (.look ?_)
  rw [ht]
  refine .take (.expect rfl ((hcond.expr_before rfl).bind_ok (.expect rfl ?_)))
  rw [Cursor.after_append]
  exact hb.bind_ok (.look (.take (ha.bind_ok (.of_eq fun _ => rfl))))

theorem function {ps : List Ident} (ht : t.kind = .fnWord)
    (hps : ∀ {d : Cursor}, Tends params (d.after ts) (.ok ps d))
    (hb : ∀ {d : Cursor}, Tends block (d.after bs) (.ok b d)) :
    Starts (.function t ps b) (t :: sample .leftParen :: (ts ++ bs)) := by
  refine .of_operand fun {d} _ => .succ (.look ?_)
  rw [ht]
  refine .take (.expect rfl ?_)
  rw [Cursor.after_append]
  exact hps.bind_ok (hb.bind_ok (.of_eq fun _ => rfl))

end Starts

end Parser

end CornScript
