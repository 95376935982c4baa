import CornScript.Proofs.Parser.Bound
import CornScript.Proofs.Token.Scan

/-! # Viable prefixes

A parser that looks at nothing beyond the next token treats the tokens it has taken in the same way
whatever comes later. It is *viable* if, moreover, the tokens it has taken before an error can
always be completed to something it accepts. Both are properties of the parser's parts, and they
pass from parts to wholes as long as each part can be followed by the shortest completion of what
comes after it.

The tokens of a text may end with an illegal one. It is never taken, but an error may be noticed
with the illegal token in view, and then that token is what is reported.

The number of steps is no obstacle: a completion may need more of them, so a result on other tokens
is what the parser gives from some number of steps on.
-/

namespace CornScript

namespace Token

def sample (kind : Kind) : Token :=
  ⟨kind, kind.name, Pos.start⟩

def Kind.closes : Kind → Bool
  | rightParen | rightBracket | rightBrace | colon | endOfInput => true
  | _ => false

theorem Kind.isIllegal_eq_false {kind : Kind} (h : ∀ fault, kind ≠ .illegal fault) :
    kind.isIllegal = false := by
  cases kind with
  | illegal fault => exact absurd rfl (h fault)
  | _ => rfl

end Token

/-- Causes that are noticed when the token after the wrong one is in view already. -/
def SyntaxError.Cause.isOperand : SyntaxError.Cause → Bool
  | noOperand _ | endOfInput | numberRange _ => true
  | _ => false

namespace Cursor

/-- What is reported when the next token is wrong: the cause and the token. An illegal token in view
is the cause instead; if it is the second one, its place is given with the literal of the first. -/
def report (c : Cursor) (cause : SyntaxError.Cause) : SyntaxError :=
  match c.head.kind, c.next.kind, cause.isOperand with
  | .illegal fault, _, _ => ⟨.lexical fault, c.head.literal, c.head.pos⟩
  | _, .illegal fault, true => ⟨.lexical fault, c.head.literal, c.next.pos⟩
  | _, _, _ => ⟨cause, c.head.literal, c.head.pos⟩

def after (d : Cursor) : List Token → Cursor
  | [] => d
  | t :: ts => ⟨t, (d.after ts).head :: (d.after ts).rest⟩

variable {c c' d : Cursor} {cause : SyntaxError.Cause}

@[simp] theorem after_nil (d : Cursor) : d.after [] = d := rfl

theorem after_append (d : Cursor) (ts us : List Token) :
    d.after (ts ++ us) = (d.after us).after ts := by
  induction ts with
  | nil => rfl
  | cons t ts ih => simp only [List.cons_append, after, ih]

theorem tokens_after (d : Cursor) (ts : List Token) :
    (d.after ts).head :: (d.after ts).rest = ts ++ d.head :: d.rest := by
  induction ts with
  | nil => rfl
  | cons t ts ih => simp only [after, ih, List.cons_append]

theorem head_after_of_ne_nil {ts : List Token} (h : ts ≠ []) (c d : Cursor) :
    (c.after ts).head = (d.after ts).head := by
  cases ts with
  | nil => exact absurd rfl h
  | cons t ts => rfl

theorem head_after (ts : List Token) (h : c.head = d.head) :
    (c.after ts).head = (d.after ts).head := by
  cases ts with
  | nil => exact h
  | cons t ts => rfl

structure Valid (c : Cursor) : Prop where
  ended : c.Ended
  legal : ∀ t ∈ c.head :: c.rest, t.kind.isIllegal = false

theorem Valid.head (h : c.Valid) : c.head.kind.isIllegal = false :=
  h.legal c.head List.mem_cons_self

theorem Valid.next (h : c.Valid) : c.next.kind.isIllegal = false := by
  obtain ⟨t, ts⟩ := c
  cases ts with
  | nil => exact h.head
  | cons t' ts => exact h.legal t' (by simp)

theorem Ended.of_after {ts : List Token} (h : (d.after ts).Ended) : d.Ended := by
  simp only [Ended, tokens_after] at h
  rwa [List.getLast_append_of_ne_nil _ (List.cons_ne_nil _ _)] at h

theorem Valid.of_after {ts : List Token} (h : (d.after ts).Valid) : d.Valid := by
  obtain ⟨he, hl⟩ := h
  rw [tokens_after] at hl
  exact ⟨he.of_after, fun t ht => hl t (List.mem_append_right ts ht)⟩

theorem report_of_illegal {fault : Token.Fault} (h : c.head.kind = .illegal fault) :
    c.report cause = ⟨.lexical fault, c.head.literal, c.head.pos⟩ := by
  simp only [report, h]

theorem report_of_next {fault : Token.Fault} (h : c.head.kind.isIllegal = false)
    (hn : c.next.kind = .illegal fault) (hcause : cause.isOperand) :
    c.report cause = ⟨.lexical fault, c.head.literal, c.next.pos⟩ := by
  unfold report
  split
  · next hk => rw [hk] at h; cases h
  · next hk _ _ => rw [hn] at hk; cases hk; rfl
  · next hno => exact (hno _ hn hcause).elim

theorem report_of_legal (h : c.head.kind.isIllegal = false)
    (hn : c.next.kind.isIllegal = false ∨ cause.isOperand = false) :
    c.report cause = ⟨cause, c.head.literal, c.head.pos⟩ := by
  unfold report
  split
  · next hk => rw [hk] at h; cases h
  · next hk hcause _ =>
    rw [hk, hcause] at hn
    rcases hn with hn | hn <;> cases hn
  · rfl

theorem Valid.report (h : c.Valid) : c.report cause = ⟨cause, c.head.literal, c.head.pos⟩ :=
  report_of_legal h.head (.inl h.next)

theorem Ended.eq_after (h : c.Ended) (hk : c.head.kind ≠ .endOfInput) :
    c = c.advance.after [c.head] := by
  have hl := h.length_advance hk
  obtain ⟨t, ts⟩ := c
  cases ts with
  | nil => simp at hl
  | cons t' ts => rfl

end Cursor

/-- Which tokens may come next so that what has been read stays as it is. -/
inductive Follow where
  | anything | closers | ending
  deriving DecidableEq

def Follow.admits : Follow → Token.Kind → Bool
  | anything, _ => true
  | closers, k => k.closes
  | ending, k => k == .endOfInput

theorem Follow.admits_of_admits {x y : Follow} {k : Token.Kind} (hx : x ≠ .ending)
    (hy : y ≠ .anything) (h : y.admits k) : x.admits k := by
  cases x with
  | anything => rfl
  | ending => exact absurd rfl hx
  | closers =>
    cases y with
    | anything => exact absurd rfl hy
    | closers => exact h
    | ending => rw [eq_of_beq h]; rfl

namespace Parser

variable {α β : Type} {c c' d : Cursor} {w x y z : Follow} {m m' : Bool} {a : α} {e : SyntaxError}

def Rejects (cause : SyntaxError.Cause) (c : Cursor) (p : Parser α) : Prop :=
  p c = .error (c.report cause) c

theorem refuse_of_illegal {cause : SyntaxError.Cause} {fault : Token.Fault}
    (h : c.head.kind = .illegal fault) :
    (refuse cause : Parser α) c = .error ⟨.lexical fault, c.head.literal, c.head.pos⟩ c := by
  have run {f : Token → Parser α} : (head >>= f) c = f c.head c := rfl
  rw [refuse, run, h]
  rfl

theorem refuse_of_legal {cause : SyntaxError.Cause} (h : c.head.kind.isIllegal = false) :
    (refuse cause : Parser α) c = .error ⟨cause, c.head.literal, c.head.pos⟩ c := by
  have run {f : Token → Parser α} : (head >>= f) c = f c.head c := rfl
  rw [refuse, run]
  cases hk : c.head.kind with
  | illegal => rw [hk] at h; cases h
  | _ => rfl

theorem rejects_refuse {cause : SyntaxError.Cause} (hcause : cause.isOperand = false)
    (c : Cursor) : Rejects cause c (refuse cause : Parser α) := by
  cases hk : c.head.kind.isIllegal with
  | false => rw [Rejects, refuse_of_legal hk, Cursor.report_of_legal hk (.inr hcause)]
  | true =>
    obtain ⟨fault, hk⟩ := Token.Kind.exists_of_isIllegal hk
    rw [Rejects, refuse_of_illegal hk, Cursor.report_of_illegal hk]

theorem rejects_refuseOperand {cause : SyntaxError.Cause} (hcause : cause.isOperand)
    (c : Cursor) : Rejects cause c (refuseOperand cause : Parser α) := by
  have run {f : Cursor → Parser α} (h : Rejects cause c (f c)) : Rejects cause c (get >>= f) := h
  refine run ?_
  split
  · next hk => rw [Rejects, refuse_of_illegal hk, Cursor.report_of_illegal hk]
  · next hk hno =>
    rw [Rejects, Cursor.report_of_next (Token.Kind.isIllegal_eq_false hno) hk hcause]
    rfl
  · next hno hnext =>
    have hk := Token.Kind.isIllegal_eq_false hno
    have hn := Token.Kind.isIllegal_eq_false hnext
    rw [Rejects, refuse_of_legal hk, Cursor.report_of_legal hk (.inl hn)]

/-- From some number of steps on, a parser has this result. -/
def Tends (p : Nat → Parser α) (c : Cursor) (r : EStateM.Result SyntaxError Cursor α) : Prop :=
  ∃ N, ∀ n, N ≤ n → p n c = r

namespace Tends

variable {p : Nat → Parser α} {f : α → Nat → Parser β} {r : EStateM.Result SyntaxError Cursor α}
  {r' : EStateM.Result SyntaxError Cursor β}

theorem of_eq (h : ∀ n, p n c = r) : Tends p c r := ⟨0, fun n _ => h n⟩

theorem succ (h : Tends (fun n => p (n + 1)) c r) : Tends p c r := by
  obtain ⟨N, h⟩ := h
  refine ⟨N + 1, fun n hn => ?_⟩
  obtain ⟨n, rfl⟩ : ∃ i, n = i + 1 := ⟨n - 1, by omega⟩
  exact h n (by omega)

theorem bind_ok (h : Tends p c (.ok a c')) (hf : Tends (f a) c' r') :
    Tends (fun n => p n >>= fun a => f a n) c r' := by
  obtain ⟨N, h⟩ := h
  obtain ⟨N', hf⟩ := hf
  exact ⟨max N N', fun n hn => (Parser.bind_ok (h n (by omega))).trans (hf n (by omega))⟩

theorem bind_error (h : Tends p c (.error e c')) :
    Tends (fun n => p n >>= fun a => f a n) c (.error e c') := by
  obtain ⟨N, h⟩ := h
  exact ⟨N, fun n hn => Parser.bind_error (h n hn)⟩

end Tends

/-- Before any token that `x` admits, a parser reads these tokens as `a`. -/
def Reads (p : Nat → Parser α) (x : Follow) (ts : List Token) (a : α) : Prop :=
  ∀ d, x.admits d.head.kind → Tends p (d.after ts) (.ok a d)

theorem Reads.skip {kind : Token.Kind} {p : Token → Nat → Parser α} (h : x.admits kind = false) :
    Reads (fun n => head >>= fun t => if t.kind = kind then p t n else pure a) x [] a := by
  intro d hd
  have hne : d.head.kind ≠ kind := by
    intro hk
    rw [hk, h] at hd
    cases hd
  exact .of_eq fun _ => congrFun (if_neg hne) d

theorem Reads.bind {p : Nat → Parser α} {f : α → Nat → Parser β} {ts us : List Token} {b : β}
    (h : Reads p x ts a) (hf : Reads (f a) y us b)
    (hfirst : ∀ d : Cursor, y.admits d.head.kind → x.admits (d.after us).head.kind) :
    Reads (fun n => p n >>= fun a => f a n) y (ts ++ us) b := by
  intro d hd
  rw [Cursor.after_append]
  exact (h _ (hfirst d hd)).bind_ok (hf d hd)

theorem Reads.peek {t : Token} {ts : List Token} {p : Token → Nat → Parser α}
    (h : Reads (p t) x (t :: ts) a) : Reads (fun n => head >>= fun t => p t n) x (t :: ts) a := by
  intro d hd
  obtain ⟨N, h⟩ := h d hd
  exact ⟨N, h⟩

/-- A parser can read some tokens, the first of which, with what follows, is one that `w` admits. -/
def Completes (w x : Follow) (p : Nat → Parser α) : Prop :=
  ∃ ts a, (∀ t ∈ ts, t.Plain) ∧ Reads p x ts a ∧
    ∀ d : Cursor, x.admits d.head.kind → w.admits (d.after ts).head.kind

namespace Completes

variable {p : Nat → Parser α} {f : α → Nat → Parser β}

theorem nil (hwx : ∀ k, x.admits k → w.admits k) (h : Reads p x [] a) : Completes w x p :=
  ⟨[], a, nofun, h, fun d => hwx d.head.kind⟩

theorem single {kind : Token.Kind} (hk : (Token.sample kind).Plain) (hw : w.admits kind)
    (h : Reads p x [Token.sample kind] a) : Completes w x p := by
  refine ⟨[Token.sample kind], a, fun t ht => ?_, h, fun _ _ => hw⟩
  rw [List.mem_singleton.mp ht]
  exact hk

theorem pure (hwx : ∀ k, x.admits k → w.admits k) : Completes w x fun _ => (pure a : Parser α) :=
  .nil hwx fun _ _ => .of_eq fun _ => rfl

theorem succ (h : Completes w x fun n => p (n + 1)) : Completes w x p := by
  obtain ⟨ts, a, hts, hreads, hfirst⟩ := h
  exact ⟨ts, a, hts, fun d hd => (hreads d hd).succ, hfirst⟩

theorem bind (h : Completes w x p) (hf : ∀ a, Completes x y (f a)) :
    Completes w y fun n => p n >>= fun a => f a n := by
  obtain ⟨ts, a, hts, hreads, hfirst⟩ := h
  obtain ⟨us, b, hus, hreads', hfirst'⟩ := hf a
  refine ⟨ts ++ us, b, ?_, hreads.bind hreads' hfirst', fun d hd => ?_⟩
  · simpa only [List.forall_mem_append] using ⟨hts, hus⟩
  · rw [Cursor.after_append]
    exact hfirst _ (hfirst' d hd)

theorem map {g : α → β} (h : Completes w x p) :
    Completes w x fun n => p n >>= fun a => Pure.pure (g a) :=
  h.bind fun _ => .pure fun _ hk => hk

end Completes

/--
What the parser `q` does at `c` depends on the tokens it takes and on the next one only: `p`, with
enough steps, does the same wherever these tokens are the same. A success needs the next token
only to be one that `x` admits; if `x` admits anything or `m` is set, then some token was taken. An
error has a cause that does not depend on more either, and the tokens taken before it can be
completed.
-/
structure Viable (m : Bool) (x : Follow) (c : Cursor) (q : Parser α) (p : Nat → Parser α) :
    Prop where
  ok : ∀ {a c'}, q c = .ok a c' → ∃ ts, c = c'.after ts ∧
    (ts = [] → m = false ∧ x ≠ .anything) ∧ Reads p x ts a ∧
    ∀ d, d.head = c'.head → Tends p (d.after ts) (.ok a d)
  error : ∀ {e c'}, q c = .error e c' → e.cause ≠ .tooDeep → ∃ ts cause, c = c'.after ts ∧
    e = c'.report cause ∧
    (∀ d, d.Valid → d.head = c'.head → Tends p (d.after ts) (.error (d.report cause) d)) ∧
    (ts ≠ [] → ∃ us a, (∀ t ∈ us, t.Plain) ∧ Reads p x (ts ++ us) a)

structure Phrase (w : Follow) (m : Bool) (x : Follow) (q : Parser α) (p : Nat → Parser α) :
    Prop where
  viable : ∀ {c}, c.Ended → Viable m x c q p
  completes : Completes w x p

namespace Viable

variable {q : Parser α} {p : Nat → Parser α} {q' : α → Parser β} {p' : α → Nat → Parser β}

theorem tooDeep : Viable m x c (Parser.refuse .tooDeep : Parser α) p := by
  have hq : (Parser.refuse .tooDeep : Parser α) c = _ := rejects_refuse rfl c
  refine ⟨fun h => ?_, fun h he => ?_⟩
  · rw [hq] at h
    cases h
  · rw [hq] at h
    cases h
    refine ⟨[], _, rfl, rfl, fun d hd hhead => ?_, fun hne => absurd rfl hne⟩
    -- With a legal token next, the error is that of giving up.
    have hlegal : c.head.kind.isIllegal = false := hhead ▸ hd.head
    rw [Cursor.report_of_legal hlegal (.inr rfl)] at he
    exact absurd rfl he

theorem succ (h : Viable m x c q fun n => p (n + 1)) : Viable m x c q p := by
  refine ⟨fun hq => ?_, fun hq he => ?_⟩
  · obtain ⟨ts, hts, hnil, hreads, hsame⟩ := h.ok hq
    exact ⟨ts, hts, hnil, fun d hd => (hreads d hd).succ, fun d hd => (hsame d hd).succ⟩
  · obtain ⟨ts, cause, hts, hat, hsame, hcomplete⟩ := h.error hq he
    refine ⟨ts, cause, hts, hat, fun d hv hd => (hsame d hv hd).succ, fun hne => ?_⟩
    obtain ⟨us, a, hus, hreads⟩ := hcomplete hne
    exact ⟨us, a, hus, fun d hd => (hreads d hd).succ⟩

theorem stop (hx : x ≠ .anything) (hq : q c = .ok a c)
    (hsame : ∀ d, d.head = c.head → Tends p d (.ok a d)) (hreads : Reads p x [] a) :
    Viable false x c q p := by
  refine ⟨fun h => ?_, fun h => ?_⟩
  · rw [hq] at h
    cases h
    exact ⟨[], rfl, fun _ => ⟨rfl, hx⟩, hreads, hsame⟩
  · rw [hq] at h
    cases h

theorem rejects {cause : SyntaxError.Cause} (h : ∀ d, Rejects cause d q) :
    Viable m x c q fun _ => q := by
  refine ⟨fun hq => ?_, fun hq _ => ?_⟩
  · rw [h c] at hq
    cases hq
  · rw [h c] at hq
    cases hq
    exact ⟨[], cause, rfl, rfl, fun d _ _ => .of_eq fun _ => h d, fun hne => absurd rfl hne⟩

theorem refuse {cause : SyntaxError.Cause} (h : cause.isOperand = false) :
    Viable m x c (refuse cause : Parser α) fun _ => refuse cause :=
  .rejects (rejects_refuse h)

theorem refuseOperand {cause : SyntaxError.Cause} (h : cause.isOperand) :
    Viable m x c (refuseOperand cause : Parser α) fun _ => refuseOperand cause :=
  .rejects (rejects_refuseOperand h)

theorem peek {q : Token → Parser α} {p : Token → Nat → Parser α}
    (h : Viable true x c (q c.head) (p c.head)) :
    Viable true x c (head >>= q) fun n => head >>= fun t => p t n := by
  have look {d r} (hd : d.head = c.head) (hr : Tends (p c.head) d r) :
      Tends (fun n => head >>= fun t => p t n) d r := by
    obtain ⟨N, hr⟩ := hr
    exact ⟨N, fun n hn => (congrArg (p · n d) hd).trans (hr n hn)⟩
  refine ⟨fun hq => ?_, fun hq he => ?_⟩
  · obtain ⟨ts, hts, hnil, hreads, hsame⟩ := h.ok hq
    have hne : ts ≠ [] := fun h => absurd (hnil h).1 nofun
    have hhead (d : Cursor) : (d.after ts).head = c.head :=
      (Cursor.head_after_of_ne_nil hne _ _).trans (congrArg Cursor.head hts).symm
    exact ⟨ts, hts, hnil, fun d hd => look (hhead d) (hreads d hd),
      fun d hd => look (hhead d) (hsame d hd)⟩
  · obtain ⟨ts, cause, hts, hat, hsame, hcomplete⟩ := h.error hq he
    refine ⟨ts, cause, hts, hat, fun d hv hd => look ?_ (hsame d hv hd), fun hne => ?_⟩
    · exact (Cursor.head_after ts hd).trans (congrArg Cursor.head hts).symm
    · obtain ⟨us, a, hus, hreads⟩ := hcomplete hne
      refine ⟨us, a, hus, fun d hd => look ?_ (hreads d hd)⟩
      rw [Cursor.after_append, hts]
      exact Cursor.head_after_of_ne_nil hne _ _

theorem of_anything (h : Viable m .anything c q p) : Viable m' x c q p := by
  refine ⟨fun hq => ?_, fun hq he => ?_⟩
  · obtain ⟨ts, hts, hnil, hreads, hsame⟩ := h.ok hq
    exact ⟨ts, hts, fun h => absurd rfl (hnil h).2, fun d _ => hreads d rfl, hsame⟩
  · obtain ⟨ts, cause, hts, hat, hsame, hcomplete⟩ := h.error hq he
    refine ⟨ts, cause, hts, hat, hsame, fun hne => ?_⟩
    obtain ⟨us, a, hus, hreads⟩ := hcomplete hne
    exact ⟨us, a, hus, fun d _ => hreads d rfl⟩

theorem weaken (h : Viable true x c q p) : Viable m x c q p := by
  refine ⟨fun hq => ?_, h.error⟩
  obtain ⟨ts, hts, hnil, hreads, hsame⟩ := h.ok hq
  exact ⟨ts, hts, fun h => absurd (hnil h).1 nofun, hreads, hsame⟩

theorem optional {kind : Token.Kind} {q : Token → Parser α} {p : Token → Nat → Parser α}
    (hx : x ≠ .anything) (hkind : x.admits kind = false)
    (h : c.head.kind = kind → Viable true x c (q c.head) (p c.head)) :
    Viable false x c (head >>= fun t => if t.kind = kind then q t else Pure.pure a)
      fun n => head >>= fun t => if t.kind = kind then p t n else Pure.pure a := by
  by_cases hk : c.head.kind = kind
  · refine .weaken (.peek ?_)
    simp only [if_pos hk]
    exact h hk
  · exact .stop hx (congrFun (if_neg hk) c)
      (fun d hd => .of_eq fun _ => congrFun (if_neg (hd ▸ hk)) d) (.skip hkind)

theorem take (hc : c.Ended) (hk : c.head.kind ≠ .endOfInput) :
    Viable true .anything c take fun _ => take := by
  refine ⟨fun hq => ?_, nofun⟩
  cases hq
  exact ⟨[c.head], hc.eq_after hk, nofun, fun d _ => .of_eq fun _ => rfl,
    fun d _ => .of_eq fun _ => rfl⟩

theorem bind (hx : x ≠ .ending) (hc : c.Ended) (h : Viable m x c q p)
    (hf : ∀ a, Phrase x m' y (q' a) (p' a)) :
    Viable (m || m') y c (q >>= q') fun n => p n >>= fun a => p' a n := by
  cases hq : q c with
  | error e c₁ =>
    refine ⟨fun hr => ?_, fun hr he => ?_⟩
    · rw [bind_error hq] at hr
      cases hr
    · rw [bind_error hq] at hr
      cases hr
      obtain ⟨ts, cause, hts, hat, hsame, hcomplete⟩ := h.error hq he
      refine ⟨ts, cause, hts, hat, fun d hv hd => (hsame d hv hd).bind_error, fun hne => ?_⟩
      -- What the first part needs is completed by what the second part can always read.
      obtain ⟨us, a, hus, hreads⟩ := hcomplete hne
      obtain ⟨vs, b, hvs, hreads', hfirst⟩ := (hf a).completes
      refine ⟨us ++ vs, b, by simpa only [List.forall_mem_append] using ⟨hus, hvs⟩, ?_⟩
      rw [← List.append_assoc]
      exact hreads.bind hreads' hfirst
  | ok a c₁ =>
    obtain ⟨ts, hts, hnil, hreads, hsame⟩ := h.ok hq
    subst hts
    have hv := (hf a).viable hc.of_after
    refine ⟨fun hr => ?_, fun hr he => ?_⟩
    · rw [Parser.bind_ok hq] at hr
      obtain ⟨us, hus, hnil', hreads', hsame'⟩ := hv.ok hr
      subst hus
      refine ⟨ts ++ us, (Cursor.after_append ..).symm, fun h => ?_, fun d hd => ?_, fun d hd => ?_⟩
      · obtain ⟨hts, hus⟩ := List.append_eq_nil_iff.mp h
        exact ⟨by rw [(hnil hts).1, (hnil' hus).1]; rfl, (hnil' hus).2⟩
      · rw [Cursor.after_append]
        refine .bind_ok ?_ (hreads' d hd)
        by_cases hus : us = []
        · subst hus
          exact hreads d (Follow.admits_of_admits hx (hnil' rfl).2 hd)
        · exact hsame _ (Cursor.head_after_of_ne_nil hus _ _)
      · rw [Cursor.after_append]
        exact (hsame _ (Cursor.head_after us hd)).bind_ok (hsame' d hd)
    · rw [Parser.bind_ok hq] at hr
      obtain ⟨us, cause, hus, hat, hsame', hcomplete⟩ := hv.error hr he
      subst hus
      refine ⟨ts ++ us, cause, (Cursor.after_append ..).symm, hat, fun d hd hhead => ?_,
        fun hne => ?_⟩
      · rw [Cursor.after_append]
        exact (hsame _ (Cursor.head_after us hhead)).bind_ok (hsame' d hd hhead)
      · by_cases hus : us = []
        · -- The second part has taken nothing, so that it can begin anew.
          subst hus
          obtain ⟨vs, b, hvs, hreads', hfirst⟩ := (hf a).completes
          rw [List.append_nil]
          exact ⟨vs, b, hvs, hreads.bind hreads' hfirst⟩
        · obtain ⟨vs, b, hvs, hreads'⟩ := hcomplete hus
          refine ⟨vs, b, hvs, fun d hd => ?_⟩
          rw [List.append_assoc, Cursor.after_append]
          refine (hsame _ ?_).bind_ok (hreads' d hd)
          rw [Cursor.after_append]
          exact Cursor.head_after_of_ne_nil hus _ _

theorem map {g : α → β} (h : Viable m x c q p) :
    Viable m x c (q >>= fun a => Pure.pure (g a)) fun n => p n >>= fun a => Pure.pure (g a) := by
  have done {a : α} {c d} (h : Tends p c (.ok a d)) :
      Tends (fun n => p n >>= fun a => Pure.pure (g a)) c (.ok (g a) d) :=
    h.bind_ok (.of_eq fun _ => rfl)
  refine ⟨fun {b c'} hr => ?_, fun {e c'} hr he => ?_⟩
  · cases hq : q c with
    | error e c₁ =>
      rw [bind_error hq] at hr
      cases hr
    | ok a c₁ =>
      rw [Parser.bind_ok hq] at hr
      cases hr
      obtain ⟨ts, hts, hnil, hreads, hsame⟩ := h.ok hq
      exact ⟨ts, hts, hnil, fun d hd => done (hreads d hd), fun d hd => done (hsame d hd)⟩
  · cases hq : q c with
    | ok a c₁ =>
      rw [Parser.bind_ok hq] at hr
      cases hr
    | error e c₁ =>
      rw [bind_error hq] at hr
      cases hr
      obtain ⟨ts, cause, hts, hat, hsame, hcomplete⟩ := h.error hq he
      refine ⟨ts, cause, hts, hat, fun d hv hd => (hsame d hv hd).bind_error, fun hne => ?_⟩
      obtain ⟨us, a, hus, hreads⟩ := hcomplete hne
      exact ⟨us, g a, hus, fun d hd => done (hreads d hd)⟩

end Viable

namespace Phrase

variable {q : Parser α} {p : Nat → Parser α} {q' : α → Parser β} {p' : α → Nat → Parser β}

theorem bind (hx : x ≠ .ending) (h : Phrase w m x q p) (hf : ∀ a, Phrase x m' y (q' a) (p' a)) :
    Phrase w (m || m') y (q >>= q') fun n => p n >>= fun a => p' a n :=
  ⟨fun hc => .bind hx hc (h.viable hc) hf, h.completes.bind fun a => (hf a).completes⟩

theorem tooDeep (h : Completes w x p) : Phrase w m x (Parser.refuse .tooDeep : Parser α) p :=
  ⟨fun _ => .tooDeep, h⟩

theorem succ (h : Phrase w m x q fun n => p (n + 1)) : Phrase w m x q p :=
  ⟨fun hc => (h.viable hc).succ, h.completes.succ⟩

theorem map {g : α → β} (h : Phrase w m x q p) :
    Phrase w m x (q >>= fun a => Pure.pure (g a)) fun n => p n >>= fun a => Pure.pure (g a) :=
  ⟨fun hc => (h.viable hc).map, h.completes.map⟩

theorem after_anything (h : Phrase w m x q p) : Phrase .anything m x q p := by
  obtain ⟨ts, a, hts, hreads, -⟩ := h.completes
  exact ⟨h.viable, ts, a, hts, hreads, fun _ _ => rfl⟩

theorem optional {kind : Token.Kind} {q : Token → Parser α} {p : Token → Nat → Parser α}
    (hw : w ≠ .ending) (hx : x ≠ .anything) (hkind : x.admits kind = false)
    (h : ∀ {c}, c.Ended → c.head.kind = kind → Viable true x c (q c.head) (p c.head)) :
    Phrase w false x (head >>= fun t => if t.kind = kind then q t else Pure.pure a)
      fun n => head >>= fun t => if t.kind = kind then p t n else Pure.pure a := by
  exact ⟨fun hc => .optional hx hkind (h hc),
    .nil (fun k => Follow.admits_of_admits hw hx) (.skip hkind)⟩

theorem expect {kind : Token.Kind} (hw : w.admits kind) (hkind : (Token.sample kind).Plain) :
    Phrase w true .anything (expect kind) fun _ => expect kind := by
  refine ⟨fun hc => .peek ?_, .single hkind hw fun d _ => .of_eq fun _ => congrFun (if_pos rfl) _⟩
  split
  · next hk => exact .take hc (hk ▸ hkind.1)
  · exact .refuse rfl

theorem closed {close : Token.Kind} (hw : w.admits close) (hclose : (Token.sample close).Plain)
    (h : ∀ {c}, c.Ended → Viable true .anything c q p) :
    Phrase w true .anything
      (head >>= fun t => if t.kind = close then take >>= fun _ => Pure.pure a else q)
      fun n => head >>= fun t => if t.kind = close then take >>= fun _ => Pure.pure a else p n := by
  constructor
  · intro c hc
    apply Viable.peek
    split
    · next hk => exact (Viable.take hc (hk ▸ hclose.1)).map
    · exact h hc
  · have hreads : Reads (fun n => head >>= fun t =>
        if t.kind = close then take >>= fun _ => Pure.pure a else p n) .anything
        [Token.sample close] a := by
      apply Reads.peek
      simp only [Token.sample, if_true]
      exact fun _ _ => .of_eq fun _ => rfl
    exact .single hclose hw hreads

theorem barred {kind : Token.Kind} {cause : SyntaxError.Cause} {t : Token} {ts : List Token}
    (hcause : cause.isOperand = false) (ht : t.kind ≠ kind) (hts : ∀ t' ∈ t :: ts, t'.Plain)
    (hreads : Reads p x (t :: ts) a) (h : ∀ {c}, c.Ended → Viable true x c q p) :
    Phrase .anything true x (head >>= fun t => if t.kind = kind then refuse cause else q)
      fun n => head >>= fun t => if t.kind = kind then refuse cause else p n := by
  constructor
  · intro c hc
    apply Viable.peek
    split
    · exact .refuse hcause
    · exact h hc
  · refine ⟨t :: ts, a, hts, .peek ?_, fun _ _ => rfl⟩
    simpa only [if_neg ht] using hreads

theorem expectIdent : Phrase .anything true .anything expectIdent fun _ => expectIdent :=
  (expect rfl (by decide)).map

end Phrase

end Parser

end CornScript
