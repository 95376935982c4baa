import CornScript.Proofs.Token.Scan

/-! # What a text consists of

What the tokens of a text are can be said without a cursor. Certain pieces of text are tokens, each
with its kind and its literal, and others are skipped: blanks, and comments up to the end of their
line. A text is read by skipping as much as can be skipped and then taking the longest token, over
and over again. This comes to an end at the end of the text, or where a token would have to begin
with a byte that begins none, or with a quote that is not closed. A text is read in one way only.
-/

namespace CornScript.Token

open Bytes (isLetter isDigit newline)
open Lexeme (isWordByte)

def operators : List (Bytes × Kind) :=
  [(text "=", .assign), (text "==", .equal), (text "!", .bang), (text "!=", .notEqual),
   (text "<", .less), (text "<=", .lessEq), (text ">", .greater), (text ">=", .greaterEq),
   (text "+", .plus), (text "-", .minus), (text "*", .star), (text "/", .slash),
   (text "^", .caret), (text ",", .comma), (text ":", .colon), (text ";", .semicolon),
   (text ".", .dot), (text "(", .leftParen), (text ")", .rightParen), (text "\x7b", .leftBrace),
   (text "\x7d", .rightBrace), (text "[", .leftBracket), (text "]", .rightBracket)]

def IsQuote (b : UInt8) : Prop := b = 0x22 ∨ b = 0x27

inductive Numeral : Bytes → Prop where
  | whole {n : Bytes} : n ≠ [] → (∀ d ∈ n, isDigit d) → Numeral n
  | fraction {n f : Bytes} : n ≠ [] → (∀ d ∈ n, isDigit d) → f ≠ [] → (∀ d ∈ f, isDigit d) →
    Numeral (n ++ 0x2E :: f)

inductive Spelled : Bytes → Kind → Bytes → Prop where
  | word {b : UInt8} {w : Bytes} : isLetter b → (∀ c ∈ w, isWordByte c) →
    Spelled (b :: w) (.ofWord (b :: w)) (b :: w)
  | number {w : Bytes} : Numeral w → Spelled w .number w
  | quoted {q : UInt8} {inner : Bytes} : IsQuote q → q ∉ inner →
    Spelled (q :: (inner ++ [q])) .string inner
  | operator {w : Bytes} {k : Kind} : (w, k) ∈ operators → Spelled w k w

/-- The pieces of text that are skipped: blanks and comments. Only the last comment may lack the end
of its line. -/
inductive Skipped : Bytes → Prop where
  | nil : Skipped []
  | blank {b : UInt8} {s : Bytes} : isBlank b → Skipped s → Skipped (b :: s)
  | comment {c s : Bytes} : newline ∉ c → Skipped s →
    Skipped (0x2F :: 0x2F :: (c ++ newline :: s))
  | lastComment {c : Bytes} : newline ∉ c → Skipped (0x2F :: 0x2F :: c)

/-- The longest of all pieces with a property that a text begins with. -/
structure Longest (P : Bytes → Prop) (s w : Bytes) : Prop where
  holds : P w
  front : w <+: s
  longest : ∀ {v}, P v → v <+: s → v.length ≤ w.length

def IsSpelling (w : Bytes) : Prop := ∃ k l, Spelled w k l

def Begins (b : UInt8) : Prop := ∃ w, IsSpelling (b :: w)

structure Piece where
  gap : Bytes
  spelling : Bytes
  kind : Kind
  literal : Bytes

def Piece.Sound (x : Piece) : Prop :=
  Skipped x.gap ∧ Spelled x.spelling x.kind x.literal

/-- What a text consists of: pieces, and then what is skipped before the end of the text or before
the place of a fault. -/
structure Reading where
  pieces : List Piece
  gap : Bytes
  fault : Option Fault

/-- What a text that begins with nothing to skip begins with: the longest token, or a fault. -/
inductive Taken : Bytes → Except Fault (Bytes × Kind × Bytes) → Prop where
  | token {s w l : Bytes} {k : Kind} : Longest IsSpelling s w → Spelled w k l →
    Taken s (.ok (w, k, l))
  | unknown {b : UInt8} {rest : Bytes} : ¬ Begins b →
    Taken (b :: rest) (.error (.unknownCharacter b))
  | unterminated {q : UInt8} {rest : Bytes} : IsQuote q → q ∉ rest →
    Taken (q :: rest) (.error .unterminatedString)

inductive Reads : Bytes → Reading → Prop where
  | finished {s : Bytes} : Skipped s → Reads s ⟨[], s, none⟩
  | broken {gap rest : Bytes} {f : Fault} : Longest Skipped (gap ++ rest) gap →
    Taken rest (.error f) → Reads (gap ++ rest) ⟨[], gap, some f⟩
  | token {gap w rest l : Bytes} {k : Kind} {r : Reading} :
    Longest Skipped (gap ++ (w ++ rest)) gap → Taken (w ++ rest) (.ok (w, k, l)) →
    Reads rest r → Reads (gap ++ (w ++ rest)) { r with pieces := ⟨gap, w, k, l⟩ :: r.pieces }

def Piece.tokens (p : Pos) : List Piece → List Token
  | [] => []
  | x :: rest =>
    ⟨x.kind, x.literal, p.after x.gap⟩ :: tokens (p.after (x.gap ++ x.spelling)) rest

def Piece.cover (pieces : List Piece) : Bytes :=
  pieces.flatMap fun x => x.gap ++ x.spelling

def Reading.cover (r : Reading) : Bytes :=
  Piece.cover r.pieces ++ r.gap

/-- How tokens end that are read up to `p`. -/
inductive Closes (p : Pos) : Option Fault → List Token → Prop where
  | finished : Closes p none [endAt p]
  | broken {f : Fault} {l : Bytes} {q : Pos} : Closes p (some f) [⟨.illegal f, l, p⟩, endAt q]

section Longest

variable {P Q : Bytes → Prop} {s w w' : Bytes} {b : UInt8}

theorem Longest.unique (h : Longest P s w) (h' : Longest P s w') : w = w' := by
  have hle := h.longest h'.holds h'.front
  have hle' := h'.longest h.holds h.front
  have hpre : w <+: w' := List.prefix_of_prefix_length_le h.front h'.front hle'
  exact hpre.eq_of_length_le hle

theorem Longest.cons (h : Longest Q s w) (hw : P (b :: w)) (hP : ∀ {v}, P (b :: v) → Q v) :
    Longest P (b :: s) (b :: w) where
  holds := hw
  front := List.cons_prefix_cons.mpr ⟨rfl, h.front⟩
  longest {v} hv hs := by
    cases v with
    | nil => exact Nat.zero_le _
    | cons c v =>
      obtain ⟨rfl, hfront⟩ := List.cons_prefix_cons.mp hs
      exact Nat.succ_le_succ (h.longest (hP hv) hfront)

end Longest

section Spelled

variable {b : UInt8} {v w rest l : Bytes} {k : Kind}

theorem not_isDigit_of_isLetter (h : isLetter b) : isDigit b = false := by
  simp only [isLetter, isDigit, UInt8.le_iff_toNat_le, Bool.or_eq_true, Bool.and_eq_true,
    decide_eq_true_eq, Bool.and_eq_false_iff, decide_eq_false_iff_not] at h ⊢
  simp at h ⊢
  omega

theorem IsQuote.not_isLetter (h : IsQuote b) : isLetter b = false := by
  rcases h with rfl | rfl <;> decide

theorem IsQuote.not_isDigit (h : IsQuote b) : isDigit b = false := by
  rcases h with rfl | rfl <;> decide

/-- No operator begins like a token of another sort, and what may follow its first byte is a `=`. -/
theorem operators_shape : ∀ r ∈ operators, ∃ b ∈ r.1.head?,
    isLetter b = false ∧ isDigit b = false ∧ b ≠ 0x22 ∧ b ≠ 0x27 ∧
      (r.1 = [b] ∨ r.1 = [b, 0x3D]) := by
  decide

theorem Numeral.head {w : Bytes} (h : Numeral w) : ∃ b v, w = b :: v ∧ isDigit b := by
  cases h with
  | @whole n hn hd =>
    obtain ⟨b, v, rfl⟩ := List.exists_cons_of_ne_nil hn
    exact ⟨b, v, rfl, hd b List.mem_cons_self⟩
  | @fraction n f hn hd =>
    obtain ⟨b, v, rfl⟩ := List.exists_cons_of_ne_nil hn
    exact ⟨b, v ++ 0x2E :: f, rfl, hd b List.mem_cons_self⟩

theorem operators_head (h : (b :: v, k) ∈ operators) :
    isLetter b = false ∧ isDigit b = false ∧ ¬ IsQuote b ∧ (v = [] ∨ v = [0x3D]) := by
  obtain ⟨c, hc, hletter, hdigit, hdouble, hsingle, htail⟩ := operators_shape _ h
  cases hc
  refine ⟨hletter, hdigit, fun hq => hq.elim hdouble hsingle, ?_⟩
  simpa using htail

theorem spelled_cons (h : Spelled (b :: v) k l) :
    (isLetter b ∧ (∀ c ∈ v, isWordByte c) ∧ k = .ofWord (b :: v) ∧ l = b :: v) ∨
      (isDigit b ∧ Numeral (b :: v) ∧ k = .number ∧ l = b :: v) ∨
      (IsQuote b ∧ ∃ inner, v = inner ++ [b] ∧ b ∉ inner ∧ k = .string ∧ l = inner) ∨
      ((b :: v, k) ∈ operators ∧ l = b :: v) := by
  cases h with
  | word hb hv => exact .inl ⟨hb, hv, rfl, rfl⟩
  | number hn =>
    obtain ⟨c, u, heq, hc⟩ := hn.head
    cases heq
    exact .inr (.inl ⟨hc, hn, rfl, rfl⟩)
  | quoted hq hinner => exact .inr (.inr (.inl ⟨hq, _, rfl, hinner, rfl, rfl⟩))
  | operator hop => exact .inr (.inr (.inr ⟨hop, rfl⟩))

theorem Spelled.ne_nil (h : Spelled w k l) : w ≠ [] := by
  rintro rfl
  cases h with
  | number hn =>
    obtain ⟨c, u, heq, -⟩ := hn.head
    cases heq
  | operator hop =>
    obtain ⟨c, hc, -⟩ := operators_shape _ hop
    cases hc

theorem Spelled.of_isLetter (h : Spelled (b :: v) k l) (hb : isLetter b) :
    (∀ c ∈ v, isWordByte c) ∧ k = .ofWord (b :: v) ∧ l = b :: v := by
  rcases spelled_cons h with h | ⟨hd, -⟩ | ⟨hq, -⟩ | ⟨hop, -⟩
  · exact h.2
  · simp [not_isDigit_of_isLetter hb] at hd
  · simp [hq.not_isLetter] at hb
  · simp [(operators_head hop).1] at hb

theorem Spelled.of_isDigit (h : Spelled (b :: v) k l) (hb : isDigit b) :
    Numeral (b :: v) ∧ k = .number ∧ l = b :: v := by
  rcases spelled_cons h with ⟨hl, -⟩ | h | ⟨hq, -⟩ | ⟨hop, -⟩
  · simp [not_isDigit_of_isLetter hl] at hb
  · exact h.2
  · simp [hq.not_isDigit] at hb
  · simp [(operators_head hop).2.1] at hb

theorem Spelled.of_isQuote (h : Spelled (b :: v) k l) (hb : IsQuote b) :
    ∃ inner, v = inner ++ [b] ∧ b ∉ inner ∧ k = .string ∧ l = inner := by
  rcases spelled_cons h with ⟨hl, -⟩ | ⟨hd, -⟩ | h | ⟨hop, -⟩
  · simp [hb.not_isLetter] at hl
  · simp [hb.not_isDigit] at hd
  · exact h.2
  · exact absurd hb (operators_head hop).2.2.1

theorem Spelled.of_operator {u : Bytes} {k' : Kind} (h : Spelled (b :: v) k l)
    (hb : (b :: u, k') ∈ operators) : (b :: v, k) ∈ operators ∧ l = b :: v := by
  obtain ⟨hletter, hdigit, hquote, -⟩ := operators_head hb
  rcases spelled_cons h with ⟨hl, -⟩ | ⟨hd, -⟩ | ⟨hq, -⟩ | h
  · simp [hletter] at hl
  · simp [hdigit] at hd
  · exact absurd hq hquote
  · exact h

theorem operators_unique : ∀ r ∈ operators, ∀ r' ∈ operators, r.1 = r'.1 → r.2 = r'.2 := by
  decide

theorem Spelled.unique {k' : Kind} {l' : Bytes} (h : Spelled w k l) (h' : Spelled w k' l') :
    k = k' ∧ l = l' := by
  obtain ⟨b, v, rfl⟩ := List.exists_cons_of_ne_nil h.ne_nil
  rcases spelled_cons h with ⟨hb, -, rfl, rfl⟩ | ⟨hb, -, rfl, rfl⟩ | ⟨hb, inner, rfl, -, rfl, rfl⟩ |
    ⟨hop, rfl⟩
  · obtain ⟨-, rfl, rfl⟩ := h'.of_isLetter hb
    exact ⟨rfl, rfl⟩
  · obtain ⟨-, rfl, rfl⟩ := h'.of_isDigit hb
    exact ⟨rfl, rfl⟩
  · obtain ⟨inner', heq, -, rfl, rfl⟩ := h'.of_isQuote hb
    exact ⟨rfl, List.append_inj_left' heq rfl⟩
  · obtain ⟨hop', rfl⟩ := h'.of_operator hop
    exact ⟨operators_unique _ hop _ hop' rfl, rfl⟩

theorem Spelled.isIllegal_eq_false (h : Spelled w k l) : k.isIllegal = false := by
  have hoperators : ∀ r ∈ operators, r.2.isIllegal = false := by decide
  cases h with
  | word => exact Kind.holds_ofWord (P := (·.isIllegal = false)) rfl (by decide) _
  | number => rfl
  | quoted => rfl
  | operator hop => exact hoperators _ hop

/-- The kind and the literal of a token tell how many bytes it has. -/
theorem Spelled.length_of_kind (h : Spelled w k l) :
    w.length = if k = .string then l.length + 2 else l.length := by
  have hoperators : ∀ r ∈ operators, r.2 ≠ .string := by decide
  cases h with
  | word => rw [if_neg (Kind.holds_ofWord (P := (· ≠ .string)) nofun (by decide) _)]
  | number => rfl
  | quoted => simp
  | operator hop => rw [if_neg (hoperators _ hop)]

end Spelled

section Reads

variable {s : Bytes} {r r' : Reading}

theorem Spelled.head {w l : Bytes} {k : Kind} (h : Spelled w k l) : ∃ b v, w = b :: v ∧
    Begins b ∧ (IsQuote b → b ∈ v) := by
  obtain ⟨b, v, rfl⟩ := List.exists_cons_of_ne_nil h.ne_nil
  refine ⟨b, v, rfl, ⟨v, k, l, h⟩, fun hb => ?_⟩
  obtain ⟨inner, rfl, -⟩ := h.of_isQuote hb
  exact List.mem_append_right _ (List.mem_singleton_self b)

theorem IsQuote.begins {q : UInt8} (h : IsQuote q) : Begins q :=
  ⟨[q], _, _, .quoted h List.not_mem_nil⟩

namespace Taken

variable {t : Bytes} {x y : Except Fault (Bytes × Kind × Bytes)}

theorem ne_nil (h : Taken t x) : t ≠ [] := by
  cases h with
  | token hlong hw =>
    rintro rfl
    exact hw.ne_nil (List.prefix_nil.mp hlong.front)
  | unknown => exact List.cons_ne_nil _ _
  | unterminated => exact List.cons_ne_nil _ _

theorem of_ok {w l : Bytes} {k : Kind} (h : Taken t (.ok (w, k, l))) :
    Longest IsSpelling t w ∧ Spelled w k l := by
  cases h with
  | token hlong hw => exact ⟨hlong, hw⟩

/-- No token begins where there is a fault. -/
theorem not_token {f : Fault} {w l : Bytes} {k : Kind} (h : Taken t (.error f))
    (hw : Spelled w k l) : ¬ w <+: t := by
  obtain ⟨b, v, rfl, hb, hclosed⟩ := hw.head
  intro hfront
  cases h with
  | unknown hno =>
    obtain ⟨rfl, -⟩ := List.cons_prefix_cons.mp hfront
    exact hno hb
  | unterminated hq hno =>
    obtain ⟨rfl, hv⟩ := List.cons_prefix_cons.mp hfront
    exact hno (hv.subset (hclosed hq))

theorem unique (h : Taken t x) (h' : Taken t y) : x = y := by
  cases h with
  | token hlong hw =>
    cases h' with
    | token hlong' hw' =>
      obtain rfl := hlong.unique hlong'
      obtain ⟨rfl, rfl⟩ := hw.unique hw'
      rfl
    | unknown hb => exact absurd hlong.front ((unknown hb).not_token hw)
    | unterminated hq hno => exact absurd hlong.front ((unterminated hq hno).not_token hw)
  | unknown hb =>
    cases h' with
    | token hlong hw => exact absurd hlong.front ((unknown hb).not_token hw)
    | unknown => rfl
    | unterminated hq _ => exact absurd hq.begins hb
  | unterminated hq hno =>
    cases h' with
    | token hlong hw => exact absurd hlong.front ((unterminated hq hno).not_token hw)
    | unknown hb => exact absurd hq.begins hb
    | unterminated => rfl

end Taken

theorem Longest.append_inj {P : Bytes → Prop} {a b a' b' : Bytes} (h : Longest P (a ++ b) a)
    (h' : Longest P (a' ++ b') a') (heq : a ++ b = a' ++ b') : a = a' ∧ b = b' := by
  rw [← heq] at h'
  obtain rfl := h.unique h'
  exact ⟨rfl, List.append_cancel_left heq⟩

theorem Longest.not_skipped {gap rest : Bytes} (h : Longest Skipped (gap ++ rest) gap)
    (hrest : rest ≠ []) : ¬ Skipped (gap ++ rest) := by
  intro hall
  have hle := h.longest hall (List.prefix_refl _)
  have hpos := List.length_pos_iff.mpr hrest
  rw [List.length_append] at hle
  omega

/-- A text is read in one way only. -/
theorem Reads.unique (h : Reads s r) (h' : Reads s r') : r = r' := by
  induction h generalizing r' with
  | finished hs =>
    cases h' with
    | finished _ => rfl
    | broken hgap hf => exact absurd hs (hgap.not_skipped hf.ne_nil)
    | token hgap ht _ => exact absurd hs (hgap.not_skipped ht.ne_nil)
  | @broken gap rest f hgap hf =>
    generalize hs : gap ++ rest = s at h'
    cases h' with
    | finished h => exact absurd (hs ▸ h) (hgap.not_skipped hf.ne_nil)
    | broken hgap' hf' =>
      obtain ⟨rfl, rfl⟩ := hgap.append_inj hgap' hs
      cases hf.unique hf'
      rfl
    | token hgap' ht' _ =>
      obtain ⟨rfl, rfl⟩ := hgap.append_inj hgap' hs
      cases hf.unique ht'
  | @token gap w rest l k r hgap ht hr ih =>
    generalize hs : gap ++ (w ++ rest) = s at h'
    cases h' with
    | finished h => exact absurd (hs ▸ h) (hgap.not_skipped ht.ne_nil)
    | broken hgap' hf' =>
      obtain ⟨rfl, rfl⟩ := hgap.append_inj hgap' hs
      cases ht.unique hf'
    | token hgap' ht' hr' =>
      obtain ⟨rfl, hrest⟩ := hgap.append_inj hgap' hs
      rw [← hrest] at ht'
      cases ht.unique ht'
      obtain rfl := List.append_cancel_left hrest
      rw [ih hr']

theorem Reads.sound (h : Reads s r) : ∀ x ∈ r.pieces, x.Sound := by
  induction h with
  | finished => nofun
  | broken => nofun
  | token hgap ht _ ih =>
    simp only [List.mem_cons, forall_eq_or_imp]
    exact ⟨⟨hgap.holds, ht.of_ok.2⟩, ih⟩

theorem Reads.exists_append (h : Reads s r) :
    ∃ rest, s = r.cover ++ rest ∧ (r.fault = none → rest = []) := by
  induction h with
  | @finished s => exact ⟨[], by simp [Reading.cover, Piece.cover], fun _ => rfl⟩
  | @broken gap rest => exact ⟨rest, rfl, nofun⟩
  | @token gap w rest l k r _ _ _ ih =>
    obtain ⟨rest', hrest, hfault⟩ := ih
    refine ⟨rest', ?_, hfault⟩
    rw [hrest]
    simp [Reading.cover, Piece.cover]

end Reads

end CornScript.Token
