import CornScript.Token.Lexer

/-! # The tokens of a text

A text without lexical errors has plain tokens only and then the end of input. No two tokens begin
at the same place, so a place that is reported names one token.
-/

namespace CornScript

namespace Pos

instance : LE Pos := ⟨fun p q => p.line < q.line ∨ p.line = q.line ∧ p.column ≤ q.column⟩

instance : LT Pos := ⟨fun p q => p.line < q.line ∨ p.line = q.line ∧ p.column < q.column⟩

variable {p q r : Pos}

theorem le_def : p ≤ q ↔ p.line < q.line ∨ p.line = q.line ∧ p.column ≤ q.column := Iff.rfl

theorem lt_def : p < q ↔ p.line < q.line ∨ p.line = q.line ∧ p.column < q.column := Iff.rfl

theorem le_refl (p : Pos) : p ≤ p := .inr ⟨rfl, Nat.le_refl _⟩

theorem ne_of_lt (h : p < q) : p ≠ q := by
  rintro rfl
  simp [lt_def] at h

theorem le_trans (h : p ≤ q) (h' : q ≤ r) : p ≤ r := by
  rw [le_def] at *
  omega

theorem lt_of_lt_of_le (h : p < q) (h' : q ≤ r) : p < r := by
  rw [le_def] at h'
  rw [lt_def] at *
  omega

theorem lt_step (p : Pos) (b : UInt8) : p < p.step b := by
  unfold step
  split <;> simp [lt_def]

theorem le_of_lt (h : p < q) : p ≤ q := by
  rw [lt_def] at h
  rw [le_def]
  omega

theorem le_after (p : Pos) (s : Bytes) : p ≤ p.after s := by
  induction s generalizing p with
  | nil => exact le_refl p
  | cons b s ih => exact le_trans (le_of_lt (lt_step p b)) (ih (p.step b))

theorem lt_after {s : Bytes} (h : s ≠ []) (p : Pos) : p < p.after s := by
  cases s with
  | nil => exact absurd rfl h
  | cons b s => exact lt_of_lt_of_le (lt_step p b) (le_after (p.step b) s)

theorem after_append (p : Pos) (a b : Bytes) : p.after (a ++ b) = (p.after a).after b :=
  List.foldl_append

end Pos

namespace Token

variable {s source : Bytes} {p : Pos}

theorem le_snd_skip (inside : Bool) (s : Bytes) (p : Pos) : p ≤ (skip inside s p).2 := by
  induction s generalizing inside p with
  | nil => exact Pos.le_refl p
  | cons b rest ih =>
    have later (inside : Bool) : p ≤ (skip inside rest (p.step b)).2 :=
      Pos.le_trans (Pos.le_of_lt (Pos.lt_step p b)) (ih inside (p.step b))
    unfold skip
    split
    · exact later _
    · split
      · exact later _
      · split
        · exact later _
        · exact Pos.le_refl p

/-- Tokens come in the order of their places, the first not before `p`. -/
def Ordered (p : Pos) (tokens : List Token) : Prop :=
  (∀ t ∈ tokens, p ≤ t.pos) ∧ tokens.Pairwise (·.pos < ·.pos)

theorem Ordered.cons {q : Pos} {t : Token} {tokens : List Token} (h : Ordered q tokens)
    (hp : p ≤ t.pos) (ht : t.pos < q) : Ordered p (t :: tokens) := by
  have hlt (t') (h' : t' ∈ tokens) : t.pos < t'.pos := Pos.lt_of_lt_of_le ht (h.1 t' h')
  constructor
  · simp only [List.mem_cons, forall_eq_or_imp]
    exact ⟨hp, fun t' h' => Pos.le_trans hp (Pos.le_of_lt (hlt t' h'))⟩
  · exact List.pairwise_cons.mpr ⟨hlt, h.2⟩

theorem ordered_endAt {q : Pos} (h : p ≤ q) : Ordered p [endAt q] := by
  simp [Ordered, endAt, h]

theorem take_front_ne_nil (b : UInt8) (rest : Bytes) :
    (b :: rest).take (Lexeme.front b rest).width ≠ [] := by
  have hw := Lexeme.width_front_pos b rest
  rw [ne_eq, List.take_eq_nil_iff]
  simp only [reduceCtorEq, or_false]
  omega

theorem ordered_scanFrom (s : Bytes) (p : Pos) : Ordered p (scanFrom s p) := by
  fun_induction scanFrom s p with
  | case1 s p q h =>
    have hle := le_snd_skip false s p
    rw [h] at hle
    exact ordered_endAt hle
  | case2 s p b rest q h lexeme token next hk =>
    have hle := le_snd_skip false s p
    rw [h] at hle
    have hlt : q < next := Pos.lt_after (take_front_ne_nil b rest) q
    exact (ordered_endAt (Pos.le_refl next)).cons hle hlt
  | case3 s p b rest q h lexeme token next hk ih =>
    have hle := le_snd_skip false s p
    rw [h] at hle
    have hlt : q < next := Pos.lt_after (take_front_ne_nil b rest) q
    exact ih.cons hle hlt

theorem ordered_scan (source : Bytes) : Ordered Pos.start (scan source) :=
  ordered_scanFrom _ _

theorem Kind.holds_ofWord {P : Kind → Prop} (hident : P ident) (hwords : ∀ r ∈ words, P r.2)
    (w : Bytes) : P (ofWord w) := by
  unfold ofWord
  cases h : words.lookup w with
  | none => exact hident
  | some k =>
    obtain ⟨before, behind, heq, -⟩ := List.lookup_eq_some_iff.mp h
    exact hwords (w, k) (by rw [heq]; simp)

theorem Kind.ofWord_ne_endOfInput (w : Bytes) : ofWord w ≠ .endOfInput :=
  holds_ofWord (P := (· ≠ .endOfInput)) nofun (by decide) w

theorem Lexeme.kind_extended_ne_endOfInput {short long : Kind} (b : UInt8) (rest : Bytes)
    (hs : short ≠ .endOfInput) (hl : long ≠ .endOfInput) :
    (extended short long b rest).kind ≠ .endOfInput := by
  unfold extended
  split
  · exact hl
  · exact hs

/-- Only the end of a text is read as the end of input. -/
theorem Lexeme.kind_front_ne_endOfInput (b : UInt8) (rest : Bytes) :
    (front b rest).kind ≠ .endOfInput := by
  unfold front
  split
  -- The last case is that of a byte which no operator begins with.
  case h_20 =>
    split
    · unfold quoted
      dsimp only
      split <;> nofun
    · split
      · exact Kind.ofWord_ne_endOfInput _
      · split <;> nofun
  all_goals first
    | exact kind_extended_ne_endOfInput b rest nofun nofun
    | exact Kind.noConfusion

theorem exists_scanFrom_eq (s : Bytes) (p : Pos) :
    ∃ ts q, scanFrom s p = ts ++ [endAt q] ∧ ∀ t ∈ ts, t.kind ≠ .endOfInput := by
  fun_induction scanFrom s p with
  | case1 s p q => exact ⟨[], q, rfl, nofun⟩
  | case2 s p b rest q _ lexeme token next =>
    refine ⟨[token], next, rfl, ?_⟩
    exact List.forall_mem_singleton.mpr (Lexeme.kind_front_ne_endOfInput b rest)
  | case3 s p b rest q _ lexeme token next _ ih =>
    obtain ⟨ts, q', hscan, hts⟩ := ih
    refine ⟨token :: ts, q', congrArg (token :: ·) hscan, ?_⟩
    exact List.forall_mem_cons.mpr ⟨Lexeme.kind_front_ne_endOfInput b rest, hts⟩

theorem scanFrom_of_skip_nil {q : Pos} (h : skip false s p = ([], q)) :
    scanFrom s p = [endAt q] := by
  rw [scanFrom]
  split
  · next hskip =>
    rw [h] at hskip
    cases hskip
    rfl
  · next hskip =>
    rw [h] at hskip
    cases hskip

theorem scanFrom_of_skip_cons {b : UInt8} {rest : Bytes} {q : Pos}
    (h : skip false s p = (b :: rest, q)) : scanFrom s p =
      let lexeme := Lexeme.front b rest
      let next := q.after ((b :: rest).take lexeme.width)
      if lexeme.kind.isIllegal then [⟨lexeme.kind, lexeme.literal, q⟩, endAt next]
      else ⟨lexeme.kind, lexeme.literal, q⟩ :: scanFrom ((b :: rest).drop lexeme.width) next := by
  rw [scanFrom]
  split
  · next hskip =>
    rw [h] at hskip
    cases hskip
  · next hskip =>
    rw [h] at hskip
    cases hskip
    rfl

theorem exists_scan_eq (source : Bytes) :
    ∃ ts q, scan source = ts ++ [endAt q] ∧ ∀ t ∈ ts, t.kind ≠ .endOfInput :=
  exists_scanFrom_eq _ _

theorem skip_blanks (n : Nat) (s : Bytes) (p : Pos) :
    skip false (List.replicate n 0x20 ++ s) p = skip false s (p.after (List.replicate n 0x20)) := by
  induction n generalizing p with
  | zero => rfl
  | succ n ih => exact ih (p.step 0x20)

theorem scanFrom_blanks (n : Nat) (s : Bytes) (p : Pos) :
    scanFrom (List.replicate n 0x20 ++ s) p = scanFrom s (p.after (List.replicate n 0x20)) := by
  have h := skip_blanks n s p
  rw [scanFrom, scanFrom]
  generalize skip false (List.replicate n 0x20 ++ s) p = x at h
  subst h
  rfl

theorem Kind.exists_of_isIllegal {kind : Kind} (h : kind.isIllegal) :
    ∃ fault, kind = .illegal fault := by
  cases kind with
  | illegal fault => exact ⟨fault, rfl⟩
  | _ => cases h

/-- The token is one that a text can have before its end. -/
def Plain (t : Token) : Prop :=
  t.kind ≠ .endOfInput ∧ t.kind.isIllegal = false

instance (t : Token) : Decidable t.Plain := inferInstanceAs (Decidable (_ ∧ _))

def Lexed (tokens : List Token) : Prop :=
  ∃ ts last, tokens = ts ++ [last] ∧ last.kind = .endOfInput ∧ ∀ t ∈ ts, t.Plain

theorem illegal?_eq_none_iff {tokens : List Token} :
    illegal? tokens = none ↔ ∀ t ∈ tokens, t.kind.isIllegal = false := by
  rw [illegal?, List.findSome?_eq_none_iff]
  refine forall_congr' fun t => imp_congr_right fun _ => ?_
  cases t.kind <;> simp [Kind.isIllegal]

theorem lexed_scanFrom (s : Bytes) (p : Pos) (h : illegal? (scanFrom s p) = none) :
    Lexed (scanFrom s p) := by
  rw [illegal?_eq_none_iff] at h
  obtain ⟨ts, q, hscan, hts⟩ := exists_scanFrom_eq s p
  rw [hscan] at h ⊢
  exact ⟨ts, endAt q, rfl, rfl, fun t ht => ⟨hts t ht, h t (List.mem_append_left _ ht)⟩⟩

theorem lexed_scan (h : illegal? (scan source) = none) : Lexed (scan source) :=
  lexed_scanFrom _ _ h

end Token

end CornScript
