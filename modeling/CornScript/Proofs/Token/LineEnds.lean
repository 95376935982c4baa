import CornScript.Proofs.Token.Scan
import Mathlib.Data.List.TakeWhile

/-! # Carriage returns at the ends of lines

A text may end its lines with `\n` or with `\r\n`. A carriage return in front of a line end is a
blank, or part of a comment or of a string, and no other token goes on in it, as none goes on in the
line end. Only the line end itself stands further right. So the tokens are the same, at the same
places, and only strings that go over several lines have the longer line ends in them.
-/

namespace CornScript

open Bytes (newline)

def Bytes.crlf (s : Bytes) : Bytes :=
  s.flatMap fun b => if b = newline then [0x0D, newline] else [b]

/-- The literal of a token of this kind in the text with carriage returns. Only strings have line
ends in them. -/
def Token.Kind.crlf (literal : Bytes) : Token.Kind → Bytes
  | .string | .illegal .unterminatedString => Bytes.crlf literal
  | _ => literal

def Token.crlf (t : Token) : Token :=
  { t with literal := t.kind.crlf t.literal }

namespace Bytes

variable {s w : Bytes} {b : UInt8} {p : UInt8 → Bool}

theorem crlf_nil : crlf [] = [] := rfl

theorem crlf_newline (s : Bytes) : crlf (newline :: s) = 0x0D :: newline :: crlf s := rfl

theorem crlf_cons (h : b ≠ newline) (s : Bytes) : crlf (b :: s) = b :: crlf s := by
  rw [crlf, List.flatMap_cons, if_neg h]
  rfl

@[simp] theorem crlf_append (s w : Bytes) : crlf (s ++ w) = crlf s ++ crlf w :=
  List.flatMap_append

theorem crlf_eq_self (h : newline ∉ w) : crlf w = w := by
  induction w with
  | nil => rfl
  | cons b w ih =>
    rw [List.mem_cons, not_or] at h
    rw [crlf_cons (Ne.symm h.1), ih h.2]

theorem crlf_eq_nil_iff : crlf s = [] ↔ s = [] := by
  cases s with
  | nil => simp [crlf]
  | cons b s =>
    by_cases hb : b = newline
    · simp [hb, crlf_newline]
    · simp [crlf_cons hb]

theorem head?_crlf_eq_iff (hb : b ≠ 0x0D) (hn : b ≠ newline) :
    (crlf s).head? = some b ↔ s.head? = some b := by
  cases s with
  | nil => rfl
  | cons c s =>
    by_cases hc : c = newline
    · simp [hc, crlf_newline, Ne.symm hb, Ne.symm hn]
    · simp [crlf_cons hc]

/-- A run of bytes that takes in both or neither of the bytes of a line end. -/
theorem span_crlf (h : p 0x0D = p newline) (s : Bytes) :
    (crlf s).takeWhile p = crlf (s.takeWhile p) ∧ (crlf s).dropWhile p = crlf (s.dropWhile p) := by
  induction s with
  | nil => exact ⟨rfl, rfl⟩
  | cons b s ih =>
    by_cases hb : b = newline
    · subst hb
      cases hp : p newline <;> simp [crlf_newline, crlf_nil, h, hp, ih]
    · cases hp : p b <;> simp [crlf_cons hb, crlf_nil, hp, ih]

theorem cut_crlf (n : Nat) (s : Bytes) :
    (crlf s).take (crlf (s.take n)).length = crlf (s.take n) ∧
      (crlf s).drop (crlf (s.take n)).length = crlf (s.drop n) := by
  have hsplit : crlf s = crlf (s.take n) ++ crlf (s.drop n) := by
    rw [← crlf_append, List.take_append_drop]
  rw [hsplit, List.take_left, List.drop_left]
  exact ⟨rfl, rfl⟩

theorem newline_not_mem_takeWhile (h : p newline = false) (s : Bytes) :
    newline ∉ s.takeWhile p := by
  intro hmem
  rw [List.mem_takeWhile_imp hmem] at h
  cases h

theorem takeWhile_crlf (hr : p 0x0D = false) (hn : p newline = false) (s : Bytes) :
    (crlf s).takeWhile p = s.takeWhile p := by
  rw [(span_crlf (hr.trans hn.symm) s).1, crlf_eq_self (newline_not_mem_takeWhile hn s)]

theorem length_crlf_lt_iff (h : w <+: s) : (crlf w).length < (crlf s).length ↔
    w.length < s.length := by
  obtain ⟨t, rfl⟩ := h
  have hnil := List.length_pos_iff (l := crlf t)
  rw [ne_eq, crlf_eq_nil_iff, ← ne_eq, ← List.length_pos_iff] at hnil
  rw [crlf_append, List.length_append, List.length_append]
  omega

end Bytes

theorem Pos.after_crlf (p : Pos) (s : Bytes) : p.after (Bytes.crlf s) = p.after s := by
  induction s generalizing p with
  | nil => rfl
  | cons b s ih =>
    by_cases hb : b = newline
    · subst hb
      exact ih (p.step newline)
    · rw [Bytes.crlf_cons hb]
      exact ih (p.step b)

namespace Token

variable {s rest literal : Bytes} {b : UInt8} {p : Pos}

theorem Kind.crlf_eq_self (h : newline ∉ literal) (k : Kind) : k.crlf literal = literal := by
  unfold Kind.crlf
  split
  · exact Bytes.crlf_eq_self h
  · exact Bytes.crlf_eq_self h
  · rfl

theorem skip_crlf (inside : Bool) (s : Bytes) (p : Pos) :
    skip inside (Bytes.crlf s) p = (Bytes.crlf (skip inside s p).1, (skip inside s p).2) := by
  induction s generalizing inside p with
  | nil => rfl
  | cons b s ih =>
    by_cases hb : b = newline
    · subst hb
      cases inside <;> exact ih false (p.step newline)
    · have hhead : (Bytes.crlf s).head? = some 0x2F ↔ s.head? = some 0x2F :=
        Bytes.head?_crlf_eq_iff (by decide) (by decide)
      rw [Bytes.crlf_cons hb]
      simp only [skip, hhead, ih]
      split
      · rfl
      · split
        · rfl
        · split
          · rfl
          · rw [Bytes.crlf_cons hb]

namespace Lexeme

def crlf (s : Bytes) (x : Lexeme) : Lexeme :=
  ⟨x.kind, x.kind.crlf x.literal, (Bytes.crlf (s.take x.width)).length⟩

/-- A lexeme without line ends stays as it is. -/
theorem crlf_eq_self {x : Lexeme} (hliteral : x.kind.crlf x.literal = x.literal)
    (hwidth : x.width ≤ s.length) (htake : newline ∉ s.take x.width) : x.crlf s = x := by
  rw [crlf, hliteral, Bytes.crlf_eq_self htake, List.length_take_of_le hwidth]

/-- Its literal is what a lexeme covers, and no line ends are in that. -/
theorem crlf_eq_self_of_front {k : Kind} {w : Bytes} (hw : newline ∉ w) (hs : w <+: s) :
    crlf s ⟨k, w, w.length⟩ = ⟨k, w, w.length⟩ := by
  apply crlf_eq_self
  · exact k.crlf_eq_self hw
  · exact hs.length_le
  · rwa [← List.prefix_iff_eq_take.mp hs]

theorem single_crlf (h : b ≠ newline) (k : Kind) (rest : Bytes) :
    (single k b).crlf (b :: rest) = single k b := by
  apply crlf_eq_self_of_front (w := [b])
  · simpa using Ne.symm h
  · exact ⟨rest, rfl⟩

theorem extended_crlf (h : b ≠ newline) (short long : Kind) (rest : Bytes) :
    extended short long b (Bytes.crlf rest) = (extended short long b rest).crlf (b :: rest) := by
  have hhead : (Bytes.crlf rest).head? = some 0x3D ↔ rest.head? = some 0x3D :=
    Bytes.head?_crlf_eq_iff (by decide) (by decide)
  simp only [extended, hhead]
  split
  · next hequal =>
    obtain ⟨t, rfl⟩ := List.head?_eq_some_iff.mp hequal
    have hno : newline ∉ [b, 0x3D] := by
      simp only [List.mem_cons, not_or]
      exact ⟨Ne.symm h, by decide, List.not_mem_nil⟩
    exact (crlf_eq_self_of_front hno ⟨t, rfl⟩).symm
  · exact (single_crlf h short rest).symm

theorem word_crlf (h : b ≠ newline) (rest : Bytes) :
    word b (Bytes.crlf rest) = (word b rest).crlf (b :: rest) := by
  have hrun : (Bytes.crlf rest).takeWhile isWordByte = rest.takeWhile isWordByte :=
    Bytes.takeWhile_crlf rfl rfl rest
  have hno : newline ∉ b :: rest.takeWhile isWordByte := by
    rw [List.mem_cons, not_or]
    exact ⟨Ne.symm h, Bytes.newline_not_mem_takeWhile rfl rest⟩
  have hfront : b :: rest.takeWhile isWordByte <+: b :: rest :=
    List.cons_prefix_cons.mpr ⟨rfl, List.takeWhile_prefix _⟩
  simp only [word, hrun]
  exact (crlf_eq_self_of_front hno hfront).symm

def fraction : Bytes → Bytes
  | 0x2E :: s => match s.takeWhile Bytes.isDigit with
    | [] => []
    | digits => 0x2E :: digits
  | _ => []

theorem exists_numeral_eq (b : UInt8) (rest : Bytes) : ∃ w,
    w = b :: (rest.takeWhile Bytes.isDigit ++ fraction (rest.dropWhile Bytes.isDigit)) ∧
      numeral b rest = ⟨.number, w, w.length⟩ := by
  refine ⟨_, rfl, ?_⟩
  unfold numeral fraction
  generalize rest.dropWhile Bytes.isDigit = t
  dsimp only
  split
  · split
    · next hnone => simp [hnone]
    · simp
  · simp

theorem fraction_front (s : Bytes) : fraction s <+: s := by
  unfold fraction
  split
  · next s =>
    split
    · exact List.nil_prefix
    · exact List.cons_prefix_cons.mpr ⟨rfl, List.takeWhile_prefix _⟩
  · exact List.nil_prefix

theorem newline_not_mem_fraction (s : Bytes) : newline ∉ fraction s := by
  unfold fraction
  split
  · next s =>
    have hno : newline ∉ s.takeWhile Bytes.isDigit := Bytes.newline_not_mem_takeWhile rfl s
    split
    · exact List.not_mem_nil
    · rw [List.mem_cons, not_or]
      exact ⟨by decide, hno⟩
  · exact List.not_mem_nil

theorem fraction_crlf (s : Bytes) : fraction (Bytes.crlf s) = fraction s := by
  cases s with
  | nil => rfl
  | cons c s =>
    by_cases hc : c = newline
    · subst hc
      rfl
    · have hrun : (Bytes.crlf s).takeWhile Bytes.isDigit = s.takeWhile Bytes.isDigit :=
        Bytes.takeWhile_crlf rfl rfl s
      rw [Bytes.crlf_cons hc]
      unfold fraction
      split
      · next heq =>
        cases heq
        rw [hrun]
        rfl
      · next hpoint =>
        split
        · next heq =>
          cases heq
          exact absurd rfl (hpoint _)
        · rfl

theorem numeral_crlf (h : b ≠ newline) (rest : Bytes) :
    numeral b (Bytes.crlf rest) = (numeral b rest).crlf (b :: rest) := by
  obtain ⟨w, hw, hnumeral⟩ := exists_numeral_eq b rest
  obtain ⟨w', hw', hnumeral'⟩ := exists_numeral_eq b (Bytes.crlf rest)
  have hrun : (Bytes.crlf rest).takeWhile Bytes.isDigit = rest.takeWhile Bytes.isDigit :=
    Bytes.takeWhile_crlf rfl rfl rest
  have hdrop : (Bytes.crlf rest).dropWhile Bytes.isDigit =
      Bytes.crlf (rest.dropWhile Bytes.isDigit) := (Bytes.span_crlf rfl rest).2
  have hsame : w' = w := by rw [hw', hw, hrun, hdrop, fraction_crlf]
  have hno : newline ∉ w := by
    have hdigits : newline ∉ rest.takeWhile Bytes.isDigit :=
      Bytes.newline_not_mem_takeWhile rfl rest
    simp only [hw, List.mem_cons, List.mem_append, not_or]
    exact ⟨Ne.symm h, hdigits, newline_not_mem_fraction _⟩
  have hfront : w <+: b :: rest := by
    have hrest := (List.prefix_append_right_inj (rest.takeWhile Bytes.isDigit)).mpr
      (fraction_front (rest.dropWhile Bytes.isDigit))
    rw [List.takeWhile_append_dropWhile] at hrest
    rw [hw]
    exact List.cons_prefix_cons.mpr ⟨rfl, hrest⟩
  rw [hnumeral', hnumeral, hsame, crlf_eq_self_of_front hno hfront]

theorem quoted_crlf {quote : UInt8} (hr : quote ≠ 0x0D) (hn : quote ≠ newline) (rest : Bytes) :
    quoted quote (Bytes.crlf rest) = (quoted quote rest).crlf (quote :: rest) := by
  have hboth : decide (0x0D ≠ quote) = decide (newline ≠ quote) := by
    rw [decide_eq_true (Ne.symm hr), decide_eq_true (Ne.symm hn)]
  have hinner := (Bytes.span_crlf (p := (· ≠ quote)) hboth rest).1
  have hlength := Bytes.length_crlf_lt_iff (List.takeWhile_prefix (· ≠ quote) (l := rest))
  have hsplit := List.takeWhile_append_dropWhile (p := (· ≠ quote)) (l := rest)
  have hhead := List.head?_dropWhile_not (· ≠ quote) rest
  simp only [quoted, hinner, hlength]
  generalize rest.takeWhile (· ≠ quote) = inner at *
  generalize rest.dropWhile (· ≠ quote) = t at *
  subst hsplit
  cases t with
  | nil => simp [crlf, Kind.crlf, Bytes.crlf_cons hn]
  | cons c t =>
    obtain rfl : c = quote := by simpa using hhead
    have hlt : inner.length < (inner ++ c :: t).length := by simp
    have htext : c :: (inner ++ c :: t) = c :: (inner ++ [c]) ++ t := by simp
    have htake : (c :: (inner ++ c :: t)).take (inner.length + 2) = c :: (inner ++ [c]) := by
      rw [htext, List.take_left' (by simp)]
    rw [if_pos hlt, if_pos hlt, crlf, htake]
    simp [Kind.crlf, Bytes.crlf_cons hn, Bytes.crlf_nil]

theorem front_crlf (h : b ≠ newline) (rest : Bytes) :
    front b (Bytes.crlf rest) = (front b rest).crlf (b :: rest) := by
  unfold front
  generalize Char.ofUInt8 b = c
  split
  case h_20 =>
    split
    · next hquote =>
      simp only [Bool.or_eq_true, decide_eq_true_eq] at hquote
      apply quoted_crlf
      · rcases hquote with rfl | rfl <;> decide
      · exact h
    · split
      · exact word_crlf h rest
      · split
        · exact numeral_crlf h rest
        · simp [crlf, Kind.crlf, Bytes.crlf_cons h, Bytes.crlf_nil]
  all_goals
    first
      | exact extended_crlf h _ _ rest
      | exact (single_crlf h _ rest).symm

end Lexeme

theorem ne_newline_of_skip {inside : Bool} {q : Pos} (h : skip inside s p = (b :: rest, q)) :
    b ≠ newline := by
  induction s generalizing inside p with
  | nil => cases h
  | cons c s ih =>
    unfold skip at h
    split at h
    · exact ih h
    · split at h
      · exact ih h
      · next hblank =>
        split at h
        · exact ih h
        · cases h
          rintro rfl
          exact hblank rfl

theorem skip_crlf_cons {q : Pos} (h : skip false s p = (b :: rest, q)) :
    skip false (Bytes.crlf s) p = (b :: Bytes.crlf rest, q) := by
  rw [skip_crlf, h, Bytes.crlf_cons (ne_newline_of_skip h)]

theorem illegal?_map_crlf (tokens : List Token) :
    illegal? (tokens.map Token.crlf) = illegal? tokens := by
  rw [illegal?, illegal?, List.findSome?_map]
  rfl

theorem scanFrom_crlf (s : Bytes) (p : Pos) :
    scanFrom (Bytes.crlf s) p = (scanFrom s p).map Token.crlf := by
  fun_induction scanFrom s p with
  | case1 s p q h =>
    have h' : skip false (Bytes.crlf s) p = ([], q) := by rw [skip_crlf, h]; rfl
    rw [scanFrom_of_skip_nil h']
    rfl
  | case2 s p b rest q h lexeme token next hk =>
    have hb := ne_newline_of_skip h
    rw [scanFrom_of_skip_cons (skip_crlf_cons h), Lexeme.front_crlf hb, ← Bytes.crlf_cons hb]
    dsimp only [Lexeme.crlf]
    rw [if_pos hk, (Bytes.cut_crlf _ _).1, Pos.after_crlf]
    rfl
  | case3 s p b rest q h lexeme token next hk ih =>
    have hb := ne_newline_of_skip h
    rw [scanFrom_of_skip_cons (skip_crlf_cons h), Lexeme.front_crlf hb, ← Bytes.crlf_cons hb]
    dsimp only [Lexeme.crlf]
    -- Both texts are cut behind the same lexeme, so what is left of them differs in line ends only.
    rw [if_neg hk, (Bytes.cut_crlf _ _).1, (Bytes.cut_crlf _ _).2, Pos.after_crlf, ih]
    rfl

/-- With a carriage return in front of each line end, a text has the same tokens at the same places,
with the same fault if there is one. Only strings have the longer line ends in their literals. -/
theorem scan_crlf (source : Bytes) :
    scan (Bytes.crlf source) = (scan source).map Token.crlf ∧
      illegal? (scan (Bytes.crlf source)) = illegal? (scan source) := by
  have htext := (Bytes.span_crlf (p := (· ≠ 0)) rfl source).1
  have hscan : scan (Bytes.crlf source) = (scan source).map Token.crlf := by
    rw [scan, scan, htext, scanFrom_crlf]
  exact ⟨hscan, hscan ▸ illegal?_map_crlf _⟩

end Token

end CornScript
