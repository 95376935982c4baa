import CornScript.Proofs.Token.Spelling
import Mathlib.Data.List.TakeWhile

/-! # The longest token

The cursor skips the longest piece of blanks and comments, and the lexeme at the front of the rest
is the longest token there, or the fault. So the tokens of a text are those of its one reading.
-/

namespace CornScript.Token

open Bytes (isLetter isDigit newline)
open Lexeme (isWordByte)

section Skipped

variable {s rest : Bytes} {b : UInt8}

theorem skipped_blank_iff (hb : isBlank b) : Skipped (b :: s) ↔ Skipped s := by
  constructor
  · intro h
    cases h with
    | blank _ h => exact h
    | comment => cases hb
    | lastComment => cases hb
  · exact .blank hb

theorem skipped_slashes_iff : Skipped (0x2F :: 0x2F :: s) ↔
    newline ∉ s ∨ ∃ c t, s = c ++ newline :: t ∧ newline ∉ c ∧ Skipped t := by
  constructor
  · intro h
    cases h with
    | blank hb => cases hb
    | comment hc ht => exact .inr ⟨_, _, rfl, hc, ht⟩
    | lastComment hc => exact .inl hc
  · rintro (hs | ⟨c, t, rfl, hc, ht⟩)
    · exact .lastComment hs
    · exact .comment hc ht

def SkippedWithin : Bool → Bytes → Prop
  | false, s => Skipped s
  | true, s => Skipped (0x2F :: 0x2F :: s)

theorem skipped_comment_iff :
    Skipped (0x2F :: 0x2F :: b :: s) ↔ SkippedWithin (b ≠ newline) s := by
  rw [skipped_slashes_iff]
  by_cases hb : b = newline
  · subst hb
    simp only [ne_eq, not_true_eq_false, decide_false, SkippedWithin, List.mem_cons, true_or,
      false_or]
    constructor
    · rintro ⟨c, t, hs, hc, ht⟩
      cases c with
      | nil =>
        cases hs
        exact ht
      | cons d c =>
        cases hs
        simp at hc
    · exact fun h => ⟨[], s, rfl, List.not_mem_nil, h⟩
  · simp only [ne_eq, hb, not_false_eq_true, decide_true, SkippedWithin, skipped_slashes_iff,
      List.mem_cons, Ne.symm hb, false_or]
    refine or_congr_right ⟨?_, ?_⟩
    · rintro ⟨c, t, hs, hc, ht⟩
      cases c with
      | nil =>
        cases hs
        exact absurd rfl hb
      | cons d c =>
        cases hs
        exact ⟨c, t, rfl, fun h => hc (List.mem_cons_of_mem _ h), ht⟩
    · rintro ⟨c, t, rfl, hc, ht⟩
      exact ⟨b :: c, t, rfl, by simp [hc, Ne.symm hb], ht⟩

theorem longest_skipped_nil (hb : ¬ isBlank b) (hc : ¬ (b = 0x2F ∧ rest.head? = some 0x2F)) :
    Longest Skipped (b :: rest) [] where
  holds := .nil
  front := List.nil_prefix
  longest {v} hv hs := by
    cases hv with
    | nil => exact Nat.le_refl _
    | blank hb' _ =>
      obtain ⟨rfl, -⟩ := List.cons_prefix_cons.mp hs
      exact absurd hb' hb
    | comment =>
      obtain ⟨rfl, t, rfl⟩ := List.cons_prefix_cons.mp hs
      exact absurd ⟨rfl, rfl⟩ hc
    | lastComment =>
      obtain ⟨rfl, t, rfl⟩ := List.cons_prefix_cons.mp hs
      exact absurd ⟨rfl, rfl⟩ hc

/-- Two slashes begin a comment: the second one may be taken for its first byte. -/
theorem longest_skipped_slash {gap : Bytes}
    (h : Longest (SkippedWithin true) (0x2F :: rest) gap) :
    Longest Skipped (0x2F :: 0x2F :: rest) (0x2F :: gap) := by
  have hslash {t : Bytes} : SkippedWithin true (0x2F :: t) ↔ Skipped (0x2F :: 0x2F :: t) :=
    skipped_comment_iff
  apply h.cons
  · have hlen : 1 ≤ gap.length :=
      h.longest (hslash.mpr (.lastComment List.not_mem_nil))
        (List.cons_prefix_cons.mpr ⟨rfl, List.nil_prefix⟩)
    cases gap with
    | nil => cases hlen
    | cons c gap =>
      obtain ⟨rfl, -⟩ := List.cons_prefix_cons.mp h.front
      exact hslash.mp h.holds
  · intro v hv
    cases hv with
    | blank hb => cases hb
    | comment hc ht => exact hslash.mpr (.comment hc ht)
    | lastComment hc => exact hslash.mpr (.lastComment hc)

/-- What is skipped is the longest piece that can be skipped. -/
theorem skip_longest (inside : Bool) (s : Bytes) (p : Pos) :
    ∃ gap, s = gap ++ (skip inside s p).1 ∧ (skip inside s p).2 = p.after gap ∧
      Longest (SkippedWithin inside) s gap := by
  induction s generalizing inside p with
  | nil =>
    refine ⟨[], rfl, rfl, ?_, List.nil_prefix, fun _ hs => hs.length_le⟩
    cases inside with
    | false => exact .nil
    | true => exact .lastComment List.not_mem_nil
  | cons b rest ih =>
    -- The first byte is skipped, and then whatever the rest of the text allows.
    have step {inside' : Bool} (heq : skip inside (b :: rest) p = skip inside' rest (p.step b))
        (hlong : ∀ {gap}, Longest (SkippedWithin inside') rest gap →
          Longest (SkippedWithin inside) (b :: rest) (b :: gap)) :
        ∃ gap, b :: rest = gap ++ (skip inside (b :: rest) p).1 ∧
          (skip inside (b :: rest) p).2 = p.after gap ∧
          Longest (SkippedWithin inside) (b :: rest) gap := by
      obtain ⟨gap, hrest, hpos, hgap⟩ := ih inside' (p.step b)
      rw [heq]
      exact ⟨b :: gap, congrArg (b :: ·) hrest, hpos, hlong hgap⟩
    cases inside with
    | true =>
      have hwithin {v : Bytes} : SkippedWithin true (b :: v) ↔ SkippedWithin (b ≠ newline) v :=
        skipped_comment_iff
      exact step rfl fun h => h.cons (hwithin.mpr h.holds) hwithin.mp
    | false =>
      by_cases hb : isBlank b
      · have heq : skip false (b :: rest) p = skip false rest (p.step b) := by simp [skip, hb]
        exact step heq fun h =>
          h.cons ((skipped_blank_iff hb).mpr h.holds) (skipped_blank_iff hb).mp
      · by_cases hc : b = 0x2F ∧ rest.head? = some 0x2F
        · obtain ⟨rfl, hhead⟩ := hc
          obtain ⟨t, rfl⟩ := List.head?_eq_some_iff.mp hhead
          exact step rfl longest_skipped_slash
        · refine ⟨[], ?_, ?_, longest_skipped_nil hb hc⟩ <;> simp [skip, hb, hc, Pos.after]

end Skipped

/-- A lexeme stands for what the text begins with. -/
inductive Front (b : UInt8) (rest : Bytes) : Lexeme → Prop where
  | token {w l : Bytes} {k : Kind} : Taken (b :: rest) (.ok (w, k, l)) →
    Front b rest ⟨k, l, w.length⟩
  | fault {l : Bytes} {f : Fault} {n : Nat} : Taken (b :: rest) (.error f) →
    Front b rest ⟨.illegal f, l, n⟩

namespace Front

variable {b : UInt8} {rest w l : Bytes} {k : Kind}

/-- A token is longest if it is so among those that begin with the same byte. -/
theorem of_longest (hw : Spelled w k l) (hfront : w <+: b :: rest)
    (hlong : ∀ {v k' l'}, Spelled (b :: v) k' l' → v <+: rest → (b :: v).length ≤ w.length) :
    Front b rest ⟨k, l, w.length⟩ := by
  refine .token (.token ⟨⟨k, l, hw⟩, hfront, ?_⟩ hw)
  rintro v ⟨k', l', hv⟩ hs
  obtain ⟨c, v, rfl⟩ := List.exists_cons_of_ne_nil hv.ne_nil
  obtain ⟨rfl, hrest⟩ := List.cons_prefix_cons.mp hs
  exact hlong hv hrest

theorem length_le_takeWhile {p : UInt8 → Bool} {v s : Bytes} (hv : ∀ c ∈ v, p c) (hs : v <+: s) :
    v.length ≤ (s.takeWhile p).length := by
  obtain ⟨t, rfl⟩ := hs
  rw [List.takeWhile_append_of_pos hv, List.length_append]
  exact Nat.le_add_right _ _

theorem takeWhile_cases (p : UInt8 → Bool) (s : Bytes) :
    s.takeWhile p = s ∨ ∃ c t, p c = false ∧ s.dropWhile p = c :: t ∧
      s = s.takeWhile p ++ c :: t := by
  have hs : s.takeWhile p ++ s.dropWhile p = s := List.takeWhile_append_dropWhile
  cases hd : s.dropWhile p with
  | nil =>
    rw [hd, List.append_nil] at hs
    exact .inl hs
  | cons c t =>
    have hc := List.head?_dropWhile_not p s
    rw [hd] at hc hs
    exact .inr ⟨c, t, hc, rfl, hs.symm⟩

theorem word (hb : isLetter b) : Front b rest (Lexeme.word b rest) := by
  refine of_longest (.word hb fun _ hc => List.mem_takeWhile_imp hc) ?_ ?_
  · exact List.cons_prefix_cons.mpr ⟨rfl, List.takeWhile_prefix _⟩
  · intro v k' l' hv hs
    exact Nat.succ_le_succ (length_le_takeWhile (hv.of_isLetter hb).1 hs)

theorem takeWhile_ne_append {q : UInt8} {inner t : Bytes} (h : q ∉ inner) :
    (inner ++ q :: t).takeWhile (· ≠ q) = inner := by
  rw [List.takeWhile_append_of_pos fun c hc => by simpa using ne_of_mem_of_not_mem hc h]
  simp

theorem quoted (hb : IsQuote b) : Front b rest (Lexeme.quoted b rest) := by
  have hinner : b ∉ rest.takeWhile (· ≠ b) := fun h => by simpa using List.mem_takeWhile_imp h
  unfold Lexeme.quoted
  rcases takeWhile_cases (· ≠ b) rest with heq | ⟨c, t, hc, -, heq⟩
  · rw [heq] at hinner
    rw [heq, if_neg (Nat.lt_irrefl _)]
    exact .fault (.unterminated hb hinner)
  · obtain rfl : c = b := by simpa using hc
    generalize rest.takeWhile (· ≠ c) = inner at heq hinner
    subst heq
    rw [if_pos (by simp)]
    have hlen : inner.length + 2 = (c :: (inner ++ [c])).length := by simp
    rw [hlen]
    refine of_longest (.quoted hb hinner) ?_ ?_
    · exact ⟨t, by simp⟩
    · rintro v k' l' hv ⟨u, hu⟩
      obtain ⟨inner', rfl, hinner', -⟩ := hv.of_isQuote hb
      rw [List.append_assoc, List.singleton_append] at hu
      rw [← takeWhile_ne_append hinner', hu, takeWhile_ne_append hinner]

/-- A number at the front of a text is no longer than the digits there, or it has a fraction. -/
theorem numeral_cases {s v : Bytes} (hv : Numeral v) (hs : v <+: s) :
    v.length ≤ (s.takeWhile isDigit).length ∨ ∃ f u, f ≠ [] ∧ (∀ d ∈ f, isDigit d) ∧
      s.dropWhile isDigit = 0x2E :: (f ++ u) ∧
      v.length = (s.takeWhile isDigit).length + f.length + 1 := by
  cases hv with
  | whole _ hd => exact .inl (length_le_takeWhile hd hs)
  | @fraction n f _ hd hf hdf =>
    obtain ⟨u, rfl⟩ := hs
    refine .inr ⟨f, u, hf, hdf, ?_, ?_⟩
    · rw [List.append_assoc, List.dropWhile_append_of_pos hd]
      rfl
    · rw [List.append_assoc, List.takeWhile_append_of_pos hd]
      simp [isDigit, Nat.add_assoc]

theorem numeral (hb : isDigit b) : Front b rest (Lexeme.numeral b rest) := by
  have hwhole : (b :: rest).takeWhile isDigit = b :: rest.takeWhile isDigit :=
    List.takeWhile_cons_of_pos hb
  have hdrop : (b :: rest).dropWhile isDigit = rest.dropWhile isDigit :=
    List.dropWhile_cons_of_pos hb
  have hdigits : ∀ d ∈ b :: rest.takeWhile isDigit, isDigit d := by
    rw [← hwhole]
    exact fun d hd => List.mem_takeWhile_imp hd
  have hcases {v k' l'} (hv : Spelled (b :: v) k' l') (hs : v <+: rest) :=
    numeral_cases (hv.of_isDigit hb).1 (List.cons_prefix_cons.mpr ⟨rfl, hs⟩)
  rw [hwhole, hdrop] at hcases
  have hfront : b :: rest.takeWhile isDigit <+: b :: rest :=
    List.cons_prefix_cons.mpr ⟨rfl, List.takeWhile_prefix _⟩
  unfold Lexeme.numeral
  dsimp only
  split
  · next after hafter =>
    rw [hafter] at hcases
    split
    · next hnone =>
      refine of_longest (.number (.whole (List.cons_ne_nil _ _) hdigits)) hfront fun hv hs => ?_
      obtain hle | ⟨f, u, hf, hdf, heq, -⟩ := hcases hv hs
      · exact hle
      · cases heq
        rw [List.takeWhile_append_of_pos hdf] at hnone
        exact absurd (List.append_eq_nil_iff.mp hnone).1 hf
    · next hsome =>
      have hmore : ∀ d ∈ after.takeWhile isDigit, isDigit d := fun d hd => List.mem_takeWhile_imp hd
      refine of_longest (.number (.fraction (List.cons_ne_nil _ _) hdigits hsome hmore)) ?_
        fun hv hs => ?_
      · have hrest : rest.takeWhile isDigit ++ 0x2E :: after = rest := by
          rw [← hafter, List.takeWhile_append_dropWhile]
        rw [← List.takeWhile_append_dropWhile (p := isDigit) (l := after)] at hrest
        exact ⟨after.dropWhile isDigit, by simpa using hrest⟩
      · obtain hle | ⟨f, u, hf, hdf, heq, hlen⟩ := hcases hv hs
        · exact hle.trans (by simp)
        · cases heq
          rw [hlen, List.takeWhile_append_of_pos hdf]
          simp
          omega
  · next hpoint =>
    refine of_longest (.number (.whole (List.cons_ne_nil _ _) hdigits)) hfront fun hv hs => ?_
    obtain hle | ⟨f, u, -, -, heq, -⟩ := hcases hv hs
    · exact hle
    · exact absurd heq (hpoint _)

theorem single {x : Lexeme} (h : ([b], k) ∈ operators)
    (hno : rest.head? = some 0x3D → [b, 0x3D] ∉ operators.map Prod.fst)
    (hx : x = Lexeme.single k b) : Front b rest x := by
  subst hx
  refine of_longest (.operator h) (List.cons_prefix_cons.mpr ⟨rfl, List.nil_prefix⟩)
    fun {v k' l'} hv hs => ?_
  obtain ⟨hop, -⟩ := hv.of_operator h
  rcases (operators_head hop).2.2.2 with rfl | rfl
  · exact Nat.le_refl _
  · obtain ⟨t, rfl⟩ := hs
    exact absurd (List.mem_map_of_mem (f := Prod.fst) hop) (hno rfl)

theorem extended {short long : Kind} (hs : ([b], short) ∈ operators)
    (hl : ([b, 0x3D], long) ∈ operators) : Front b rest (Lexeme.extended short long b rest) := by
  unfold Lexeme.extended
  split
  · next hhead =>
    obtain ⟨t, rfl⟩ := List.head?_eq_some_iff.mp hhead
    refine of_longest (.operator hl) ⟨t, rfl⟩ fun {v k' l'} hv _ => ?_
    obtain ⟨hop, -⟩ := hv.of_operator hl
    rcases (operators_head hop).2.2.2 with rfl | rfl
    · exact Nat.le_succ 1
    · exact Nat.le_refl 2
  · next hhead => exact single hs (fun h => absurd h hhead) rfl

theorem eq_toUInt8 {c : Char} (h : Char.ofUInt8 b = c) : b = c.toUInt8 := by
  rw [← h]
  exact (UInt8.toUInt8_toUInt32 b).symm

theorem operators_initial : ∀ r ∈ operators, ∃ b ∈ r.1.head?, Char.ofUInt8 b ∈
    ['=', '!', '<', '>', '+', '-', '*', '/', '^', ',', ':', ';', '.', '(', ')', '{', '}', '[',
      ']'] := by
  decide

theorem front (b : UInt8) (rest : Bytes) : Front b rest (Lexeme.front b rest) := by
  unfold Lexeme.front
  split
  case h_20 =>
    split
    · next hq => exact quoted (by simpa [IsQuote] using hq)
    · next hq =>
      split
      · next hl => exact word hl
      · next hl =>
        split
        · next hd => exact numeral hd
        · next hd =>
          refine .fault (.unknown ?_)
          rintro ⟨w, k, l, hw⟩
          rcases spelled_cons hw with ⟨h, -⟩ | ⟨h, -⟩ | ⟨h, -⟩ | ⟨h, -⟩
          · exact hl h
          · exact hd h
          · exact hq (by simpa [IsQuote] using h)
          · obtain ⟨c, hc, hmem⟩ := operators_initial _ h
            cases hc
            simp_all
  all_goals
    next h =>
    obtain rfl := eq_toUInt8 h
    first
      | exact extended (by decide) (by decide)
      | exact single (by decide) (fun _ => by decide) rfl

theorem taken_of_illegal {x : Lexeme} (h : Front b rest x) (hx : x.kind.isIllegal) :
    ∃ f, x.kind = .illegal f ∧ Taken (b :: rest) (.error f) := by
  cases h with
  | token ht => simp [ht.of_ok.2.isIllegal_eq_false] at hx
  | fault hf => exact ⟨_, rfl, hf⟩

theorem taken_of_legal {x : Lexeme} (h : Front b rest x) (hx : ¬ x.kind.isIllegal) :
    ∃ w rest', b :: rest = w ++ rest' ∧ Taken (w ++ rest') (.ok (w, x.kind, x.literal)) ∧
      x.width = w.length := by
  cases h with
  | @token w l k ht =>
    obtain ⟨rest', hrest⟩ := ht.of_ok.1.front
    rw [← hrest] at ht
    exact ⟨w, rest', hrest.symm, ht, rfl⟩
  | fault => exact absurd rfl hx

end Front

theorem exists_reads (s : Bytes) (p : Pos) : ∃ r tail, Reads s r ∧
    scanFrom s p = Piece.tokens p r.pieces ++ tail ∧ Closes (p.after r.cover) r.fault tail := by
  fun_induction scanFrom s p with
  | case1 s p q h =>
    obtain ⟨gap, hs, hq, hgap⟩ := skip_longest false s p
    rw [h] at hs hq
    simp only [List.append_nil] at hs
    subst hs hq
    exact ⟨⟨[], s, none⟩, _, .finished hgap.holds, rfl, .finished⟩
  | case2 s p b rest q h lexeme token next hk =>
    obtain ⟨gap, hs, hq, hgap⟩ := skip_longest false s p
    rw [h] at hs hq
    dsimp only at hs hq
    subst hs hq
    obtain ⟨f, hkind, hf⟩ := (Front.front b rest).taken_of_illegal hk
    refine ⟨_, _, .broken hgap hf, rfl, ?_⟩
    have htoken : token = ⟨.illegal f, lexeme.literal, p.after gap⟩ := by rw [← hkind]
    rw [htoken]
    exact .broken
  | case3 s p b rest q h lexeme token next hk ih =>
    obtain ⟨gap, hs, hq, hgap⟩ := skip_longest false s p
    rw [h] at hs hq
    dsimp only at hs hq
    subst hs hq
    obtain ⟨w, rest', hrest, htaken, hwidth⟩ := (Front.front b rest).taken_of_legal hk
    obtain ⟨r, tail, hr, hscan, hclose⟩ := ih
    have hdrop : (b :: rest).drop lexeme.width = rest' := by rw [hrest, hwidth, List.drop_left]
    have htake : (b :: rest).take lexeme.width = w := by rw [hrest, hwidth, List.take_left]
    have hnext : next = p.after (gap ++ w) := by rw [Pos.after_append, ← htake]
    have hreads : Reads (gap ++ b :: rest)
        { r with pieces := ⟨gap, w, lexeme.kind, lexeme.literal⟩ :: r.pieces } := by
      rw [hdrop] at hr
      rw [hrest] at hgap ⊢
      exact .token hgap htaken hr
    refine ⟨_, tail, hreads, ?_, ?_⟩
    · rw [hscan, hnext]
      rfl
    · rw [hnext, ← Pos.after_append] at hclose
      simpa only [Reading.cover, Piece.cover, List.flatMap_cons, List.append_assoc] using hclose

theorem exists_of_mem_tokens {t : Token} (p : Pos) {pieces : List Piece}
    (ht : t ∈ Piece.tokens p pieces) : ∃ x ∈ pieces, t.kind = x.kind ∧ t.literal = x.literal := by
  induction pieces generalizing p with
  | nil => cases ht
  | cons x rest ih =>
    rcases List.mem_cons.mp ht with rfl | ht
    · exact ⟨x, List.mem_cons_self, rfl, rfl⟩
    · obtain ⟨y, hy, heq⟩ := ih _ ht
      exact ⟨y, List.mem_cons_of_mem _ hy, heq⟩

theorem Reads.illegal?_eq {s : Bytes} {r : Reading} {p q : Pos} {tail : List Token} (h : Reads s r)
    (htail : Closes q r.fault tail) :
    illegal? (Piece.tokens p r.pieces ++ tail) = r.fault.map (·, q) := by
  have hpieces : illegal? (Piece.tokens p r.pieces) = none := by
    rw [illegal?_eq_none_iff]
    intro t ht
    obtain ⟨x, hx, hkind, -⟩ := exists_of_mem_tokens p ht
    rw [hkind]
    exact (h.sound x hx).2.isIllegal_eq_false
  have happend : illegal? (Piece.tokens p r.pieces ++ tail) = illegal? tail := by
    rw [illegal?] at hpieces ⊢
    rw [List.findSome?_append, hpieces, Option.none_or]
    rfl
  rw [happend]
  generalize r.fault = fault at htail
  cases htail with
  | finished => rfl
  | broken => rfl

/-- The tokens of a text are those of its reading, of which there is exactly one: as much as
possible is skipped, and then the longest token is taken. The text ends at its first NUL byte. A
text without a fault is covered by its tokens and by what is skipped. A fault is found exactly
where the next token would have to begin with a byte that begins none, or with a quote that is not
closed. -/
theorem scan_longest (source : Bytes) : ∃ r : Reading,
    (∀ r', Reads (source.takeWhile (· ≠ 0)) r' ↔ r' = r) ∧
    (∃ tail, scan source = Piece.tokens .start r.pieces ++ tail ∧
      Closes (Pos.start.after r.cover) r.fault tail) ∧
    illegal? (scan source) = r.fault.map (·, Pos.start.after r.cover) ∧
    ∃ rest, source.takeWhile (· ≠ 0) = r.cover ++ rest ∧ (r.fault = none → rest = []) := by
  obtain ⟨r, tail, hr, hscan, htail⟩ := exists_reads (source.takeWhile (· ≠ 0)) .start
  refine ⟨r, fun r' => ⟨fun h => h.unique hr, fun h => h ▸ hr⟩, ⟨tail, hscan, htail⟩, ?_,
    hr.exists_append⟩
  rw [scan, hscan]
  exact hr.illegal?_eq htail

end CornScript.Token
