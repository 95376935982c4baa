import CornScript.Proofs.Token.Longest
import CornScript.Proofs.Tree.Moved
import Mathlib.Data.List.Forall2

/-! # Texts that are put together from tokens

A text is read piece by piece if no piece goes on in what follows it: then its tokens are those of
the pieces. Brackets and separators end at once, other operators go on with a `=`, and words and
numbers end in front of any byte that they cannot have.
-/

namespace CornScript.Token

open Bytes (isLetter isDigit)
open Lexeme (isWordByte)

variable {w w' rest : Bytes} {ts us : List Token} {b : UInt8} {k : Kind} {l : Bytes} {t : Token}

def unplaced (t : Token) : Token := t.moved .forget

/-- In front of `rest`, the text `w` is read as these tokens, wherever it begins. -/
structure Lexes (w : Bytes) (ts : List Token) (rest : Bytes) : Prop where
  noNul : 0 ∉ w
  scans : ∀ p, ∃ us, scanFrom (w ++ rest) p = us ++ scanFrom rest (p.after w) ∧
    us.map unplaced = ts

namespace Lexes

theorem nil : Lexes [] [] rest :=
  ⟨List.not_mem_nil, fun _ => ⟨[], rfl, rfl⟩⟩

theorem append (h : Lexes w ts (w' ++ rest)) (h' : Lexes w' us rest) :
    Lexes (w ++ w') (ts ++ us) rest := by
  refine ⟨by simpa using ⟨h.noNul, h'.noNul⟩, fun p => ?_⟩
  obtain ⟨as, hscan, has⟩ := h.scans p
  obtain ⟨bs, hscan', hbs⟩ := h'.scans (p.after w)
  refine ⟨as ++ bs, ?_, by rw [List.map_append, has, hbs]⟩
  rw [List.append_assoc, hscan, hscan', Pos.after_append, List.append_assoc]

theorem congr (h : Lexes w ts rest) (heq : ts = us) : Lexes w us rest := heq ▸ h

theorem blank : Lexes [0x20] [] rest := by
  refine ⟨by decide, fun p => ⟨[], ?_, rfl⟩⟩
  exact scanFrom_blanks 1 rest p

theorem map_scan (h : Lexes w ts []) : (scan w).map unplaced = ts ++ [endAt .start] := by
  have hnul : ∀ c ∈ w, decide (c ≠ 0) = true :=
    fun c hc => decide_eq_true fun h0 => h.noNul (h0 ▸ hc)
  obtain ⟨us, hscan, hus⟩ := h.scans .start
  rw [List.append_nil] at hscan
  rw [scan, List.takeWhile_eq_self_iff.mpr hnul, hscan, List.map_append, hus, scanFrom]
  rfl

end Lexes

theorem Spelled.not_isBlank {v : Bytes} (h : Spelled (b :: v) k l) : isBlank b = false := by
  have hoperators : ∀ r ∈ operators, r.1.head?.any isBlank = false := by decide
  by_contra hb
  simp only [isBlank, Bool.not_eq_false, Bool.or_eq_true, beq_iff_eq] at hb
  rcases spelled_cons h with ⟨hl, -⟩ | ⟨hd, -⟩ | ⟨hq, -⟩ | ⟨hop, -⟩
  · obtain ((rfl | rfl) | rfl) | rfl := hb <;> cases hl
  · obtain ((rfl | rfl) | rfl) | rfl := hb <;> cases hd
  · obtain ((rfl | rfl) | rfl) | rfl := hb <;> exact absurd hq (by simp [IsQuote])
  · have hno : isBlank b = false := hoperators _ hop
    obtain ((rfl | rfl) | rfl) | rfl := hb <;> cases hno

theorem scanFrom_of_skip {s : Bytes} {p q : Pos} (hskip : skip false s p = (b :: rest, q))
    (hlegal : ¬ (Lexeme.front b rest).kind.isIllegal) :
    scanFrom s p = ⟨(Lexeme.front b rest).kind, (Lexeme.front b rest).literal, q⟩ ::
      scanFrom ((b :: rest).drop (Lexeme.front b rest).width)
        (q.after ((b :: rest).take (Lexeme.front b rest).width)) := by
  rw [scanFrom_of_skip_cons hskip]
  exact if_neg hlegal

theorem Lexes.token (h : Spelled w k l) (hlong : Longest IsSpelling (w ++ rest) w)
    (hslash : w = [0x2F] → rest.head? ≠ some 0x2F) (hnul : 0 ∉ w) :
    Lexes w [⟨k, l, .start⟩] rest := by
  obtain ⟨b, v, rfl⟩ := List.exists_cons_of_ne_nil h.ne_nil
  refine ⟨hnul, fun p => ⟨[⟨k, l, p⟩], ?_, rfl⟩⟩
  have hcomment : ¬ (b = 0x2F ∧ (v ++ rest).head? = some 0x2F) := by
    rintro ⟨rfl, hhead⟩
    have hmark : (([0x2F], .slash) : Bytes × Kind) ∈ operators := by decide
    have hno : ([0x2F, 0x3D] : Bytes) ∉ operators.map Prod.fst := by decide
    obtain ⟨hop, -⟩ := h.of_operator hmark
    rcases (operators_head hop).2.2.2 with rfl | rfl
    · exact hslash rfl hhead
    · exact hno (List.mem_map_of_mem (f := Prod.fst) hop)
  have hskip : skip false (b :: (v ++ rest)) p = (b :: (v ++ rest), p) := by
    rw [skip, if_neg Bool.false_ne_true, h.not_isBlank, if_neg Bool.false_ne_true,
      if_neg (by simpa using hcomment)]
  have hfront : Lexeme.front b (v ++ rest) = ⟨k, l, (b :: v).length⟩ := by
    have hall := Front.front b (v ++ rest)
    generalize Lexeme.front b (v ++ rest) = x at hall
    cases hall with
    | token ht =>
      obtain rfl := ht.of_ok.1.unique hlong
      obtain ⟨rfl, rfl⟩ := ht.of_ok.2.unique h
      rfl
    | fault hf => exact absurd hlong.front (hf.not_token h)
  have hlegal : ¬ (Lexeme.front b (v ++ rest)).kind.isIllegal := by
    rw [hfront, h.isIllegal_eq_false]
    exact Bool.false_ne_true
  rw [List.cons_append, scanFrom_of_skip hskip hlegal, hfront]
  simp only [← List.cons_append, List.drop_left, List.take_left, List.singleton_append]

section Longest

theorem takeWhile_append_eq {p : UInt8 → Bool} (hw : ∀ c ∈ w, p c)
    (hrest : ∀ c ∈ rest.head?, p c = false) : (w ++ rest).takeWhile p = w := by
  rw [List.takeWhile_append_of_pos hw]
  cases rest with
  | nil => simp
  | cons c t => rw [List.takeWhile_cons_of_neg (by simpa using hrest c rfl), List.append_nil]

theorem dropWhile_append_eq {p : UInt8 → Bool} (hw : ∀ c ∈ w, p c)
    (hrest : ∀ c ∈ rest.head?, p c = false) : (w ++ rest).dropWhile p = rest := by
  have h := List.takeWhile_append_dropWhile (p := p) (l := w ++ rest)
  rw [takeWhile_append_eq hw hrest] at h
  exact List.append_cancel_left h

theorem longest_word {v : Bytes} (hb : isLetter b) (hv : ∀ c ∈ v, isWordByte c)
    (hrest : ∀ c ∈ rest.head?, isWordByte c = false) :
    Longest IsSpelling (b :: v ++ rest) (b :: v) where
  holds := ⟨_, _, .word hb hv⟩
  front := List.prefix_append ..
  longest := by
    rintro u ⟨k, l, hu⟩ hs
    obtain ⟨c, u, rfl⟩ := List.exists_cons_of_ne_nil hu.ne_nil
    rw [List.cons_append] at hs
    obtain ⟨rfl, htail⟩ := List.cons_prefix_cons.mp hs
    have hle := Front.length_le_takeWhile (hu.of_isLetter hb).1 htail
    rw [takeWhile_append_eq hv hrest] at hle
    exact Nat.succ_le_succ hle

/-- A number ends in front of a byte that is no digit, and of a point that no digit follows. -/
theorem longest_numeral (hw : Numeral w) (hrest : ∀ c ∈ rest.head?, isDigit c = false)
    (hpoint : ∀ d u, rest = 0x2E :: d :: u → isDigit d = false) :
    Longest IsSpelling (w ++ rest) w where
  holds := ⟨_, _, .number hw⟩
  front := List.prefix_append ..
  longest := by
    rintro u ⟨k, l, hu⟩ hs
    have hnumeral : Numeral u := by
      obtain ⟨b, v, rfl, hb⟩ := hw.head
      obtain ⟨c, u, rfl⟩ := List.exists_cons_of_ne_nil hu.ne_nil
      obtain ⟨rfl, -⟩ := List.cons_prefix_cons.mp hs
      exact (hu.of_isDigit hb).1
    have hcases := Front.numeral_cases hnumeral hs
    cases hw with
    | whole hn hd =>
      rw [takeWhile_append_eq hd hrest, dropWhile_append_eq hd hrest] at hcases
      rcases hcases with hle | ⟨f, v, hf, hdf, heq, -⟩
      · exact hle
      · -- The digits after the point would make the number longer.
        obtain ⟨d, f, rfl⟩ := List.exists_cons_of_ne_nil hf
        have hno := hpoint d (f ++ v) heq
        rw [hdf d List.mem_cons_self] at hno
        cases hno
    | @fraction n f hn hd hf hdf =>
      have hdot : ∀ c ∈ ((0x2E :: f) ++ rest).head?, isDigit c = false := by
        rintro _ ⟨⟩
        rfl
      rw [List.append_assoc, takeWhile_append_eq hd hdot, dropWhile_append_eq hd hdot] at hcases
      rcases hcases with hle | ⟨f', v, -, hdf', heq, hlen⟩
      · exact hle.trans (by simp)
      · have hle := Front.length_le_takeWhile hdf' ⟨v, rfl⟩
        have htail : f ++ rest = f' ++ v := List.tail_eq_of_cons_eq heq
        rw [← htail, takeWhile_append_eq hdf hrest] at hle
        rw [hlen, List.length_append, List.length_cons]
        omega

theorem longest_quoted {q : UInt8} {inner : Bytes} (hq : IsQuote q) (hinner : q ∉ inner) :
    Longest IsSpelling (q :: (inner ++ [q]) ++ rest) (q :: (inner ++ [q])) where
  holds := ⟨_, _, .quoted hq hinner⟩
  front := List.prefix_append ..
  longest := by
    rintro u ⟨k, l, hu⟩ hs
    obtain ⟨c, u, rfl⟩ := List.exists_cons_of_ne_nil hu.ne_nil
    rw [List.cons_append, List.append_assoc, List.singleton_append] at hs
    obtain ⟨rfl, t, ht⟩ := List.cons_prefix_cons.mp hs
    obtain ⟨inner', rfl, hinner', -⟩ := hu.of_isQuote hq
    rw [List.append_assoc, List.singleton_append] at ht
    have heq := congrArg (List.takeWhile (· ≠ c)) ht
    rw [Front.takeWhile_ne_append hinner', Front.takeWhile_ne_append hinner] at heq
    rw [heq]

theorem longest_operator (h : (w, k) ∈ operators)
    (hrest : rest.head? = some 0x3D → w ++ [0x3D] ∉ operators.map Prod.fst) :
    Longest IsSpelling (w ++ rest) w where
  holds := ⟨_, _, .operator h⟩
  front := List.prefix_append ..
  longest := by
    rintro u ⟨k', l, hu⟩ hs
    obtain ⟨c, u, rfl⟩ := List.exists_cons_of_ne_nil hu.ne_nil
    obtain ⟨b, v, rfl⟩ := List.exists_cons_of_ne_nil (Spelled.operator h).ne_nil
    rw [List.cons_append] at hs
    obtain ⟨rfl, htail⟩ := List.cons_prefix_cons.mp hs
    obtain ⟨hop, -⟩ := hu.of_operator h
    rcases (operators_head hop).2.2.2 with rfl | rfl
    · simp
    · rcases (operators_head h).2.2.2 with rfl | rfl
      · obtain ⟨t, rfl⟩ := htail
        exact absurd (List.mem_map_of_mem (f := Prod.fst) hop) (hrest rfl)
      · exact Nat.le_refl _

end Longest

/-- No token but a string goes on in such a text. -/
structure Breaks (rest : Bytes) : Prop where
  head : ∀ c ∈ rest.head?, isWordByte c = false ∧ c ≠ 0x3D ∧ c ≠ 0x2F
  point : ∀ d u, rest = 0x2E :: d :: u → isDigit d = false

def isBreak (b : UInt8) : Bool :=
  !isWordByte b && b != 0x3D && b != 0x2F && b != 0x2E

namespace Breaks

theorem nil : Breaks [] := ⟨nofun, nofun⟩

theorem of_head {s : Bytes} (h : s.head?.any isBreak) : Breaks (s ++ rest) := by
  obtain ⟨b, hhead, hb⟩ := (Option.any_eq_true _ _).mp h
  obtain ⟨s, rfl⟩ := List.head?_eq_some_iff.mp hhead
  simp only [isBreak, Bool.and_eq_true, Bool.not_eq_true', bne_iff_ne] at hb
  obtain ⟨⟨⟨hword, heq⟩, hslash⟩, hpoint⟩ := hb
  constructor
  · rintro _ ⟨⟩
    exact ⟨hword, heq, hslash⟩
  · rintro d u hrest
    exact absurd (List.head_eq_of_cons_eq hrest) hpoint

theorem point_letter (hb : isLetter b) : Breaks (0x2E :: b :: rest) := by
  constructor
  · rintro _ ⟨⟩
    decide
  · rintro d u ⟨⟩
    exact not_isDigit_of_isLetter hb

end Breaks

/-- The token is one that some text is read as, and that text has no NUL byte. -/
structure Genuine (t : Token) : Prop where
  spelled : ∃ w, Spelled w t.kind t.literal
  noNul : 0 ∉ t.literal

theorem Spelled.literal_eq (h : Spelled w k l) (hw : (w', k) ∈ operators ++ Kind.words) :
    l = w' := by
  have hfixed : ∀ r ∈ operators ++ Kind.words, r.2 ≠ .ident ∧ r.2 ≠ .number ∧ r.2 ≠ .string ∧
      ∀ r' ∈ operators ++ Kind.words, r.2 = r'.2 → r.1 = r'.1 := by decide
  obtain ⟨hident, hnumber, hstring, hsame⟩ := hfixed _ hw
  cases h with
  | @word b v hb hv =>
    unfold Kind.ofWord at hident hsame
    cases hlookup : Kind.words.lookup (b :: v) with
    | none =>
      rw [hlookup] at hident
      exact absurd rfl hident
    | some k =>
      obtain ⟨before, behind, heq, -⟩ := List.lookup_eq_some_iff.mp hlookup
      rw [hlookup] at hsame
      have hmem : (b :: v, k) ∈ operators ++ Kind.words := by simp [heq]
      exact (hsame _ hmem rfl).symm
  | number => exact absurd rfl hnumber
  | quoted => exact absurd rfl hstring
  | operator hop => exact (hsame _ (List.mem_append_left _ hop) rfl).symm

theorem Genuine.literal_eq (h : t.Genuine) (hw : (w, t.kind) ∈ operators ++ Kind.words) :
    t.literal = w := by
  obtain ⟨v, hv⟩ := h.spelled
  exact hv.literal_eq hw

theorem Genuine.unplaced_eq (h : t.Genuine) (hkind : t.kind = k)
    (hw : (w, k) ∈ operators ++ Kind.words) : t.unplaced = ⟨k, w, .start⟩ := by
  have hl := h.literal_eq (hkind ▸ hw)
  subst hkind hl
  rfl

theorem Genuine.exists_letter (h : t.Genuine) (hkind : t.kind = .ident) :
    ∃ b v, t.literal = b :: v ∧ isLetter b := by
  have hoperators : ∀ r ∈ operators, r.2 ≠ .ident := by decide
  obtain ⟨k, l, p⟩ := t
  obtain ⟨⟨w, hw⟩, -⟩ := h
  dsimp only at hw hkind ⊢
  cases hw with
  | word hb _ => exact ⟨_, _, rfl, hb⟩
  | number => cases hkind
  | quoted => cases hkind
  | operator hop => exact absurd hkind (hoperators _ hop)

theorem Spelled.mem_of_mem_literal (h : Spelled w k l) (hb : b ∈ l) : b ∈ w := by
  cases h with
  | quoted => simp [hb]
  | _ => exact hb

theorem genuine_of_mem_scan {source : Bytes} (hlegal : illegal? (scan source) = none)
    (ht : t ∈ scan source) (hkind : t.kind ≠ .endOfInput) : t.Genuine := by
  obtain ⟨r, tail, hr, hscan, htail⟩ := exists_reads (source.takeWhile (· ≠ 0)) .start
  have hfault := hr.illegal?_eq (p := .start) htail
  rw [← hscan, ← scan, hlegal, eq_comm, Option.map_eq_none_iff] at hfault
  rw [hfault] at htail
  cases htail
  rw [scan, hscan, List.mem_append] at ht
  rcases ht with ht | ht
  · obtain ⟨x, hx, hk, hl⟩ := exists_of_mem_tokens _ ht
    obtain ⟨rest, htext, -⟩ := hr.exists_append
    have hspelled := (hr.sound x hx).2
    rw [← hk, ← hl] at hspelled
    refine ⟨⟨_, hspelled⟩, fun hnul => ?_⟩
    have hmem : 0 ∈ source.takeWhile (· ≠ 0) := by
      rw [htext, Reading.cover]
      refine List.mem_append_left _ (List.mem_append_left _ (List.mem_flatMap.mpr ⟨x, hx, ?_⟩))
      exact List.mem_append_right _ (hspelled.mem_of_mem_literal hnul)
    simpa using List.mem_takeWhile_imp hmem
  · rw [List.mem_singleton.mp ht] at hkind
    exact absurd rfl hkind

theorem isWordByte_of_isDigit (h : isDigit b) : isWordByte b := by
  simp [isWordByte, h]

/-- A genuine token, printed as its literal, is read again. -/
theorem Genuine.lexes (h : t.Genuine) (hkind : t.kind ≠ .string) (hrest : Breaks rest) :
    Lexes t.literal [t.unplaced] rest := by
  obtain ⟨k, l, p⟩ := t
  obtain ⟨⟨w, hw⟩, hnul⟩ := h
  dsimp only at hw hkind hnul ⊢
  have hslash : rest.head? ≠ some 0x2F := fun hhead => (hrest.head _ hhead).2.2 rfl
  have hequal : rest.head? ≠ some 0x3D := fun hhead => (hrest.head _ hhead).2.1 rfl
  cases hw with
  | word hb hv =>
    have hlong := longest_word hb hv fun c hc => (hrest.head c hc).1
    exact .token (.word hb hv) hlong (fun _ => hslash) hnul
  | number hn =>
    have hdigit (c) (hc : c ∈ rest.head?) : isDigit c = false := by
      by_contra hd
      have hword := (hrest.head c hc).1
      rw [isWordByte_of_isDigit (by simpa using hd)] at hword
      cases hword
    exact .token (.number hn) (longest_numeral hn hdigit hrest.point) (fun _ => hslash) hnul
  | quoted => exact absurd rfl hkind
  | operator hop =>
    exact .token (.operator hop) (longest_operator hop (absurd · hequal)) (fun _ => hslash) hnul

theorem Genuine.lexes_quoted {q : UInt8} (h : t.Genuine) (hkind : t.kind = .string)
    (hq : IsQuote q) (hquote : q ∉ t.literal) :
    Lexes (q :: (t.literal ++ [q])) [t.unplaced] rest := by
  obtain ⟨k, l, p⟩ := t
  obtain rfl : k = .string := hkind
  have hzero : ¬ 0 = q := by rcases hq with rfl | rfl <;> decide
  have hnul : 0 ∉ q :: (l ++ [q]) := by simpa [hzero] using h.noNul
  exact .token (.quoted hq hquote) (longest_quoted hq hquote) (by simp) hnul

theorem Lexes.head_ne (h : Lexes w (t :: ts) rest) (hassign : t.kind ≠ .assign)
    (hequal : t.kind ≠ .equal) : (w ++ rest).head? ≠ some 0x3D := by
  intro hhead
  obtain ⟨s, hs⟩ := List.head?_eq_some_iff.mp hhead
  obtain ⟨us, hscan, hus⟩ := h.scans .start
  obtain ⟨u, us, rfl, rfl, -⟩ := List.map_eq_cons_iff.mp hus
  have hfront : Lexeme.front 0x3D s = Lexeme.extended .assign .equal 0x3D s := rfl
  have hkind : (Lexeme.front 0x3D s).kind = .assign ∨ (Lexeme.front 0x3D s).kind = .equal := by
    rw [hfront, Lexeme.extended]
    split
    · exact .inr rfl
    · exact .inl rfl
  have hskip : skip false (0x3D :: s) .start = (0x3D :: s, .start) := rfl
  rw [hs, scanFrom_of_skip hskip (by rcases hkind with hk | hk <;> rw [hk] <;> nofun)] at hscan
  have hu := congrArg Token.kind (List.head_eq_of_cons_eq hscan)
  dsimp only at hu
  rw [hu] at hkind
  exact hkind.elim hassign hequal

theorem Lexes.operator (h : (w, k) ∈ operators)
    (hrest : rest.head? = some 0x3D → w ++ [0x3D] ∉ operators.map Prod.fst)
    (hslash : w ≠ [0x2F]) : Lexes w [⟨k, w, .start⟩] rest := by
  have hnul : ∀ r ∈ operators, 0 ∉ r.1 := by decide
  exact .token (.operator h) (longest_operator h hrest) (fun hw => absurd hw hslash) (hnul _ h)

def isMark (b : UInt8) : Bool :=
  b == 0x20 || (operators.lookup [b]).isSome && !(operators.map Prod.fst).contains [b, 0x3D] &&
    b != 0x2F

def mark? (b : UInt8) : Option Token :=
  (operators.lookup [b]).map fun k => ⟨k, [b], .start⟩

/-- Punctuation is read byte by byte. -/
theorem Lexes.marks (h : w.all isMark) : Lexes w (w.filterMap mark?) rest := by
  induction w with
  | nil => exact .nil
  | cons b w ih =>
    rw [List.all_cons, Bool.and_eq_true] at h
    have hb : Lexes [b] (mark? b).toList (w ++ rest) := by
      have hb := h.1
      simp only [isMark, Bool.or_eq_true, Bool.and_eq_true, beq_iff_eq, bne_iff_ne,
        Bool.not_eq_true'] at hb
      rcases hb with rfl | ⟨⟨hop, hno⟩, hslash⟩
      · exact .blank
      · obtain ⟨k, hk⟩ := Option.isSome_iff_exists.mp hop
        obtain ⟨before, behind, heq, -⟩ := List.lookup_eq_some_iff.mp hk
        have hmem : ([b], k) ∈ operators := by
          rw [heq]
          simp
        simp only [mark?, hk, Option.map_some, Option.toList_some]
        exact .operator hmem (fun _ => by simpa using hno) (by simpa using hslash)
    refine (hb.append (ih h.2)).congr ?_
    rw [List.filterMap_cons]
    cases mark? b <;> rfl

end CornScript.Token

namespace CornScript

open Token (Lexes Breaks isBreak)

/-- The text is read as these tokens in front of any text that no token goes on in. -/
structure Spells (w : Bytes) (ts : List Token) : Prop where
  lexes : ∀ {rest}, Breaks rest → Lexes w ts rest

/-- A text that no token goes on in, and that is read as these tokens in front of anything. -/
structure Separates (w : Bytes) (ts : List Token) : Prop where
  lexes : ∀ {rest}, Lexes w ts rest
  head : w.head?.any isBreak

variable {separator w rest : Bytes} {between ts : List Token} {ws : List Bytes}
  {tss : List (List Token)} {t : Token}

theorem Spells.of_genuine (h : t.Genuine) (hkind : t.kind ≠ .string) :
    Spells t.literal [t.unplaced] :=
  ⟨h.lexes hkind⟩

theorem Bytes.join_cons (separator : Bytes) (w : Bytes) (ws : List Bytes) :
    join separator (w :: ws) = w ++ ws.flatMap (separator ++ ·) := by
  induction ws generalizing w with
  | nil => simp [join]
  | cons v vs ih =>
    have hjoin : join separator (w :: v :: vs) = w ++ separator ++ join separator (v :: vs) := by
      simp [join]
    rw [hjoin, ih v, List.flatMap_cons]
    simp only [List.append_assoc]

theorem Spells.afterSeparators (hs : Separates separator between) (h : List.Forall₂ Spells ws tss)
    (hrest : Breaks rest) :
    Lexes (ws.flatMap (separator ++ ·)) (tss.flatMap (between ++ ·)) rest ∧
      Breaks (ws.flatMap (separator ++ ·) ++ rest) := by
  induction h with
  | nil => exact ⟨.nil, hrest⟩
  | @cons w ts ws tss hw _ ih =>
    obtain ⟨htail, hbreaks⟩ := ih
    rw [List.flatMap_cons, List.flatMap_cons]
    refine ⟨(hs.lexes.append (hw.lexes hbreaks)).append htail, ?_⟩
    rw [List.append_assoc, List.append_assoc]
    exact .of_head hs.head

theorem Spells.join_cons (hs : Separates separator between) (hw : Spells w ts)
    (hws : List.Forall₂ Spells ws tss) :
    Spells (Bytes.join separator (w :: ws)) (ts ++ tss.flatMap (between ++ ·)) := by
  refine ⟨fun hrest => ?_⟩
  rw [Bytes.join_cons]
  obtain ⟨htail, hbreaks⟩ := afterSeparators hs hws hrest
  exact (hw.lexes hbreaks).append htail

end CornScript
