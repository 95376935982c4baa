import CornScript.Proofs.Token.Longest
import Mathlib.Data.Nat.Find

/-! # Lines and columns

Places are counted while a text is read, byte by byte. They can be told from offsets at once: a line
has the number of line ends before it, and a column is counted from where the line begins. So each
token of a text stands at the place of the offset at which it begins, and so does the end of the
text, or the fault in it.
-/

namespace CornScript

open Bytes (newline)

/-- The offset at which the line of an offset begins: behind the last line end before it, or at the
beginning of the text. -/
def Bytes.lineStart (s : Bytes) (o : Nat) : Nat :=
  Nat.findGreatest (fun i => 0 < i ∧ s[i - 1]? = some newline) o

def Pos.ofOffset (s : Bytes) (o : Nat) : Pos :=
  ⟨1 + (s.take o).count newline, o - s.lineStart o + 1⟩

namespace Bytes

variable {s : Bytes} {o : Nat}

theorem lineStart_le (s : Bytes) (o : Nat) : s.lineStart o ≤ o :=
  Nat.findGreatest_le o

theorem lineStart_succ_of_newline (h : s[o]? = some newline) : s.lineStart (o + 1) = o + 1 :=
  Nat.findGreatest_eq ⟨Nat.succ_pos o, h⟩

theorem lineStart_succ_of_ne (h : s[o]? ≠ some newline) : s.lineStart (o + 1) = s.lineStart o :=
  Nat.findGreatest_of_not fun hline => h hline.2

end Bytes

namespace Pos

variable {s : Bytes} {o : Nat}

theorem ofOffset_succ {b : UInt8} (h : s[o]? = some b) :
    ofOffset s (o + 1) = (ofOffset s o).step b := by
  have htake : s.take (o + 1) = s.take o ++ [b] := by rw [List.take_add_one, h, Option.toList_some]
  have hle := Bytes.lineStart_le s o
  unfold step
  split
  · next hb =>
    subst hb
    simp only [ofOffset, htake, List.count_append, List.count_singleton_self,
      Bytes.lineStart_succ_of_newline h, Nat.sub_self, Nat.zero_add, Nat.add_assoc]
  · next hb =>
    have hne : s[o]? ≠ some newline := fun hline => hb (Option.some.inj (h.symm.trans hline))
    simp only [ofOffset, htake, List.count_append, List.count_singleton, beq_iff_eq, hb, if_false,
      Bytes.lineStart_succ_of_ne hne, Nat.add_zero, Pos.mk.injEq, true_and]
    omega

theorem after_take (h : o ≤ s.length) : start.after (s.take o) = ofOffset s o := by
  induction o with
  | zero => rfl
  | succ o ih =>
    have hbyte : s[o]? = some s[o] := List.getElem?_eq_getElem h
    rw [ofOffset_succ hbyte, ← ih (Nat.le_of_succ_le h), List.take_add_one, hbyte, after_append]
    rfl

theorem after_eq_ofOffset {a : Bytes} (h : a <+: s) : start.after a = ofOffset s a.length := by
  rw [← after_take h.length_le, ← List.prefix_iff_eq_take.mp h]

end Pos

namespace Token

/-- Pieces with the offsets at which their tokens begin, if all that comes before them has `o`
bytes. -/
def Piece.located (o : Nat) : List Piece → List (Nat × Piece)
  | [] => []
  | x :: rest => (o + x.gap.length, x) :: located (o + x.gap.length + x.spelling.length) rest

def Piece.tokenAt (source : Bytes) (site : Nat × Piece) : Token :=
  ⟨site.2.kind, site.2.literal, Pos.ofOffset source site.1⟩

variable {source before : Bytes} {pieces : List Piece} {site : Nat × Piece}

theorem Piece.cover_cons (x : Piece) (rest : List Piece) :
    cover (x :: rest) = x.gap ++ x.spelling ++ cover rest := rfl

theorem Piece.tokens_eq_map (h : before ++ cover pieces <+: source) :
    tokens (Pos.start.after before) pieces =
      (located before.length pieces).map (tokenAt source) := by
  induction pieces generalizing before with
  | nil => rfl
  | cons x rest ih =>
    rw [cover_cons, ← List.append_assoc] at h
    have hgap : before ++ x.gap <+: source := by
      rw [← List.append_assoc before, List.append_assoc] at h
      exact (List.prefix_append _ _).trans h
    have hplace := Pos.after_eq_ofOffset hgap
    rw [Pos.after_append, List.length_append] at hplace
    have hrest := ih h
    rw [Pos.after_append] at hrest
    simp only [tokens, located, List.map_cons, tokenAt, hplace, hrest, List.length_append,
      Nat.add_assoc]

theorem Piece.prefix_drop_of_mem_located (h : before ++ cover pieces <+: source)
    (hsite : site ∈ located before.length pieces) : site.2.spelling <+: source.drop site.1 := by
  induction pieces generalizing before with
  | nil => cases hsite
  | cons x rest ih =>
    rw [cover_cons, ← List.append_assoc] at h
    rcases List.mem_cons.mp hsite with rfl | hsite
    · obtain ⟨t, rfl⟩ := h
      have hsplit : before ++ (x.gap ++ x.spelling) ++ cover rest ++ t =
          before ++ x.gap ++ (x.spelling ++ (cover rest ++ t)) := by simp only [List.append_assoc]
      rw [hsplit, ← List.length_append, List.drop_left]
      exact List.prefix_append _ _
    · apply ih h
      simpa only [List.length_append, Nat.add_assoc] using hsite

/-- In a text that is read in its one way, each token stands where its line and column say: the line
is one more than there are line ends before the token, and the column is counted from the beginning
of the line. This goes for the end of input, which is the end of the text or its first NUL byte, and
for the illegal token, whose place is that of the fault. -/
theorem scan_located (source : Bytes) : ∃ r : Reading,
    (∀ r', Reads (source.takeWhile (· ≠ 0)) r' ↔ r' = r) ∧
    (∃ tail, scan source = (Piece.located 0 r.pieces).map (Piece.tokenAt source) ++ tail ∧
      Closes (Pos.ofOffset source r.cover.length) r.fault tail) ∧
    (∀ site ∈ Piece.located 0 r.pieces, site.2.spelling <+: source.drop site.1) ∧
    (r.fault = none → r.cover = source.takeWhile (· ≠ 0)) ∧
    illegal? (scan source) = r.fault.map (·, Pos.ofOffset source r.cover.length) := by
  obtain ⟨r, tail, hr, hscan, htail⟩ := exists_reads (source.takeWhile (· ≠ 0)) .start
  obtain ⟨rest, hcover, hrest⟩ := hr.exists_append
  have hsource : source.takeWhile (· ≠ 0) <+: source := List.takeWhile_prefix _
  have hall : r.cover <+: source := (hcover ▸ List.prefix_append _ _).trans hsource
  have hpieces : [] ++ Piece.cover r.pieces <+: source := (List.prefix_append _ _).trans hall
  have htokens : Piece.tokens .start r.pieces =
      (Piece.located 0 r.pieces).map (Piece.tokenAt source) := Piece.tokens_eq_map hpieces
  have hplace := Pos.after_eq_ofOffset hall
  refine ⟨r, fun r' => ⟨fun h => h.unique hr, fun h => h ▸ hr⟩, ⟨tail, ?_, ?_⟩, ?_, ?_, ?_⟩
  · rw [scan, hscan, htokens]
  · rw [← hplace]
    exact htail
  · exact fun site => Piece.prefix_drop_of_mem_located hpieces
  · intro hfault
    rw [hcover, hrest hfault, List.append_nil]
  · rw [← hplace, scan, hscan]
    exact hr.illegal?_eq htail

end Token

end CornScript
