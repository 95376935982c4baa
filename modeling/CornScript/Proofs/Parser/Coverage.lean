import CornScript.Proofs.Parser.Legal
import CornScript.Proofs.Token.Longest
import Mathlib

/-! # What a program leaves unread

The tokens of a text tell which pieces of it they were read from. A text that is parsed consists of
these pieces, of what is skipped between and after them, and of everything from its first NUL byte
on, which is not looked at. So exactly the texts whose rest after the last token may be skipped, NUL
byte included, are covered by their tokens.
-/

namespace CornScript

theorem Pos.eq_of_after_eq {p : Pos} {s a b : Bytes} (ha : a <+: s) (hb : b <+: s)
    (h : p.after a = p.after b) : a = b := by
  have shorter {a b : Bytes} (hab : a <+: b) (h : p.after a = p.after b) : a = b := by
    obtain ⟨t, rfl⟩ := hab
    rw [after_append] at h
    by_cases ht : t = []
    · rw [ht, List.append_nil]
    · exact absurd h (ne_of_lt (lt_after ht _))
  rcases List.prefix_or_prefix_of_prefix ha hb with hab | hba
  · exact shorter hab h
  · exact (shorter hba h.symm).symm

namespace Token

variable {s t source : Bytes} {r : Reading} {b : UInt8}

theorem Piece.tokens_inj {p : Pos} {pieces pieces' : List Piece} {t t' : Bytes}
    (h : ∀ x ∈ pieces, x.Sound) (h' : ∀ x ∈ pieces', x.Sound)
    (htokens : tokens p pieces = tokens p pieces')
    (htext : cover pieces ++ t = cover pieces' ++ t') : pieces = pieces' := by
  induction pieces generalizing p pieces' with
  | nil =>
    cases pieces' with
    | nil => rfl
    | cons => cases htokens
  | cons x rest ih =>
    cases pieces' with
    | nil => cases htokens
    | cons x' rest' =>
      obtain ⟨gap, w, k, l⟩ := x
      obtain ⟨gap', w', k', l'⟩ := x'
      obtain ⟨hx, hrest⟩ := List.forall_mem_cons.mp h
      obtain ⟨hx', hrest'⟩ := List.forall_mem_cons.mp h'
      simp only [tokens, List.cons.injEq, Token.mk.injEq] at htokens
      obtain ⟨⟨rfl, rfl, hpos⟩, htail⟩ := htokens
      simp only [cover, List.flatMap_cons, List.append_assoc] at htext
      obtain rfl := Pos.eq_of_after_eq ⟨_, rfl⟩ ⟨_, htext.symm⟩ hpos
      have hlen : w.length = w'.length := by rw [hx.2.length_of_kind, hx'.2.length_of_kind]
      obtain ⟨rfl, hcover⟩ := List.append_inj (List.append_cancel_left htext) hlen
      rw [ih hrest hrest' htail hcover]

def Covered (source : Bytes) : Prop :=
  ∃ pieces gap q, source = Piece.cover pieces ++ gap ∧ (∀ x ∈ pieces, x.Sound) ∧ Skipped gap ∧
    scan source = Piece.tokens .start pieces ++ [endAt q]

theorem Longest.of_front {P : Bytes → Prop} {w : Bytes} (h : Longest P t w) (hw : w <+: s)
    (hs : s <+: t) : Longest P s w :=
  ⟨h.holds, hw, fun hv hfront => h.longest hv (hfront.trans hs)⟩

/-- What is read before an unknown character does not depend on what comes after it. -/
theorem Reads.of_front (h : Reads t r) (hf : r.fault = some (.unknownCharacter b)) :
    r.cover ++ [b] <+: t ∧ ∀ {s}, r.cover ++ [b] <+: s → s <+: t → Reads s r := by
  induction h with
  | finished => cases hf
  | @broken gap rest f hgap htaken =>
    cases hf
    cases htaken with
    | @unknown b rest hb =>
      refine ⟨⟨rest, by simp [Reading.cover, Piece.cover]⟩, ?_⟩
      rintro s ⟨u, rfl⟩ hs
      simp only [Reading.cover, Piece.cover, List.flatMap_nil, List.nil_append,
        List.append_assoc, List.singleton_append] at hs ⊢
      exact .broken (hgap.of_front (List.prefix_append _ _) hs) (.unknown hb)
  | @token gap w rest l k r hgap htaken hr ih =>
    obtain ⟨hfront, hreads⟩ := ih hf
    obtain ⟨hlong, hw⟩ := htaken.of_ok
    have hcover : ({ r with pieces := ⟨gap, w, k, l⟩ :: r.pieces } : Reading).cover =
        gap ++ (w ++ r.cover) := by
      simp [Reading.cover, Piece.cover]
    rw [hcover]
    simp only [List.append_assoc, List.prefix_append_right_inj] at hfront ⊢
    refine ⟨hfront, ?_⟩
    rintro s ⟨u, rfl⟩ hs
    simp only [List.append_assoc] at hs ⊢
    have hsw := (List.prefix_append_right_inj gap).mp hs
    have hrest := (List.prefix_append_right_inj w).mp hsw
    have hgap' := hgap.of_front (List.prefix_append gap _) hs
    have hlong' := hlong.of_front (List.prefix_append w _) hsw
    exact .token hgap' (.token hlong' hw) (hreads ⟨u, by simp⟩ hrest)

theorem Reads.illegal?_iff (h : Reads source r) (hf : r.fault = some (.unknownCharacter b)) :
    illegal? (scan source) = some (.unknownCharacter b, Pos.start.after r.cover) ↔
      0 ∉ r.cover ++ [b] := by
  obtain ⟨hfront, hreads⟩ := h.of_front hf
  obtain ⟨r₀, tail, hr₀, hscan, htail⟩ := exists_reads (source.takeWhile (· ≠ 0)) .start
  have hillegal : illegal? (scan source) = r₀.fault.map (·, Pos.start.after r₀.cover) := by
    rw [scan, hscan]
    exact hr₀.illegal?_eq htail
  have hcut : source.takeWhile (· ≠ 0) <+: source := List.takeWhile_prefix _
  rw [hillegal, Option.map_eq_some_iff]
  constructor
  · rintro ⟨f, hf₀, heq⟩
    obtain ⟨rfl, hpos⟩ := Prod.mk.inj heq
    have hfront₀ := (hr₀.of_front hf₀).1
    have hcover : r₀.cover = r.cover :=
      Pos.eq_of_after_eq ((List.prefix_append _ _).trans (hfront₀.trans hcut))
        ((List.prefix_append _ _).trans hfront) hpos
    rw [hcover] at hfront₀
    exact fun h0 => by simpa using List.mem_takeWhile_imp (hfront₀.subset h0)
  · intro h0
    obtain ⟨u, hu⟩ := hfront
    have hfront : r.cover ++ [b] <+: source.takeWhile (· ≠ 0) := by
      rw [← hu, List.takeWhile_append_of_pos fun c hc => by
        simpa using ne_of_mem_of_not_mem hc h0]
      exact List.prefix_append _ _
    obtain rfl := (hreads hfront hcut).unique hr₀
    exact ⟨_, hf, rfl⟩

end Token

open Token

variable {source : Bytes} {p : Program}

theorem Program.parse_takeWhile_append (source tail : Bytes) :
    parse (source.takeWhile (· ≠ 0) ++ 0 :: tail) = parse source := by
  have hcut : (source.takeWhile (· ≠ 0) ++ 0 :: tail).takeWhile (· ≠ 0) =
      source.takeWhile (· ≠ 0) := by
    rw [List.takeWhile_append_of_pos fun _ hc => by simpa using List.mem_takeWhile_imp hc]
    simp
  rw [parse, parse, scan, scan, hcut]

theorem Program.exists_reading_of_parse (h : parse source = .ok p) : ∃ r,
    Reads (source.takeWhile (· ≠ 0)) r ∧ r.fault = none ∧ r.cover = source.takeWhile (· ≠ 0) ∧
    scan source = Piece.tokens .start r.pieces ++ [endAt (Pos.start.after r.cover)] ∧
    (Covered source ↔ Skipped (r.gap ++ source.dropWhile (· ≠ 0))) := by
  have hlegal := illegal?_of_parse h
  obtain ⟨r, tail, hr, hscan, htail⟩ := exists_reads (source.takeWhile (· ≠ 0)) .start
  have hfault : r.fault = none := by
    rw [scan, hscan, hr.illegal?_eq htail] at hlegal
    exact Option.map_eq_none_iff.mp hlegal
  obtain ⟨rest, hcover, hrest⟩ := hr.exists_append
  rw [hrest hfault, List.append_nil] at hcover
  rw [hfault] at htail
  cases htail
  have hsource : source = Piece.cover r.pieces ++ (r.gap ++ source.dropWhile (· ≠ 0)) := by
    rw [← List.append_assoc, ← Reading.cover, ← hcover, List.takeWhile_append_dropWhile]
  refine ⟨r, hr, hfault, hcover.symm, hscan, ?_, ?_⟩
  · rintro ⟨pieces, gap, q, htext, hsound, hgap, htokens⟩
    rw [scan, hscan] at htokens
    obtain ⟨heq, -⟩ := List.append_inj' htokens rfl
    rw [hsource] at htext
    obtain rfl := Piece.tokens_inj hr.sound hsound heq htext
    rwa [List.append_cancel_left htext]
  · intro hgap
    exact ⟨r.pieces, _, _, hsource, hr.sound, hgap, hscan⟩

/-- A program is read from the text before the first NUL byte, which its tokens and what is skipped
cover. What comes after that text is not looked at, whatever it is. So the text as a whole is
covered just if all that comes after the last token could be skipped. A character that begins no
token is reported just if no NUL byte comes before it and it is none itself. -/
theorem Program.parse_covers (source : Bytes) :
    (∀ p, parse source = .ok p → ∃ r,
      Reads (source.takeWhile (· ≠ 0)) r ∧ r.fault = none ∧ r.cover = source.takeWhile (· ≠ 0) ∧
      scan source = Piece.tokens .start r.pieces ++ [endAt (Pos.start.after r.cover)] ∧
      (Covered source ↔ Skipped (r.gap ++ source.dropWhile (· ≠ 0))) ∧
      ∀ tail, parse (r.cover ++ 0 :: tail) = .ok p) ∧
    ∀ r b, Reads source r → r.fault = some (.unknownCharacter b) →
      (illegal? (scan source) = some (.unknownCharacter b, Pos.start.after r.cover) ↔
        0 ∉ r.cover ++ [b]) := by
  refine ⟨fun p hp => ?_, fun r b hr hf => hr.illegal?_iff hf⟩
  obtain ⟨r, hr, hfault, hcover, hscan, hcovered⟩ := exists_reading_of_parse hp
  refine ⟨r, hr, hfault, hcover, hscan, hcovered, fun tail => ?_⟩
  rw [hcover, parse_takeWhile_append, hp]

def cutShort : Bytes := text "x" ++ 0 :: text "@"

/-- The text is parsed, although no token and nothing that is skipped covers its last two bytes. -/
theorem Program.not_covered_cutShort : (∃ p, parse cutShort = .ok p) ∧ ¬ Covered cutShort := by
  have hp : parse cutShort = .ok ⟨[.expr ⟨.ident, text "x", ⟨1, 1⟩⟩
      (.ident ⟨⟨.ident, text "x", ⟨1, 1⟩⟩, text "x"⟩)]⟩ := by cbv
  obtain ⟨r, hr, -, hcover, hscan, hcovered⟩ := exists_reading_of_parse hp
  refine ⟨⟨_, hp⟩, fun h => ?_⟩
  have hdrop : cutShort.dropWhile (· ≠ 0) = [0, 0x40] := by decide
  have htake : cutShort.takeWhile (· ≠ 0) = [0x78] := by decide
  have hskipped := hcovered.mp h
  rw [hdrop] at hskipped
  rw [htake, Reading.cover] at hcover
  generalize r.gap = gap at hskipped hcover
  cases gap with
  | nil =>
    cases hskipped with
    | blank hb => cases hb
  | cons b gap =>
    have hb : b ∈ [(0x78 : UInt8)] := by
      rw [← hcover]
      simp
    rw [List.mem_singleton.mp hb] at hskipped
    cases hskipped with
    | blank hb => cases hb

end CornScript
