import CornScript.Proofs.Token.Concatenation
import Mathlib

/-! # Tokens that are written out

A token is written as its literal, and a string between quotes that it does not have. There are such
quotes for every string of a text, since a string ends with the first quote of the kind that it
begins with. With one blank between them, the tokens of a text are read again as they are: no token
goes on in a blank, and none begins in it.
-/

namespace CornScript.Token

variable {source w : Bytes} {ws : List Bytes} {t : Token} {ts : List Token}

/-- The texts that a token can be written as. -/
inductive Written (t : Token) : Bytes → Prop where
  | plain : t.kind ≠ .string → Written t t.literal
  | quoted {q : UInt8} : t.kind = .string → IsQuote q → q ∉ t.literal →
    Written t (q :: (t.literal ++ [q]))

def beforeEnd (tokens : List Token) : List Token :=
  tokens.takeWhile (·.kind ≠ .endOfInput)

theorem Genuine.exists_quote (h : t.Genuine) (hkind : t.kind = .string) :
    ∃ q, IsQuote q ∧ q ∉ t.literal := by
  have hoperators : ∀ r ∈ operators, r.2 ≠ .string := by decide
  have hword (w : Bytes) : Kind.ofWord w ≠ .string :=
    Kind.holds_ofWord (P := (· ≠ .string)) nofun (by decide) w
  obtain ⟨k, l, p⟩ := t
  obtain ⟨⟨w, hw⟩, -⟩ := h
  dsimp only at hw hkind ⊢
  cases hw with
  | word => exact absurd hkind (hword _)
  | number => cases hkind
  | quoted hq hinner => exact ⟨_, hq, hinner⟩
  | operator hop => exact absurd hkind (hoperators _ hop)

theorem Genuine.exists_written (h : t.Genuine) : ∃ w, Written t w := by
  by_cases hkind : t.kind = .string
  · obtain ⟨q, hq, hquote⟩ := h.exists_quote hkind
    exact ⟨_, .quoted hkind hq hquote⟩
  · exact ⟨_, .plain hkind⟩

theorem Written.spells (h : Written t w) (ht : t.Genuine) : Spells w [t.unplaced] := by
  cases h with
  | plain hkind => exact .of_genuine ht hkind
  | quoted hkind hq hquote => exact ⟨fun _ => ht.lexes_quoted hkind hq hquote⟩

theorem exists_written_all (h : ∀ t ∈ ts, t.Genuine) : ∃ ws, List.Forall₂ Written ts ws := by
  induction ts with
  | nil => exact ⟨[], .nil⟩
  | cons t ts ih =>
    obtain ⟨ht, hts⟩ := List.forall_mem_cons.mp h
    obtain ⟨w, hw⟩ := ht.exists_written
    obtain ⟨ws, hws⟩ := ih hts
    exact ⟨w :: ws, .cons hw hws⟩

theorem spells_written_all (h : ∀ t ∈ ts, t.Genuine) (hws : List.Forall₂ Written ts ws) :
    List.Forall₂ Spells ws (ts.map fun t => [t.unplaced]) := by
  induction hws with
  | nil => exact .nil
  | cons hw _ ih =>
    obtain ⟨ht, hts⟩ := List.forall_mem_cons.mp h
    exact .cons (hw.spells ht) (ih hts)

theorem separates_blank : Separates [0x20] [] := ⟨Lexes.blank, rfl⟩

/-- Tokens that are written with blanks between them are read again. -/
theorem lexes_written (h : ∀ t ∈ ts, t.Genuine) (hws : List.Forall₂ Written ts ws) :
    Lexes (Bytes.join [0x20] ws) (ts.map unplaced) [] := by
  have hspells := spells_written_all h hws
  cases hws with
  | nil => exact .nil
  | cons =>
    rw [List.map_cons, List.forall₂_cons] at hspells
    have hall := (Spells.join_cons separates_blank hspells.1 hspells.2).lexes .nil
    refine hall.congr ?_
    simp [List.flatMap_map, ← List.map_eq_flatMap]

theorem genuine_beforeEnd (hlegal : illegal? (scan source) = none) :
    ∀ t ∈ beforeEnd (scan source), t.Genuine := fun t ht =>
  genuine_of_mem_scan hlegal ((List.takeWhile_prefix _).subset ht)
    (by simpa using List.mem_takeWhile_imp ht)

theorem beforeEnd_scan (source : Bytes) :
    ∃ q, scan source = beforeEnd (scan source) ++ [endAt q] := by
  obtain ⟨ts, q, hscan, hts⟩ := exists_scan_eq source
  refine ⟨q, ?_⟩
  rw [hscan, beforeEnd, List.takeWhile_append_of_pos (by simpa using hts)]
  simp [endAt]

theorem legal_of_content {a b : List Token} (h : a.map content = b.map content)
    (hlegal : illegal? b = none) : illegal? a = none := by
  rw [illegal?_eq_none_iff] at *
  intro t ht
  obtain ⟨u, hu, heq⟩ := List.mem_map.mp (h ▸ List.mem_map_of_mem (f := content) ht)
  have hkind : u.kind = t.kind := congrArg Prod.fst heq
  rw [← hkind]
  exact hlegal u hu

theorem content_scan_join (hlegal : illegal? (scan source) = none)
    (hws : List.Forall₂ Written (beforeEnd (scan source)) ws) :
    (scan (Bytes.join [0x20] ws)).map content = (scan source).map content := by
  have hread := (lexes_written (genuine_beforeEnd hlegal) hws).map_scan
  obtain ⟨q, hsource⟩ := beforeEnd_scan source
  have hend : unplaced (endAt q) = endAt .start := rfl
  have hsame : (scan (Bytes.join [0x20] ws)).map unplaced = (scan source).map unplaced := by
    rw [hread, ← hend, ← List.map_singleton, ← List.map_append, ← hsource]
  have hcontent := congrArg (List.map content) hsame
  rwa [List.map_map, List.map_map] at hcontent

/-- No string of a text without lexical errors has both quotes. The tokens of such a text can be
written out with one blank between them, each string in any quotes that it does not have, and read
again without error as the same tokens. -/
theorem scan_written (hlegal : illegal? (scan source) = none) :
    (∀ t ∈ scan source, t.kind = .string → ¬ (0x22 ∈ t.literal ∧ 0x27 ∈ t.literal)) ∧
      (∃ ws, List.Forall₂ Written (beforeEnd (scan source)) ws) ∧
      ∀ ws, List.Forall₂ Written (beforeEnd (scan source)) ws →
        illegal? (scan (Bytes.join [0x20] ws)) = none ∧
        (scan (Bytes.join [0x20] ws)).map content = (scan source).map content := by
  refine ⟨fun t ht hkind => ?_, exists_written_all (genuine_beforeEnd hlegal), fun ws hws => ?_⟩
  · have ht := genuine_of_mem_scan hlegal ht (hkind ▸ nofun)
    obtain ⟨q, rfl | rfl, hquote⟩ := ht.exists_quote hkind
    · exact fun h => hquote h.1
    · exact fun h => hquote h.2
  · have hsame := content_scan_join hlegal hws
    exact ⟨legal_of_content hsame hlegal, hsame⟩

/-- A point that could be one of a number, slashes that could be a comment, and a string with such
slashes and a quote in it. -/
def crowded : Bytes := text "1. 5/ /'\"//'"

def crowdedWords : List Bytes :=
  [text "1", text ".", text "5", text "/", text "/", text "'\"//'"]

theorem legal_crowded : illegal? (scan crowded) = none := by
  cbv

theorem beforeEnd_crowded : beforeEnd (scan crowded) =
    [⟨.number, text "1", ⟨1, 1⟩⟩, ⟨.dot, text ".", ⟨1, 2⟩⟩, ⟨.number, text "5", ⟨1, 4⟩⟩,
     ⟨.slash, text "/", ⟨1, 5⟩⟩, ⟨.slash, text "/", ⟨1, 7⟩⟩, ⟨.string, text "\"//", ⟨1, 8⟩⟩] := by
  cbv

theorem written_crowded : List.Forall₂ Written (beforeEnd (scan crowded)) crowdedWords := by
  have hplain {k : Kind} {l : Bytes} {p : Pos} (hk : k ≠ .string) : Written ⟨k, l, p⟩ l := .plain hk
  have hquoted : Written ⟨.string, text "\"//", ⟨1, 8⟩⟩ (text "'\"//'") :=
    .quoted rfl (.inr rfl) (by decide)
  simp only [beforeEnd_crowded, crowdedWords, List.forall₂_cons]
  refine ⟨?_, ?_, ?_, ?_, ?_, hquoted, .nil⟩ <;> exact hplain (by decide)

theorem scan_written_crowded : illegal? (scan crowded) = none ∧
    List.Forall₂ Written (beforeEnd (scan crowded)) crowdedWords ∧
    illegal? (scan (Bytes.join [0x20] crowdedWords)) = none ∧
    (scan (Bytes.join [0x20] crowdedWords)).map content = (scan crowded).map content :=
  ⟨legal_crowded, written_crowded, (scan_written legal_crowded).2.2 crowdedWords written_crowded⟩

end CornScript.Token
