import CornScript.Proofs.Parser.Prefix
import CornScript.Proofs.Token.Longest
import CornScript.Session

/-! # Errors point into the text

Places are counted while a text is read, and lines are counted when an error is shown against the
text. Both agree: a place that is reached in a text is on one of its lines, and not further right
than just behind the last byte. The place of an error is that of a token, so an error is always
shown together with its line and a caret under its column.
-/

namespace CornScript

namespace Bytes

theorem lines_newline (s : Bytes) : lines (newline :: s) = [] :: lines s := by
  rw [lines, splitOn, List.foldr_cons, if_pos rfl]
  rfl

theorem lines_cons {b : UInt8} (h : b ≠ newline) (s : Bytes) :
    lines (b :: s) = consPart b (lines s) := by
  rw [lines, splitOn, List.foldr_cons, if_neg h]
  rfl

theorem lines_ne_nil (s : Bytes) : lines s ≠ [] := by
  cases s with
  | nil => exact List.cons_ne_nil _ _
  | cons b s =>
    by_cases hb : b = newline
    · rw [hb, lines_newline]
      exact List.cons_ne_nil _ _
    · rw [lines_cons hb]
      cases lines s <;> exact List.cons_ne_nil _ _

theorem modifyHead_consPart {b : UInt8} {parts : List Bytes} (h : parts ≠ []) (u : Bytes) :
    (consPart b parts).modifyHead (u ++ ·) = parts.modifyHead (u ++ [b] ++ ·) := by
  cases parts with
  | nil => exact absurd rfl h
  | cons part rest => simp [consPart]

theorem modifyHead_nil_append (parts : List Bytes) : parts.modifyHead ([] ++ ·) = parts := by
  cases parts <;> rfl

end Bytes

namespace Pos

variable {p : Pos} {s source : Bytes}

theorem after_cons (p : Pos) (b : UInt8) (s : Bytes) : p.after (b :: s) = (p.step b).after s := rfl

theorem line_le_after (p : Pos) (s : Bytes) : p.line ≤ (p.after s).line := by
  have h := le_def.mp (le_after p s)
  omega

/-- Reading goes on at `p`, on a line that begins with `u`. Then the place after some more text is
on one of the lines, counted from that of `p`. -/
theorem exists_line_after (a t : Bytes) {u : Bytes} (hu : u.length + 1 = p.column) :
    ∃ line, ((Bytes.lines (a ++ t)).modifyHead (u ++ ·))[(p.after a).line - p.line]? = some line ∧
      1 ≤ (p.after a).column ∧ (p.after a).column ≤ line.length + 1 := by
  induction a generalizing p u with
  | nil =>
    obtain ⟨first, rest, hlines⟩ := List.exists_cons_of_ne_nil (Bytes.lines_ne_nil t)
    refine ⟨u ++ first, ?_, ?_, ?_⟩
    · simp [hlines, after]
    · simp only [after, List.foldl_nil]
      omega
    · simp only [after, List.foldl_nil, List.length_append]
      omega
  | cons b a ih =>
    rw [after_cons, List.cons_append]
    by_cases hb : b = Bytes.newline
    · -- A new line begins, and what was read of the last one no longer matters.
      have hstep : p.step b = ⟨p.line + 1, 1⟩ := if_pos hb
      obtain ⟨line, hline, hcolumn⟩ := ih (p := p.step b) (u := []) (by rw [hstep]; rfl)
      refine ⟨line, ?_, hcolumn⟩
      have hle := line_le_after (p.step b) a
      have hindex : ((p.step b).after a).line - p.line =
          ((p.step b).after a).line - (p.step b).line + 1 := by
        rw [hstep] at hle ⊢
        dsimp only at hle ⊢
        omega
      rw [hb, Bytes.lines_newline, ← hb, hindex, List.modifyHead_cons, List.getElem?_cons_succ]
      rwa [Bytes.modifyHead_nil_append] at hline
    · have hstep : p.step b = ⟨p.line, p.column + 1⟩ := if_neg hb
      obtain ⟨line, hline, hcolumn⟩ := ih (p := p.step b) (u := u ++ [b]) (by simp [hstep, hu])
      refine ⟨line, ?_, hcolumn⟩
      rw [Bytes.lines_cons hb, Bytes.modifyHead_consPart (Bytes.lines_ne_nil _)]
      rwa [hstep] at hline ⊢

/-- There is such a line in the text, and the column is that of one of its bytes or the one behind
them. -/
structure OnLine (p : Pos) (line source : Bytes) : Prop where
  line_pos : 1 ≤ p.line
  line_eq : (Bytes.lines source)[p.line - 1]? = some line
  column_pos : 1 ≤ p.column
  column_le : p.column ≤ line.length + 1

theorem OnLine.line_le {line : Bytes} (h : p.OnLine line source) :
    p.line ≤ (Bytes.lines source).length := by
  have hlt := (List.getElem?_eq_some_iff.mp h.line_eq).1
  omega

theorem exists_onLine (h : s <+: source) : ∃ line, (start.after s).OnLine line source := by
  obtain ⟨t, rfl⟩ := h
  obtain ⟨line, hline, hpos, hle⟩ := exists_line_after (p := start) s t (u := []) rfl
  rw [Bytes.modifyHead_nil_append] at hline
  exact ⟨line, line_le_after start s, hline, hpos, hle⟩

end Pos

namespace Token

variable {source : Bytes} {t : Token}

theorem exists_after_of_mem_scanFrom {s : Bytes} {p : Pos} (h : t ∈ scanFrom s p) :
    ∃ a, a <+: s ∧ t.pos = p.after a := by
  fun_induction scanFrom s p with
  | case1 s p q hskip =>
    obtain ⟨gap, hs, hq, -⟩ := skip_longest false s p
    rw [hskip] at hs hq
    rw [List.mem_singleton.mp h]
    exact ⟨gap, ⟨_, hs.symm⟩, hq⟩
  | case2 s p b rest q hskip lexeme token next hk =>
    obtain ⟨gap, hs, hq, -⟩ := skip_longest false s p
    rw [hskip] at hs hq
    dsimp only at hs hq
    subst hs hq
    rcases List.mem_cons.mp h with rfl | h
    · exact ⟨gap, List.prefix_append .., rfl⟩
    · rw [List.mem_singleton.mp h]
      refine ⟨gap ++ (b :: rest).take lexeme.width, ?_, (Pos.after_append ..).symm⟩
      exact (List.prefix_append_right_inj gap).mpr (List.take_prefix ..)
  | case3 s p b rest q hskip lexeme token next hk ih =>
    obtain ⟨gap, hs, hq, -⟩ := skip_longest false s p
    rw [hskip] at hs hq
    dsimp only at hs hq
    subst hs hq
    rcases List.mem_cons.mp h with rfl | h
    · exact ⟨gap, List.prefix_append .., rfl⟩
    · obtain ⟨a, ha, hpos⟩ := ih h
      refine ⟨gap ++ ((b :: rest).take lexeme.width ++ a), ?_, ?_⟩
      · have happend := (List.prefix_append_right_inj ((b :: rest).take lexeme.width)).mpr ha
        rw [List.take_append_drop] at happend
        exact (List.prefix_append_right_inj gap).mpr happend
      · rw [hpos, Pos.after_append, Pos.after_append]

theorem exists_onLine_of_mem_scan (h : t ∈ scan source) : ∃ line, t.pos.OnLine line source := by
  obtain ⟨a, ha, hpos⟩ := exists_after_of_mem_scanFrom h
  rw [hpos]
  exact Pos.exists_onLine (ha.trans (List.takeWhile_prefix _))

end Token

namespace Diagnostic

def snippet (number line blanks : Bytes) : Bytes :=
  let gutter := List.replicate number.length 0x20
  text " " ++ gutter ++ text " |\n " ++ number ++ text " | " ++ line ++
    text "\n " ++ gutter ++ text " | " ++ blanks ++ text "^\n"

def IsIndent (row blanks : Bytes) : Prop :=
  ∀ i < blanks.length, blanks[i]? = some (if row[i]? = some 0x09 then 0x09 else 0x20)

theorem length_indent (row : Bytes) (n : Nat) : (indent row n).length = n := by
  simp only [indent, List.length_append, List.length_map, List.length_take, List.length_replicate]
  omega

theorem isIndent_indent (row : Bytes) (n : Nat) : IsIndent row (indent row n) := by
  intro i hi
  rw [length_indent] at hi
  unfold indent
  by_cases hrow : i < row.length
  · have hlt : i < (row.take n).length := by
      rw [List.length_take]
      omega
    rw [List.getElem?_append_left (by rwa [List.length_map]), List.getElem?_map,
      List.getElem?_take_of_lt hi, List.getElem?_eq_getElem hrow]
    simp only [Option.map_some, Option.some.injEq]
  · have hle : row.take n = row := List.take_of_length_le (by omega)
    rw [hle, List.getElem?_append_right (by rw [List.length_map]; omega), List.length_map,
      List.getElem?_replicate_of_lt (by omega), List.getElem?_eq_none (by omega), if_neg nofun]

theorem IsIndent.unique {row blanks blanks' : Bytes} (h : IsIndent row blanks)
    (h' : IsIndent row blanks') (hlength : blanks.length = blanks'.length) : blanks = blanks' := by
  refine List.ext_getElem? fun i => ?_
  by_cases hi : i < blanks.length
  · exact (h i hi).trans (h' i (hlength ▸ hi)).symm
  · rw [List.getElem?_eq_none (by omega), List.getElem?_eq_none (by omega)]

end Diagnostic

open Diagnostic

variable {source : Bytes} {e : SyntaxError}

theorem SyntaxError.render_diagnostic {line : Bytes} (h : e.pos.OnLine line source) (name : Bytes) :
    e.diagnostic.render name source =
      text "Parse error" ++ text ": " ++ e.message ++ text "\n  --> " ++
        (if name.isEmpty then text "<input>" else name) ++ text ":" ++ Bytes.ofNat e.pos.line ++
        text ":" ++ Bytes.ofNat e.pos.column ++ text "\n" ++
        snippet (Bytes.ofNat e.pos.line) line (indent line (e.pos.column - 1)) := by
  have hline : e.diagnostic.line? source = some line := by
    have hpos : ¬ e.diagnostic.line < 1 := by
      have := h.line_pos
      simp only [diagnostic]
      omega
    have hnat : (e.diagnostic.line - 1).toNat = e.pos.line - 1 := by
      simp only [diagnostic]
      omega
    rw [line?, if_neg hpos, hnat, h.line_eq]
  have hcolumn : (e.diagnostic.column - 1).toNat = e.pos.column - 1 := by
    simp only [diagnostic]
    omega
  rw [render, hline, hcolumn]
  simp only [diagnostic, snippet, Bytes.ofInt, List.append_assoc]

/-- The place of an error is on a line of the text, at one of its bytes or just behind them. Under
whatever name the text is shown, the error is shown with that line and with a caret under the
column: the blanks in front of it are as many as there are bytes before the column. -/
theorem Program.parse_error_shown (h : parse source = .error e) :
    ∃ line blanks, e.pos.OnLine line source ∧ e.pos.line ≤ (Bytes.lines source).length ∧
      blanks.length = e.pos.column - 1 ∧ IsIndent line blanks ∧
      ∀ name, e.diagnostic.render name source =
        text "Parse error" ++ text ": " ++ e.message ++ text "\n  --> " ++
          (if name.isEmpty then text "<input>" else name) ++ text ":" ++ Bytes.ofNat e.pos.line ++
          text ":" ++ Bytes.ofNat e.pos.column ++ text "\n" ++
          snippet (Bytes.ofNat e.pos.line) line blanks := by
  obtain ⟨t, ht, hpos⟩ := exists_pos_of_parse h
  obtain ⟨line, hline⟩ := Token.exists_onLine_of_mem_scan ht
  rw [← hpos] at hline
  exact ⟨line, indent line (e.pos.column - 1), hline, hline.line_le, length_indent _ _,
    isIndent_indent _ _, SyntaxError.render_diagnostic hline⟩

def openString : Bytes := text "let a = b;\n\tf('c\n"

theorem Program.parse_error_shown_openString : ∃ e, parse openString = .error e ∧
    e.pos.OnLine (text "\tf('c") openString ∧
    e.diagnostic.render (text "a.corny") openString = text
      "Parse error: unterminated string\n  --> a.corny:2:4\n   |\n 2 | \tf('c\n   | \t  ^\n" := by
  have herror : parse openString =
      .error ⟨.lexical .unterminatedString, text "c\n", ⟨2, 4⟩⟩ := by cbv
  have hlines : (Bytes.lines openString)[1]? = some (text "\tf('c") := by cbv
  refine ⟨_, herror, ?_⟩
  obtain ⟨line, blanks, hline, -, hlength, hblanks, hrender⟩ := parse_error_shown herror
  obtain rfl : text "\tf('c" = line := Option.some.inj (hlines.symm.trans hline.line_eq)
  refine ⟨hline, ?_⟩
  have hindent : blanks = indent (text "\tf('c") 3 :=
    hblanks.unique (isIndent_indent _ 3) (hlength.trans (length_indent _ 3).symm)
  rw [hrender, hindent]
  cbv

end CornScript
