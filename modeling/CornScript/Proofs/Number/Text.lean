import CornScript.Proofs.Number.Scientific
import CornScript.Proofs.Token.Concatenation

/-! # The text of a number

The text of a decimal is a numeral, and the decimal that it is read as has the same value: the
digits are those of the decimal with zeros around them, and the point stands where it has to. The
text of a finite number is that of its shortest decimal, after a minus for a negative number.
-/

namespace CornScript

namespace Bytes

variable {n : Nat} {b : UInt8}

theorem toNat_toUInt8 {c : Char} (h : c.isDigit = true) : c.toUInt8.toNat = c.toNat := by
  obtain ⟨-, hhigh⟩ := Char.isDigit_iff_toNat.mp h
  exact Nat.mod_eq_of_lt (hhigh.trans_lt (by decide))

theorem ofNat_ne_nil (n : Nat) : ofNat n ≠ [] :=
  fun h => Nat.toDigits_ne_nil (List.map_eq_nil_iff.mp h)

theorem isDigit_of_mem_ofNat (h : b ∈ ofNat n) : isDigit b = true := by
  obtain ⟨c, hc, rfl⟩ := List.mem_map.mp h
  have hdigit := Nat.isDigit_of_mem_toDigits (by decide) (by decide) hc
  obtain ⟨hlow, hhigh⟩ := Char.isDigit_iff_toNat.mp hdigit
  rw [← toNat_toUInt8 hdigit] at hlow hhigh
  simpa [isDigit, UInt8.le_iff_toNat_le] using And.intro hlow hhigh

theorem foldl_ofNat {l : List Char} (h : ∀ c ∈ l, c.isDigit = true) (init : Nat) :
    (l.map Char.toUInt8).foldl (fun n b => 10 * n + (b.toNat - 0x30)) init =
      Nat.ofDigitChars 10 l init := by
  induction l generalizing init with
  | nil => rfl
  | cons c l ih =>
    rw [List.map_cons, List.foldl_cons, ih (fun c hc => h c (List.mem_cons_of_mem _ hc)),
      toNat_toUInt8 (h c List.mem_cons_self), Nat.ofDigitChars_cons]
    rfl

theorem toNat_ofNat (n : Nat) : toNat (ofNat n) = n :=
  (foldl_ofNat (fun _ => Nat.isDigit_of_mem_toDigits (by decide) (by decide)) 0).trans
    (Nat.ofDigitChars_toDigits (by decide) (by decide))

theorem toNat_replicate_append (k : Nat) (s : Bytes) :
    toNat (List.replicate k 0x30 ++ s) = toNat s := by
  induction k with
  | zero => rfl
  | succ k ih => exact ih

theorem toNat_append_replicate (s : Bytes) (k : Nat) :
    toNat (s ++ List.replicate k 0x30) = toNat s * 10 ^ k := by
  induction k with
  | zero => simp
  | succ k ih =>
    rw [List.replicate_succ', ← List.append_assoc, toNat, List.foldl_append, ← toNat, ih]
    simp only [List.foldl_cons, List.foldl_nil, pow_succ]
    change 10 * (toNat s * 10 ^ k) + 0 = _
    ring

theorem isDigit_of_mem_replicate {k : Nat} (h : b ∈ List.replicate k 0x30) : isDigit b = true := by
  rw [List.eq_of_mem_replicate h]
  rfl

end Bytes

namespace Decimal

open Bytes (isDigit)
open Token (Numeral)

variable {n e : Nat} {whole fraction : Bytes} {d : Decimal}

theorem ofLiteral_whole (h : ∀ b ∈ whole, isDigit b) :
    ofLiteral whole = ⟨Bytes.toNat whole, 0⟩ := by
  have hend : ∀ c ∈ ([] : Bytes).head?, isDigit c = false := nofun
  have htake := Token.takeWhile_append_eq h hend
  have hdrop := Token.dropWhile_append_eq h hend
  rw [List.append_nil] at htake hdrop
  rw [ofLiteral, htake, hdrop]
  simp

theorem ofLiteral_fraction (h : ∀ b ∈ whole, isDigit b) :
    ofLiteral (whole ++ 0x2E :: fraction) =
      ⟨Bytes.toNat (whole ++ fraction), -fraction.length⟩ := by
  have hpoint : ∀ c ∈ (0x2E :: fraction).head?, isDigit c = false := by
    rintro _ ⟨⟩
    rfl
  rw [ofLiteral, Token.takeWhile_append_eq h hpoint, Token.dropWhile_append_eq h hpoint]
  rfl

/-- The digits are divided by the point, with zeros before them where there are too few. -/
theorem layout_negSucc (n e : Nat) : ∃ whole fraction : Bytes,
    layout ⟨n, .negSucc e⟩ = whole ++ 0x2E :: fraction ∧ whole ≠ [] ∧ fraction.length = e + 1 ∧
      (∀ b ∈ whole ++ fraction, isDigit b) ∧ Bytes.toNat (whole ++ fraction) = n := by
  generalize hpadded :
    List.replicate (e + 2 - (Bytes.ofNat n).length) 0x30 ++ Bytes.ofNat n = padded
  have hlength : e + 2 ≤ padded.length := by
    rw [← hpadded, List.length_append, List.length_replicate]
    omega
  have hwhole : 0 < (padded.take (padded.length - (e + 1))).length := by
    rw [List.length_take]
    omega
  refine ⟨padded.take (padded.length - (e + 1)), padded.drop (padded.length - (e + 1)),
    ?_, List.ne_nil_of_length_pos hwhole, ?_, ?_, ?_⟩
  · simp only [layout, hpadded]
  · rw [List.length_drop]
    omega
  · rw [List.take_append_drop, ← hpadded]
    intro b hb
    exact (List.mem_append.mp hb).elim Bytes.isDigit_of_mem_replicate Bytes.isDigit_of_mem_ofNat
  · rw [List.take_append_drop, ← hpadded, Bytes.toNat_replicate_append, Bytes.toNat_ofNat]

theorem isDigit_of_mem_layout (n e : Nat) : ∀ b ∈ layout ⟨n, e⟩, isDigit b := by
  intro b hb
  exact (List.mem_append.mp hb).elim Bytes.isDigit_of_mem_ofNat Bytes.isDigit_of_mem_replicate

theorem numeral_layout (d : Decimal) : Numeral (layout d) := by
  obtain ⟨n, e | e⟩ := d
  · have hne : layout ⟨n, e⟩ ≠ [] := List.append_ne_nil_of_left_ne_nil (Bytes.ofNat_ne_nil n) _
    exact .whole hne (isDigit_of_mem_layout n e)
  · obtain ⟨whole, fraction, heq, hwhole, hlength, hdigits, -⟩ := layout_negSucc n e
    have hfraction : fraction ≠ [] := List.ne_nil_of_length_pos (hlength ▸ Nat.succ_pos e)
    rw [heq]
    exact .fraction hwhole (fun b hb => hdigits b (List.mem_append_left _ hb)) hfraction
      (fun b hb => hdigits b (List.mem_append_right _ hb))

theorem ofLiteral_layout_ofNat (n e : Nat) : ofLiteral (layout ⟨n, e⟩) = ⟨n * 10 ^ e, 0⟩ := by
  rw [ofLiteral_whole (isDigit_of_mem_layout n e)]
  change (⟨Bytes.toNat (Bytes.ofNat n ++ List.replicate e 0x30), 0⟩ : Decimal) = _
  rw [Bytes.toNat_append_replicate, Bytes.toNat_ofNat]

theorem ofLiteral_layout_negSucc (n e : Nat) :
    ofLiteral (layout ⟨n, .negSucc e⟩) = ⟨n, .negSucc e⟩ := by
  obtain ⟨whole, fraction, heq, -, hlength, hdigits, hvalue⟩ := layout_negSucc n e
  rw [heq, ofLiteral_fraction fun b hb => hdigits b (List.mem_append_left _ hb), hvalue, hlength]
  rfl

theorem toFloat_ofLiteral_layout (h : d.exponent ≤ 2048) :
    (ofLiteral (layout d)).toFloat = d.toFloat := by
  obtain ⟨n, e | e⟩ := d
  · have he : e ≤ 2048 := Int.ofNat_le.mp h
    exact (congrArg toFloat (ofLiteral_layout_ofNat n e)).trans (Number.toFloat_mul_pow n he)
  · rw [ofLiteral_layout_negSucc]

end Decimal

namespace Number

variable {m : Nat} {e : Int} {v : Float} {negative : Bool}

theorem toText_eq (h : parts v = .finite negative m e) :
    toText v = (if negative then [0x2D] else []) ++ (Decimal.shortest v.abs m e).layout := by
  simp only [toText, h]
  cases negative <;> rfl

example : toText (-1e-7) = text "-0.0000001" := by decide +kernel

/-- The text of a finite number, up to its sign, is a literal for the number without a sign. -/
theorem ofLiteral?_layout (h : parts v = .finite negative m e) :
    ofLiteral? (Decimal.shortest v.abs m e).layout = some v.abs := by
  obtain ⟨hreads, hexp⟩ := Decimal.toFloat_shortest h
  have hfinite : v.abs.isInf = false := by
    rw [abs_eq h]
    exact isInf_toFloat (canonical_of_parts h)
  simp only [ofLiteral?, Decimal.toFloat_ofLiteral_layout hexp, hreads, hfinite]
  rfl

theorem neg_abs (h : parts v = .finite true m e) : -v.abs = v := by
  rw [abs_eq h, neg_toFloat (canonical_of_parts h), toFloat_parts h]

end Number

end CornScript
