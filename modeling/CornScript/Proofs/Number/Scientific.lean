import CornScript.Number.Decimal
import CornScript.Proofs.Number.Packing

/-! # Decimals as numbers

A decimal is read by one multiplication or division, of 64-bit numbers where both operands are short
enough and of exact integers otherwise. Both ways come to the same: the number read depends on the
value of the decimal only, and a decimal with the value of a number is read as that number.
-/

namespace CornScript

namespace Number

open Float.Model Float.Model.UnpackedFloat

variable {m n k : Nat} {e : Int}

theorem log2_le_of_lt (hn : 0 < n) (h : n < 2 ^ 53) : n.log2 ≤ 52 :=
  Nat.le_of_lt_succ ((Nat.log2_lt hn.ne').mpr h)

theorem canonical_of_lt (hn : 0 < n) (h : n < 2 ^ 53) :
    Canonical (n * 2 ^ (52 - n.log2)) (0 - (52 - n.log2 : Nat)) := by
  have hlog := log2_le_of_lt hn h
  have hpow : 2 ^ n.log2 * 2 ^ (52 - n.log2) = 2 ^ 52 := by
    rw [← pow_add, Nat.add_sub_cancel' hlog]
  have hlow := Nat.mul_le_mul_right (2 ^ (52 - n.log2)) (Nat.log2_self_le hn.ne')
  have hhigh : n * 2 ^ (52 - n.log2) < 2 ^ (n.log2 + 1) * 2 ^ (52 - n.log2) :=
    Nat.mul_lt_mul_of_pos_right Nat.lt_log2_self (by positivity)
  rw [pow_succ', Nat.mul_assoc, hpow] at hhigh
  rw [hpow] at hlow
  exact ⟨Nat.mul_pos hn (by positivity), by omega, by omega, by omega, .inl hlow⟩

theorem unpacked_ofUInt64 (hn : 0 < n) (h : n < 2 ^ 53) :
    UnpackedFloat.ofUInt64 .binary64 n.toUInt64 = .finite .positive (n * 2 ^ (52 - n.log2))
      (0 - (52 - n.log2 : Nat)) (canonical_of_lt hn h).pos := by
  have hlog := log2_le_of_lt hn h
  have hsmall : n.toUInt64.toNat = n := Nat.mod_eq_of_lt (h.trans (by decide))
  have hshift : (0 - target n 0).toNat = 52 - n.log2 := by
    rw [target_def]
    omega
  rw [UnpackedFloat.ofUInt64, hsmall, UnpackedFloat.ofNat, UnpackedFloat.ofInt,
    UnpackedFloat.normalize, Int.compare_eq_gt.mpr (by omega)]
  change roundWithAccuracy .binary64 .positive (n <<< (0 - target n 0).toNat)
    (0 - (0 - target n 0).toNat) .exact = _
  rw [hshift, Nat.shiftLeft_eq]
  exact (canonical_of_lt hn h).roundWithAccuracy_eq (canonical_of_lt hn h).pos rfl le_rfl

theorem unpack_ofUInt64 (hn : 0 < n) (h : n < 2 ^ 53) : ∃ m e, ∃ hm : 0 < m,
    n.toUInt64.toFloat.toModel.unpack = .finite .positive m e hm ∧ scale m e = scale n 0 ∧
      52 ≤ m.log2 := by
  have hc := canonical_of_lt hn h
  have hlog : 52 ≤ (n * 2 ^ (52 - n.log2)).log2 := by
    rw [log2_mul_two_pow hn]
    omega
  refine ⟨_, _, hc.pos, ?_, scale_shift n 0 _, hlog⟩
  change UnpackedFloat.unpack .binary64 (UnpackedFloat.pack .binary64 _) = _
  rw [unpacked_ofUInt64 hn h, hc.unpack_pack]

theorem unpack_powerOfTen (hk : k < Float.exactlyRepresentablePowersOfTen.size) :
    ∃ m e, ∃ hm : 0 < m,
      Float.exactlyRepresentablePowersOfTen[k].toModel.unpack = .finite .positive m e hm ∧
        scale m e = scale (10 ^ k) 0 := by
  have htable : ∀ k : Fin 23, parts Float.exactlyRepresentablePowersOfTen[k] =
      .finite false (5 ^ k.val * 2 ^ (52 - (5 ^ k.val).log2))
        (k - (52 - (5 ^ k.val).log2 : Nat)) := by
    decide +kernel
  have hpos : 0 < 5 ^ k * 2 ^ (52 - (5 ^ k).log2) := by positivity
  refine ⟨_, k - (52 - (5 ^ k).log2 : Nat), hpos, ?_, ?_⟩
  · rw [unpack_eq]
    exact (congrArg Parts.unpacked (htable ⟨k, hk⟩)).trans (dif_pos hpos)
  · have hshift := scale_shift (5 ^ k) k k
    rw [← mul_pow, Int.sub_self] at hshift
    exact (scale_shift (5 ^ k) k _).trans hshift.symm

theorem unpacked_ofScientific (hn : 0 < n) (hk : k ≤ 2048) :
    UnpackedFloat.ofScientific .binary64 n (k : Int) =
      roundWithAccuracy .binary64 .positive (n * 2 ^ 53 * 10 ^ k) (0 - (53 : Nat)) .exact := by
  have hbound : (2 : Int) ^ Format.binary64.exponentBits = 2048 := rfl
  rw [UnpackedFloat.ofScientific, dif_neg hn.ne', hbound, if_neg (by omega), if_neg (by omega),
    if_pos (Int.natCast_nonneg k)]
  change roundWithAccuracy .binary64 .positive ((n <<< 53) * 10 ^ k) _ .exact = _
  rw [Nat.shiftLeft_eq]
  rfl

theorem unpacked_ofScientific_negSucc (hn : 0 < n) (hk : k < 2048) (hpow : 0 < 10 ^ (k + 1)) :
    UnpackedFloat.ofScientific .binary64 n (Int.negSucc k) =
      UnpackedFloat.div .binary64 (.finite .positive n 0 hn)
        (.finite .positive (10 ^ (k + 1)) 0 hpow) := by
  have hbound : (2 : Int) ^ Format.binary64.exponentBits = 2048 := rfl
  rw [UnpackedFloat.ofScientific, dif_neg hn.ne', hbound, if_neg (by omega), if_neg (by omega),
    if_neg (by omega)]
  rfl

theorem ofScientific_eq (hn : 0 < n) (hk : k ≤ 2048) (hm : 0 < m)
    (hv : scale m e = scale n 0 * scale (10 ^ k) 0) (hfine : e ≤ target m e) :
    Float.ofScientific n false k =
      .ofModel (.pack (roundWithAccuracy .binary64 .positive m e .exact)) := by
  unfold Float.ofScientific
  -- Both ways come to a product that is too long rather than too short, so only the value counts.
  split
  · next hfast =>
    have hsize : k < Float.exactlyRepresentablePowersOfTen.size := Nat.lt_succ_of_le hfast.2
    obtain ⟨m₁, e₁, hm₁, hunpack₁, hv₁, hlog⟩ := unpack_ofUInt64 hn hfast.1
    obtain ⟨m₂, e₂, hm₂, hunpack₂, hv₂⟩ := unpack_powerOfTen hsize
    have hscale : scale (m₁ * m₂) (e₁ + e₂) = scale m e := by
      rw [scale_mul, hv₁, hv₂, hv]
    have hfine' : e₁ + e₂ ≤ target (m₁ * m₂) (e₁ + e₂) :=
      le_target_of_le_log2 ((Nat.le_add_right_of_le hlog).trans (log2_mul_ge hm₁ hm₂))
    change Float.ofModel (.pack (UnpackedFloat.mul .binary64 n.toUInt64.toFloat.toModel.unpack
      Float.exactlyRepresentablePowersOfTen[k].toModel.unpack)) = _
    rw [hunpack₁, hunpack₂, ← roundWithAccuracy_eq (Nat.mul_pos hm₁ hm₂) hm hscale hfine' hfine]
    rfl
  · have hpos : 0 < n * 2 ^ 53 := by positivity
    have hpow : 0 < 10 ^ k := by positivity
    have hscale : scale (n * 2 ^ 53 * 10 ^ k) (0 - (53 : Nat) + 0) = scale m e := by
      rw [scale_mul, scale_shift, hv]
    have hlog : 52 ≤ (n * 2 ^ 53 * 10 ^ k).log2 := by
      have hlog2 := log2_mul_two_pow hn 53
      have hmul := log2_mul_ge hpos hpow
      omega
    rw [← roundWithAccuracy_eq (Nat.mul_pos hpos hpow) hm hscale (le_target_of_le_log2 hlog) hfine]
    exact congrArg (fun u => Float.ofModel (.pack u)) (unpacked_ofScientific hn hk)

/-- A quotient by a power of ten that is a number is read as that number. -/
theorem Canonical.ofScientific_eq (hc : Canonical m e) (hn : 0 < n) (hk : k < 2048)
    (hv : scale n 0 = scale m e * scale (10 ^ (k + 1)) 0) :
    Float.ofScientific n true (k + 1) = (Parts.finite false m e).toFloat := by
  unfold Float.ofScientific
  rw [Parts.toFloat, Parts.unpacked, dif_pos hc.pos]
  split
  · next hfast =>
    have hsize : k + 1 < Float.exactlyRepresentablePowersOfTen.size := Nat.lt_succ_of_le hfast.2
    obtain ⟨m₁, e₁, hm₁, hunpack₁, hv₁, -⟩ := unpack_ofUInt64 hn hfast.1
    obtain ⟨m₂, e₂, hm₂, hunpack₂, hv₂⟩ := unpack_powerOfTen hsize
    have hdiv := hc.div_eq hm₁ hm₂ (by rw [hv₁, hv₂, hv])
    rw [← hunpack₁, ← hunpack₂] at hdiv
    exact congrArg (fun u => Float.ofModel (.pack u)) hdiv
  · have hpow : 0 < 10 ^ (k + 1) := by positivity
    exact congrArg (fun u => Float.ofModel (.pack u))
      ((unpacked_ofScientific_negSucc hn hk hpow).trans (hc.div_eq hn hpow hv))

theorem ofScientific_zero (k : Nat) (e : Int) :
    Float.ofScientific 0 false k = (Parts.finite false 0 e).toFloat := by
  unfold Float.ofScientific
  split
  · next hfast =>
    have hsize : k < Float.exactlyRepresentablePowersOfTen.size := Nat.lt_succ_of_le hfast.2
    obtain ⟨m₂, e₂, hm₂, hunpack, -⟩ := unpack_powerOfTen hsize
    have hmul : UnpackedFloat.mul .binary64 (.zero .positive) (.finite .positive m₂ e₂ hm₂) =
        .zero .positive := rfl
    rw [← hunpack] at hmul
    exact congrArg (fun u => Float.ofModel (.pack u)) hmul
  · rfl

theorem toFloat_mul_pow (n : Nat) (hk : k ≤ 2048) :
    Decimal.toFloat ⟨n * 10 ^ k, 0⟩ = Decimal.toFloat ⟨n, k⟩ := by
  change Float.ofScientific (n * 10 ^ k) false 0 = Float.ofScientific n false k
  rcases Nat.eq_zero_or_pos n with rfl | hn
  · rw [Nat.zero_mul, ofScientific_zero 0 0, ofScientific_zero k 0]
  · have hpos : 0 < n * 10 ^ k := by positivity
    have hlog : 52 ≤ (n * 10 ^ k * 2 ^ 53).log2 := by
      have hlog2 := log2_mul_two_pow hpos 53
      omega
    have hshift := scale_shift (n * 10 ^ k) 0 53
    have hone : scale (10 ^ 0) 0 = 1 := by simp [scale]
    rw [Number.ofScientific_eq hpos (Nat.zero_le _) (by positivity) (by rw [hone, mul_one, hshift])
        (le_target_of_le_log2 hlog),
      Number.ofScientific_eq hn hk (by positivity) (by rw [hshift, ← scale_mul, Int.add_zero])
        (le_target_of_le_log2 hlog)]

theorem Canonical.toFloat_exact (hc : Canonical m e) :
    (Decimal.exact m e).toFloat = (Parts.finite false m e).toFloat := by
  cases e with
  | ofNat e =>
    have hv : scale m e = scale (m <<< e) 0 * scale (10 ^ 0) 0 := by
      simp [scale, Nat.shiftLeft_eq]
    have hpos : 0 < m <<< e := Nat.shiftLeft_pos_iff.mpr hc.pos
    rw [Parts.toFloat, Parts.unpacked, dif_pos hc.pos]
    change Float.ofScientific (m <<< e) false 0 = _
    rw [Number.ofScientific_eq hpos (Nat.zero_le _) hc.pos hv hc.target_eq.ge]
    exact congrArg (fun u => Float.ofModel (.pack u)) (hc.roundWithAccuracy_eq hc.pos rfl le_rfl)
  | negSucc e =>
    have hleast := hc.least
    have hm := hc.pos
    have hv : scale (m * 5 ^ (e + 1)) 0 = scale m (.negSucc e) * scale (10 ^ (e + 1)) 0 := by
      have hten : m * 5 ^ (e + 1) * 2 ^ (e + 1) = m * 10 ^ (e + 1) := by
        rw [Nat.mul_assoc, ← Nat.mul_pow]
      have hshift := scale_shift (m * 5 ^ (e + 1)) 0 (e + 1)
      rw [hten, Int.zero_sub] at hshift
      rw [← hshift, ← scale_mul, Int.add_zero]
      rfl
    have hpos : 0 < m * 5 ^ (e + 1) := Nat.mul_pos hm (by positivity)
    exact hc.ofScientific_eq hpos (by omega) hv

end Number

namespace Decimal

open Number (Parts parts Canonical)

variable {m tries : Nat} {e place : Int} {v : Float} {negative : Bool} {d : Decimal}

theorem eq_of_readsAs (h : d.readsAs v = true) : d.toFloat = v := by
  have hbits : d.toFloat.toModel.toBits = v.toModel.toBits := eq_of_beq h
  generalize d.toFloat = w at hbits ⊢
  obtain ⟨⟨bits, valid⟩⟩ := v
  obtain ⟨⟨bits', valid'⟩⟩ := w
  cases hbits
  rfl

theorem atPlace?_eq_some (h : atPlace? v m e place = some d) :
    d.readsAs v = true ∧ d.exponent = place := by
  unfold atPlace? at h
  simp only at h
  split at h
  · cases h
  · next hbelow _ => cases h; exact ⟨hbelow, rfl⟩
  · next _ habove => cases h; exact ⟨habove, rfl⟩
  · next hbelow habove =>
    split at h <;> cases h
    · exact ⟨hbelow, rfl⟩
    · exact ⟨habove, rfl⟩

/-- The search ends with a decimal that reads back, or with the exact one. -/
theorem search_eq (v : Float) (m : Nat) (e : Int) (tries : Nat) (place : Int) :
    (search v m e tries place).toFloat = v ∧ (search v m e tries place).exponent ≤ place ∨
      search v m e tries place = exact m e := by
  induction tries generalizing place with
  | zero => exact .inr rfl
  | succ tries ih =>
    rw [search]
    cases hat : atPlace? v m e place with
    | some d =>
      obtain ⟨hreads, hplace⟩ := atPlace?_eq_some hat
      exact .inl ⟨eq_of_readsAs hreads, hplace.le⟩
    | none =>
      have hlower : place - 1 ≤ place := by omega
      exact (ih (place - 1)).imp_left fun ⟨hreads, hplace⟩ => ⟨hreads, hplace.trans hlower⟩

theorem exponent_exact_le (m : Nat) (e : Int) : (exact m e).exponent ≤ 0 := by
  cases e with
  | ofNat e => exact le_rfl
  | negSucc e => exact (Int.negSucc_lt_zero e).le

theorem toFloat_shortest (h : parts v = .finite negative m e) :
    (shortest v.abs m e).toFloat = v.abs ∧ (shortest v.abs m e).exponent ≤ 2048 := by
  unfold shortest
  split
  · next hzero =>
    rw [Number.abs_eq h, hzero, ← Number.ofScientific_zero 0 e]
    exact ⟨rfl, by decide⟩
  · next hm =>
    have hc := Number.canonical_of_parts h (Nat.pos_of_ne_zero hm)
    have hlog : m.log2 < 53 := (Nat.log2_lt hm).mpr hc.lt
    have hgreatest := hc.greatest
    have hplace : firstPlace m e ≤ 2048 := by
      unfold firstPlace
      omega
    obtain ⟨hreads, hexp⟩ | hexact := search_eq v.abs m e 24 (firstPlace m e)
    · exact ⟨hreads, hexp.trans hplace⟩
    · rw [hexact, hc.toFloat_exact, Number.abs_eq h]
      exact ⟨rfl, (exponent_exact_le m e).trans (by decide)⟩

end Decimal

end CornScript
