import CornScript.Number.Parts
import CornScript.Proofs.Number.Rounding

/-! # The bits of a number

The sign, the exponent and the fraction of a finite number can be read off its bits, and put
together they give the bits again.
-/

namespace CornScript.Number

open Float.Model Float.Model.UnpackedFloat

variable {m : Nat} {e : Int} {s : Sign} {v : Float} {negative : Bool}

def signOf (negative : Bool) : Sign :=
  if negative then .negative else .positive

theorem toNat_packComponents (s : Sign) (exponent : BitVec 11) (fraction : BitVec 52) :
    (packComponents .binary64 s exponent fraction).toNat =
      s.toBitVec.toNat * 2 ^ 63 + exponent.toNat * 2 ^ 52 + fraction.toNat := by
  change (s.toBitVec ++ exponent ++ fraction).toNat = _
  rw [BitVec.toNat_append, BitVec.toNat_append,
    ← Nat.shiftLeft_add_eq_or_of_lt fraction.isLt, ← Nat.shiftLeft_add_eq_or_of_lt exponent.isLt,
    Nat.shiftLeft_eq, Nat.shiftLeft_eq]
  ring

theorem toNat_unpackMantissa (b : BitVec 64) :
    (@unpackMantissa .binary64 b).toNat = b.toNat % 2 ^ 52 := by
  simp [unpackMantissa]

theorem toNat_unpackExponent (b : BitVec 64) :
    (@unpackExponent .binary64 b).toNat = b.toNat / 2 ^ 52 % 2048 := by
  simp [unpackExponent, Nat.shiftRight_eq_div_pow]

theorem toNat_unpackSign (b : BitVec 64) :
    (@unpackSign .binary64 b).toNat = b.toNat / 2 ^ 63 := by
  have hb := b.isLt
  simp [unpackSign, Nat.shiftRight_eq_div_pow]
  omega

theorem ofBitVec_toBitVec (s : Sign) : Sign.ofBitVec s.toBitVec = s := by
  cases s <;> rfl

theorem toBitVec_ofBitVec (b : BitVec 1) : (Sign.ofBitVec b).toBitVec = b := by
  revert b
  decide

theorem packComponents_unpack (b : BitVec 64) :
    packComponents .binary64 (Sign.ofBitVec (@unpackSign .binary64 b)) (@unpackExponent .binary64 b)
      (@unpackMantissa .binary64 b) = b := by
  apply BitVec.eq_of_toNat_eq
  have hb := b.isLt
  rw [toNat_packComponents, toBitVec_ofBitVec, toNat_unpackSign, toNat_unpackExponent,
    toNat_unpackMantissa]
  omega

theorem unpackSign_packComponents (s : Sign) (exponent : BitVec 11) (fraction : BitVec 52) :
    @unpackSign .binary64 (packComponents .binary64 s exponent fraction) = s.toBitVec := by
  apply BitVec.eq_of_toNat_eq
  have hsign := s.toBitVec.isLt
  have hexp := exponent.isLt
  have hfrac := fraction.isLt
  rw [toNat_unpackSign, toNat_packComponents]
  omega

/-- The parts of a number as 64-bit arithmetic takes them. -/
def Parts.unpacked : Parts → UnpackedFloat
  | nan => .notANumber
  | infinite negative => .infinity (signOf negative)
  | finite negative m e =>
    if h : 0 < m then .finite (signOf negative) m e h else .zero (signOf negative)

theorem ofBitVec_unpackSign (b : BitVec 64) :
    Sign.ofBitVec (@unpackSign .binary64 b) = signOf (b.toNat.testBit 63) := by
  have hb := b.isLt
  have hsign := toNat_unpackSign b
  have hzero : @unpackSign .binary64 b = 0#1 ↔ b.toNat / 2 ^ 63 = 0 := by
    rw [← hsign, ← BitVec.toNat_inj]
    rfl
  rw [Sign.ofBitVec, signOf, Nat.testBit_eq_decide_div_mod_eq]
  simp only [hzero, decide_eq_true_eq]
  split <;> split <;> first | rfl | omega

theorem toNat_one_append (fraction : BitVec 52) :
    (1#1 ++ fraction).toNat = 2 ^ 52 + fraction.toNat := by
  rw [BitVec.toNat_append, ← Nat.shiftLeft_add_eq_or_of_lt fraction.isLt]
  rfl

theorem unpack_eq (v : Float) : v.toModel.unpack = (parts v).unpacked := by
  obtain ⟨⟨bits, valid⟩⟩ := v
  change UnpackedFloat.unpack .binary64 bits.toBitVec = (Parts.ofBits bits.toBitVec.toNat).unpacked
  generalize bits.toBitVec = b
  have hfull : @unpackExponent .binary64 b = -1#11 ↔ b.toNat >>> 52 % 2048 = 2047 := by
    rw [← BitVec.toNat_inj, toNat_unpackExponent, Nat.shiftRight_eq_div_pow]
    rfl
  have hnone : @unpackExponent .binary64 b = 0#11 ↔ b.toNat >>> 52 % 2048 = 0 := by
    rw [← BitVec.toNat_inj, toNat_unpackExponent, Nat.shiftRight_eq_div_pow]
    rfl
  have hzero : @unpackMantissa .binary64 b = 0#52 ↔ b.toNat % 0x10000000000000 = 0 := by
    rw [← BitVec.toNat_inj, toNat_unpackMantissa]
    rfl
  have hmantissa : (1#1 ++ @unpackMantissa .binary64 b).toNat =
      0x10000000000000 + b.toNat % 0x10000000000000 := by
    rw [toNat_one_append, toNat_unpackMantissa]
    rfl
  have hexponent : ((@unpackExponent .binary64 b).toNat : Int) = (b.toNat >>> 52 % 2048 : Nat) := by
    rw [toNat_unpackExponent, Nat.shiftRight_eq_div_pow]
  unfold UnpackedFloat.unpack Parts.ofBits
  simp only [hfull, hnone, hzero, ofBitVec_unpackSign]
  split
  · split <;> rfl
  · split
    · next hsub =>
      split
      · next hfrac => simp [Parts.unpacked, hfrac]
      · next hfrac =>
        rw [Parts.unpacked, dif_pos (Nat.pos_of_ne_zero hfrac)]
        simp only [toNat_unpackMantissa, hexponent, hsub]
        rfl
    · next hnormal =>
      rw [Parts.unpacked, dif_pos (by positivity)]
      simp only [hmantissa, hexponent]
      rfl

/-- A finite number other than zero has the form in which it is kept. -/
theorem canonical_of_parts (h : parts v = .finite negative m e) (hm : 0 < m) : Canonical m e := by
  have hfrac : v.toBits.toNat % 0x10000000000000 < 0x10000000000000 := Nat.mod_lt _ (by decide)
  have hbiased : v.toBits.toNat >>> 52 % 2048 < 2048 := Nat.mod_lt _ (by decide)
  simp only [parts, Parts.ofBits] at h
  split at h
  · split at h <;> cases h
  · split at h
    · cases h
      exact ⟨hm, by omega, by omega, by omega, .inr rfl⟩
    · cases h
      exact ⟨hm, by omega, by omega, by omega, .inl (by omega)⟩

theorem pack_normal (s : Sign) (exponent : BitVec 11) (fraction : BitVec 52)
    (hsub : exponent ≠ 0#11) (hfull : exponent ≠ -1#11) (hpos : 0 < (1#1 ++ fraction).toNat) :
    UnpackedFloat.pack .binary64 (.finite s (1#1 ++ fraction).toNat (exponent.toNat - 1075) hpos) =
      packComponents .binary64 s exponent fraction := by
  have hfraction := fraction.isLt
  have hexponent := exponent.isLt
  have hnonzero : exponent.toNat ≠ 0 := fun heq => hsub (BitVec.eq_of_toNat_eq heq)
  have hfinite : exponent.toNat ≠ 2047 := fun heq => hfull (BitVec.eq_of_toNat_eq heq)
  have happend := toNat_one_append fraction
  have hlog : (1#1 ++ fraction).toNat.log2 = 52 := by
    rw [Nat.log2_eq_iff hpos.ne']
    omega
  have hbiased : ((exponent.toNat : Int) - 1075 + (1023 : Nat) + (52 : Nat)).toNat =
      exponent.toNat := by omega
  have hmantissa : BitVec.ofNat 52 (1#1 ++ fraction).toNat = fraction := by
    apply BitVec.eq_of_toNat_eq
    rw [BitVec.toNat_ofNat, happend]
    omega
  change (if 2048 ≤ ((exponent.toNat : Int) - 1075 + (1023 : Nat) + (52 : Nat)).toNat + 1 then
      packedInfinity .binary64 s
    else if (1#1 ++ fraction).toNat.log2 + 1 = 53 then packComponents .binary64 s
      (BitVec.ofNat 11 ((exponent.toNat : Int) - 1075 + (1023 : Nat) + (52 : Nat)).toNat)
      (BitVec.ofNat 52 (1#1 ++ fraction).toNat)
    else packComponents .binary64 s 0#11 (BitVec.ofNat 52 (1#1 ++ fraction).toNat)) = _
  rw [hbiased, hlog, hmantissa, if_neg (by omega), if_pos rfl, BitVec.ofNat_toNat,
    BitVec.setWidth_eq]

theorem pack_subnormal (s : Sign) (fraction : BitVec 52) (hpos : 0 < fraction.toNat) :
    UnpackedFloat.pack .binary64 (.finite s fraction.toNat (-1074) hpos) =
      packComponents .binary64 s 0#11 fraction := by
  have hlog : fraction.toNat.log2 < 52 := (Nat.log2_lt hpos.ne').mpr fraction.isLt
  change (if 2048 ≤ 2 then packedInfinity .binary64 s
    else if fraction.toNat.log2 + 1 = 53 then
      packComponents .binary64 s (BitVec.ofNat 11 1) (BitVec.ofNat 52 fraction.toNat)
    else packComponents .binary64 s 0#11 (BitVec.ofNat 52 fraction.toNat)) = _
  rw [if_neg (by omega), if_neg (by omega), BitVec.ofNat_toNat, BitVec.setWidth_eq]

theorem pack_unpack (b : BitVec 64) (h : @unpackExponent .binary64 b ≠ -1#11) :
    UnpackedFloat.pack .binary64 (UnpackedFloat.unpack .binary64 b) = b := by
  have hcomponents := packComponents_unpack b
  unfold UnpackedFloat.unpack
  simp only [h, if_false]
  split
  · next hsub =>
    rw [hsub] at hcomponents ⊢
    split
    · next hzero =>
      rw [hzero] at hcomponents
      exact hcomponents
    · next hfrac => exact (pack_subnormal ..).trans hcomponents
  · next hsub => exact (pack_normal _ _ _ hsub h _).trans hcomponents

theorem Canonical.unpack_pack (h : Canonical m e) (s : Sign) :
    UnpackedFloat.unpack .binary64 (UnpackedFloat.pack .binary64 (.finite s m e h.pos)) =
      .finite s m e h.pos := by
  obtain ⟨hpos, hlt, hleast, hgreatest, hnormal⟩ := h
  by_cases hlow : 2 ^ 52 ≤ m
  · obtain ⟨fraction, rfl⟩ : ∃ fraction : BitVec 52, m = (1#1 ++ fraction).toNat := by
      refine ⟨BitVec.ofNat 52 m, ?_⟩
      rw [toNat_one_append, BitVec.toNat_ofNat]
      omega
    obtain ⟨exponent, rfl⟩ : ∃ exponent : BitVec 11, e = exponent.toNat - 1075 := by
      refine ⟨BitVec.ofNat 11 (e + 1075).toNat, ?_⟩
      rw [BitVec.toNat_ofNat]
      omega
    have hsub : exponent ≠ 0#11 := by
      rintro rfl
      simp at hleast
    have hfull : exponent ≠ -1#11 := by
      rintro rfl
      simp at hgreatest
    rw [pack_normal s exponent fraction hsub hfull]
    unfold UnpackedFloat.unpack
    simp only [unpackExponent_packComponents, unpackMantissa_packComponents,
      unpackSign_packComponents, ofBitVec_toBitVec, hsub, hfull, if_false]
    rfl
  · obtain ⟨fraction, rfl⟩ : ∃ fraction : BitVec 52, m = fraction.toNat := by
      refine ⟨BitVec.ofNat 52 m, ?_⟩
      rw [BitVec.toNat_ofNat]
      omega
    obtain rfl := hnormal.resolve_left hlow
    have hfraction : fraction ≠ 0#52 := by
      rintro rfl
      exact absurd hpos (lt_irrefl _)
    rw [pack_subnormal]
    unfold UnpackedFloat.unpack
    simp only [unpackExponent_packComponents, unpackMantissa_packComponents,
      unpackSign_packComponents, ofBitVec_toBitVec, hfraction]
    rfl

def Parts.toFloat (p : Parts) : Float :=
  .ofModel (.pack p.unpacked)

theorem isFinite_parts (h : v.isFinite = true) :
    ∃ negative m e, parts v = .finite negative m e := by
  have hunpacked : (parts v).unpacked.isFinite = true := unpack_eq v ▸ h
  cases hparts : parts v with
  | finite negative m e => exact ⟨negative, m, e, rfl⟩
  | nan => rw [hparts] at hunpacked; contradiction
  | infinite => rw [hparts] at hunpacked; contradiction

theorem unpackExponent_ne (h : parts v = .finite negative m e) :
    @unpackExponent .binary64 v.toModel.toBits.toBitVec ≠ -1#11 := by
  intro hfull
  have hfinite : v.toModel.unpack.isFinite = true := by
    rw [unpack_eq, h, Parts.unpacked]
    split <;> rfl
  simp only [Float.Model.unpack, UnpackedFloat.unpack, hfull, if_true] at hfinite
  split at hfinite <;> cases hfinite

theorem toFloat_parts (h : parts v = .finite negative m e) :
    (Parts.finite negative m e).toFloat = v := by
  have hpack := pack_unpack _ (unpackExponent_ne h)
  change UnpackedFloat.pack .binary64 v.toModel.unpack = _ at hpack
  rw [unpack_eq, h] at hpack
  obtain ⟨⟨⟨bits⟩, valid⟩⟩ := v
  simp only [Parts.toFloat, Float.Model.pack, hpack]

theorem abs_eq (h : parts v = .finite negative m e) :
    v.abs = (Parts.finite false m e).toFloat := by
  change Float.ofModel (.pack v.toModel.unpack.abs) = _
  rw [unpack_eq, h, Parts.toFloat, Parts.unpacked, Parts.unpacked]
  split <;> rfl

theorem unpack_toFloat (h : 0 < m → Canonical m e) :
    (Parts.finite negative m e).toFloat.toModel.unpack = (Parts.finite negative m e).unpacked := by
  rw [Parts.toFloat, Parts.unpacked]
  split
  · next hm => exact (h hm).unpack_pack (signOf negative)
  · cases negative <;> rfl

theorem neg_toFloat (h : 0 < m → Canonical m e) :
    -(Parts.finite false m e).toFloat = (Parts.finite true m e).toFloat := by
  change Float.ofModel (.pack (Parts.finite false m e).toFloat.toModel.unpack.neg) = _
  rw [unpack_toFloat h, Parts.toFloat, Parts.unpacked, Parts.unpacked]
  split <;> rfl

theorem isInf_toFloat (h : 0 < m → Canonical m e) :
    (Parts.finite negative m e).toFloat.isInf = false := by
  change (Parts.finite negative m e).toFloat.toModel.unpack.isInf = false
  rw [unpack_toFloat h, Parts.unpacked]
  split <;> rfl

end CornScript.Number
