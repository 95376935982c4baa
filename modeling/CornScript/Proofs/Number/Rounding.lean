import Mathlib

/-! # Results that need no rounding

A result is rounded by shifting its mantissa until it has the bits of a 64-bit number, and the bits
that are shifted out say how to round. What comes out depends on the value only, as long as nothing
has been shifted out before; and a value that is a number is left as it is.
-/

namespace CornScript.Number

open Float.Model Float.Model.UnpackedFloat

def scale (mantissa : Nat) (exponent : Int) : ℚ :=
  mantissa * 2 ^ exponent

/-- The form in which a finite number other than zero is kept. -/
structure Canonical (mantissa : Nat) (exponent : Int) : Prop where
  pos : 0 < mantissa
  lt : mantissa < 2 ^ 53
  least : -1074 ≤ exponent
  greatest : exponent ≤ 971
  normal : 2 ^ 52 ≤ mantissa ∨ exponent = -1074

variable {m m' m₁ m₂ n k : Nat} {e e' e₁ e₂ : Int} {s : Sign}

theorem scale_shift (m : Nat) (e : Int) (k : Nat) : scale (m * 2 ^ k) (e - k) = scale m e := by
  have h2 : (2 : ℚ) ≠ 0 := two_ne_zero
  rw [scale, scale, zpow_sub₀ h2, zpow_natCast, Nat.cast_mul, Nat.cast_pow, Nat.cast_ofNat]
  field_simp

theorem scale_inj : scale m e = scale m' e ↔ m = m' := by
  have h2 : (2 : ℚ) ^ e ≠ 0 := zpow_ne_zero e two_ne_zero
  rw [scale, scale, mul_left_inj' h2, Nat.cast_inj]

theorem eq_shift_of_scale_eq (h : scale m e = scale m' e') (hle : e ≤ e') :
    m = m' * 2 ^ (e' - e).toNat := by
  have he : e' - ((e' - e).toNat : Int) = e := by omega
  have hshift := scale_shift m' e' (e' - e).toNat
  rw [he] at hshift
  exact scale_inj.mp (h.trans hshift.symm)

theorem log2_mul_two_pow (hm : 0 < m) (k : Nat) : (m * 2 ^ k).log2 = m.log2 + k := by
  rw [Nat.log2_eq_iff (by positivity), Nat.add_right_comm, pow_add, pow_add _ _ k]
  have hpow : 0 < 2 ^ k := by positivity
  exact ⟨Nat.mul_le_mul_right _ (Nat.log2_self_le hm.ne'),
    Nat.mul_lt_mul_of_pos_right Nat.lt_log2_self hpow⟩

theorem totalExponent_eq (hm : 0 < m) (hm' : 0 < m') (h : scale m e = scale m' e') :
    totalExponent m e = totalExponent m' e' := by
  rcases Int.le_total e e' with hle | hle
  · rw [eq_shift_of_scale_eq h hle, totalExponent, totalExponent, log2_mul_two_pow hm']
    omega
  · rw [eq_shift_of_scale_eq h.symm hle, totalExponent, totalExponent, log2_mul_two_pow hm]
    omega

def target (m : Nat) (e : Int) : Int :=
  Format.binary64.targetExponent (totalExponent m e)

theorem target_def (m : Nat) (e : Int) : target m e = max (m.log2 + 1 + e - 53) (-1074) := by
  simp [target, Format.targetExponent, totalExponent, Format.mantissaBits, Format.minExponent]

theorem Canonical.target_eq (h : Canonical m e) : target m e = e := by
  rw [target_def]
  have hlog : m.log2 < 53 := (Nat.log2_lt h.pos.ne').mpr h.lt
  have hleast := h.least
  rcases h.normal with hn | he
  · have hlog' : 52 ≤ m.log2 := (Nat.le_log2 h.pos.ne').mpr hn
    omega
  · omega

theorem repeat_shiftRightOne_mul (m k : Nat) :
    k.repeat ExtendedMantissa.shiftRightOne ⟨m * 2 ^ k, false, false⟩ = ⟨m, false, false⟩ := by
  induction k generalizing m with
  | zero => simp [Nat.repeat]
  | succ k ih =>
    rw [Nat.repeat, pow_succ', ← Nat.mul_assoc, ih (m * 2)]
    simp [ExtendedMantissa.shiftRightOne]

theorem repeat_add {α : Type} (f : α → α) (a b : Nat) (x : α) :
    (a + b).repeat f x = a.repeat f (b.repeat f x) := by
  induction a with
  | zero => simp [Nat.repeat]
  | succ a ih => rw [Nat.succ_add, Nat.repeat, ih, Nat.repeat]

/-- Two forms of a value are shifted to the same mantissa, unless they are too short already. -/
theorem shiftToTargetExponent_eq (hm : 0 < m) (hm' : 0 < m') (h : scale m e = scale m' e')
    (hle : e ≤ e') (hfine : e' ≤ target m' e') :
    shiftToTargetExponent .binary64 m e .exact = shiftToTargetExponent .binary64 m' e' .exact := by
  have htarget : target m e = target m' e' :=
    congrArg Format.binary64.targetExponent (totalExponent_eq hm hm' h)
  have hshift : (target m' e' - e).toNat = (target m' e' - e').toNat + (e' - e).toNat := by omega
  have hexp : e + ((target m' e' - e).toNat : Int) = e' + ((target m' e' - e').toNat : Int) := by
    omega
  change shiftToExponent m e .exact (target m e) = shiftToExponent m' e' .exact (target m' e')
  rw [htarget, shiftToExponent, shiftToExponent, hexp]
  refine congrArg (·, _) ?_
  change Nat.repeat _ _ _ = Nat.repeat _ _ _
  rw [hshift, repeat_add, eq_shift_of_scale_eq h hle]
  exact congrArg _ (repeat_shiftRightOne_mul m' _)

theorem roundWithAccuracy_eq (hm : 0 < m) (hm' : 0 < m') (h : scale m e = scale m' e')
    (hfine : e ≤ target m e) (hfine' : e' ≤ target m' e') :
    roundWithAccuracy .binary64 s m e .exact = roundWithAccuracy .binary64 s m' e' .exact := by
  unfold roundWithAccuracy
  rcases Int.le_total e e' with hle | hle
  · rw [shiftToTargetExponent_eq hm hm' h hle hfine']
  · rw [shiftToTargetExponent_eq hm' hm h.symm hle hfine]

theorem Canonical.shiftToTargetExponent_eq (h : Canonical m e) :
    shiftToTargetExponent .binary64 m e .exact = (⟨m, false, false⟩, e) := by
  change shiftToExponent m e .exact (target m e) = _
  rw [h.target_eq, shiftToExponent, Int.sub_self]
  simp only [Int.toNat_zero, Int.natCast_zero, Int.add_zero]
  rfl

/-- A number is rounded to itself. -/
theorem Canonical.roundWithAccuracy_eq (h : Canonical m e) (hm₁ : 0 < m₁)
    (hv : scale m₁ e₁ = scale m e) (hle : e₁ ≤ e) :
    roundWithAccuracy .binary64 s m₁ e₁ .exact = .finite s m e h.pos := by
  have htarget : target m₁ e₁ = e :=
    (congrArg Format.binary64.targetExponent (totalExponent_eq hm₁ h.pos hv)).trans h.target_eq
  rw [Number.roundWithAccuracy_eq hm₁ h.pos hv (hle.trans htarget.ge) h.target_eq.ge]
  unfold roundWithAccuracy
  simp only [h.shiftToTargetExponent_eq, ExtendedMantissa.roundedMantissa,
    ExtendedMantissa.accuracy, Accuracy.roundToNearestEven, h.pos.ne', dite_false]

theorem le_target_of_le_log2 (h : 52 ≤ m.log2) : e ≤ target m e := by
  rw [target_def]
  omega

theorem log2_mul_ge (h₁ : 0 < m₁) (h₂ : 0 < m₂) : m₁.log2 + m₂.log2 ≤ (m₁ * m₂).log2 := by
  rw [Nat.le_log2 (Nat.mul_pos h₁ h₂).ne', pow_add]
  exact Nat.mul_le_mul (Nat.log2_self_le h₁.ne') (Nat.log2_self_le h₂.ne')

theorem scale_mul (m₁ m₂ : Nat) (e₁ e₂ : Int) :
    scale (m₁ * m₂) (e₁ + e₂) = scale m₁ e₁ * scale m₂ e₂ := by
  rw [scale, scale, scale, zpow_add₀ two_ne_zero, Nat.cast_mul]
  ring

theorem two_zpow_log2_le (hm : 0 < m) (e : Int) : (2 : ℚ) ^ ((m.log2 : Int) + e) ≤ scale m e := by
  rw [scale, zpow_add₀ two_ne_zero, zpow_natCast]
  gcongr
  exact_mod_cast Nat.log2_self_le hm.ne'

theorem scale_lt_two_zpow (m : Nat) (e : Int) : scale m e < (2 : ℚ) ^ ((m.log2 : Int) + 1 + e) := by
  rw [scale, zpow_add₀ two_ne_zero]
  gcongr
  exact_mod_cast Nat.lt_log2_self

/-- The leading bit of a quotient is that of the difference of the exponents, or the one below. -/
theorem log2_le_of_scale_mul (h₁ : 0 < m₁) (h : scale m₁ e₁ = scale m e * scale m₂ e₂)
    (hm : 0 < m) (h₂ : 0 < m₂) : (m₁.log2 : Int) + e₁ - (m₂.log2 + e₂) ≤ m.log2 + 1 + e := by
  have hlow := two_zpow_log2_le h₁ e₁
  have hpos : (0 : ℚ) < scale m e := lt_of_lt_of_le (by positivity) (two_zpow_log2_le hm e)
  have hhigh : scale m e * scale m₂ e₂ <
      (2 : ℚ) ^ ((m.log2 : Int) + 1 + e) * 2 ^ ((m₂.log2 : Int) + 1 + e₂) :=
    mul_lt_mul_of_pos' (scale_lt_two_zpow m e) (scale_lt_two_zpow m₂ e₂)
      (lt_of_lt_of_le (by positivity) (two_zpow_log2_le h₂ e₂)) (by positivity)
  rw [← zpow_add₀ two_ne_zero, ← h] at hhigh
  have hlt := (zpow_lt_zpow_iff_right₀ one_lt_two).mp (hlow.trans_lt hhigh)
  omega

theorem Canonical.div_eq (hc : Canonical m e) (h₁ : 0 < m₁) (h₂ : 0 < m₂)
    (h : scale m₁ e₁ = scale m e * scale m₂ e₂) :
    UnpackedFloat.div .binary64 (.finite .positive m₁ e₁ h₁) (.finite .positive m₂ e₂ h₂) =
      .finite .positive m e hc.pos := by
  have hlog := log2_le_of_scale_mul h₁ h hc.pos h₂
  have hquotient : Format.binary64.targetExponent (totalExponent m₁ e₁ - totalExponent m₂ e₂) ≤
      target m e := by
    rw [target_def]
    simp only [Format.targetExponent, totalExponent, Format.mantissaBits, Format.minExponent]
    omega
  generalize hte : min (e₁ - e₂) (Format.binary64.targetExponent
    (totalExponent m₁ e₁ - totalExponent m₂ e₂)) = te
  have hle : te ≤ e := hte ▸ (min_le_right _ _).trans (hquotient.trans hc.target_eq.le)
  have hle' : te ≤ e₁ - e₂ := hte ▸ min_le_left _ _
  -- The quotient has no remainder, since its mantissa is long enough to hold `m`.
  have hexact : m₁ <<< (e₁ - e₂ - te).toNat = m * 2 ^ (e - te).toNat * m₂ := by
    have hshift := scale_shift m₁ e₁ (e₁ - e₂ - te).toNat
    have hexp : e₁ - ((e₁ - e₂ - te).toNat : Int) = te + e₂ := by omega
    rw [hexp, h, ← scale_mul] at hshift
    have heq := eq_shift_of_scale_eq hshift (by omega)
    have hdiff : e + e₂ - (te + e₂) = e - te := by omega
    rw [Nat.shiftLeft_eq, heq, hdiff]
    ring
  have hscale : scale (m * 2 ^ (e - te).toNat) te = scale m e := by
    have hshift := scale_shift m e (e - te).toNat
    have hexp : e - ((e - te).toNat : Int) = te := by omega
    rwa [hexp] at hshift
  have hpos : 0 < m * 2 ^ (e - te).toNat := Nat.mul_pos hc.pos (by positivity)
  simp only [UnpackedFloat.div, divCore, hte, hexact, Nat.mul_div_cancel _ h₂, Nat.mul_mod_left,
    accuracyOfFraction, if_true]
  exact hc.roundWithAccuracy_eq hpos hscale hle

end CornScript.Number
