import Formulae.Proofs.Number.Sign

namespace Formulae.Number
open Float.Model Float.Model.UnpackedFloat
set_option autoImplicit true

/-- The mantissa is the whole part of the number, and its bits compare the rest with one half. -/
def Represents : ExtendedMantissa → ℚ → Prop
  | ⟨m, false, false⟩, q => q = m
  | ⟨m, false, true⟩, q => m < q ∧ q < m + 1 / 2
  | ⟨m, true, false⟩, q => q = m + 1 / 2
  | ⟨m, true, true⟩, q => m + 1 / 2 < q ∧ q < m + 1

namespace Represents

theorem le_and_lt {em : ExtendedMantissa} (h : Represents em q) :
    em.mantissa ≤ q ∧ q < em.mantissa + 1 := by
  obtain ⟨m, r, s⟩ := em
  cases r <;> cases s <;> simp only [Represents] at h ⊢ <;> constructor <;> linarith

/-- A number has one mantissa with its bits. -/
theorem unique {em em' : ExtendedMantissa} (h : Represents em q) (h' : Represents em' q) :
    em = em' := by
  have hmantissa : em.mantissa = em'.mantissa := by
    have ⟨hle, hlt⟩ := h.le_and_lt
    have ⟨hle', hlt'⟩ := h'.le_and_lt
    have hlt₁ : em.mantissa < em'.mantissa + 1 := by exact_mod_cast hle.trans_lt hlt'
    have hlt₂ : em'.mantissa < em.mantissa + 1 := by exact_mod_cast hle'.trans_lt hlt
    omega
  obtain ⟨m, r, s⟩ := em
  obtain ⟨m', r', s'⟩ := em'
  obtain rfl : m = m' := hmantissa
  cases r <;> cases s <;> cases r' <;> cases s' <;> simp only [Represents] at h h' <;>
    first | rfl | (exfalso; linarith)

theorem shiftRightOne {em : ExtendedMantissa} (h : Represents em q) :
    Represents em.shiftRightOne (q / 2) := by
  obtain ⟨m, r, s⟩ := em
  have hsplit : (m : ℚ) = 2 * (m / 2 : ℕ) + (m % 2 : ℕ) := by
    exact_mod_cast (Nat.div_add_mod m 2).symm
  rcases Nat.mod_two_eq_zero_or_one m with hparity | hparity <;>
    cases r <;> cases s <;>
    simp [Represents, ExtendedMantissa.shiftRightOne, hparity] at h hsplit ⊢ <;>
    first | linarith | (constructor <;> linarith)

theorem shiftRight {em : ExtendedMantissa} (h : Represents em q) (k : ℕ) :
    Represents (em >>> k) (q / 2 ^ k) := by
  induction k with
  | zero => simpa [HShiftRight.hShiftRight, Nat.repeat] using h
  | succ k ih =>
    rw [pow_succ, ← div_div]
    exact ih.shiftRightOne

end Represents

/-- The exponent that the doubles next to a positive number have. -/
def unitExponent (q : ℚ) : ℤ := Format.binary64.targetExponent (Int.log 2 q + 1)

/-- A mantissa with an exponent and an accuracy stands for a positive number, and the exponent is
not too large for rounding to the double next to it. -/
structure Describes (m : ℕ) (e : ℤ) (accuracy : Accuracy) (q : ℚ) : Prop where
  pos : 0 < q
  le_unit : e ≤ unitExponent q
  represents : Represents (.ofMantissaAndAccuracy m accuracy) (q / 2 ^ e)

theorem log_eq {q : ℚ} {m : ℕ} (hm : m ≠ 0) (hle : m * 2 ^ e ≤ q) (hlt : q < (m + 1) * 2 ^ e) :
    Int.log 2 q = m.log2 + e := by
  have hunit : (0 : ℚ) < 2 ^ e := zpow_pos two_pos e
  have hlow : (2 : ℚ) ^ m.log2 ≤ m := by exact_mod_cast Nat.log2_self_le hm
  have hhigh : (m : ℚ) + 1 ≤ 2 ^ (m.log2 + 1) := by exact_mod_cast Nat.lt_log2_self
  have hpos : 0 < q := (mul_pos (by exact_mod_cast Nat.pos_of_ne_zero hm) hunit).trans_le hle
  apply le_antisymm
  · apply Int.lt_add_one_iff.1
    apply (Int.lt_zpow_iff_log_lt one_lt_two hpos).1
    rw [Nat.cast_ofNat, add_right_comm, zpow_add₀ two_ne_zero, ← Nat.cast_succ, zpow_natCast]
    exact hlt.trans_le (mul_le_mul_of_nonneg_right hhigh hunit.le)
  · apply (Int.zpow_le_iff_le_log one_lt_two hpos).1
    rw [Nat.cast_ofNat, zpow_add₀ two_ne_zero, zpow_natCast]
    exact (mul_le_mul_of_nonneg_right hlow hunit.le).trans hle

theorem mantissa_ofMantissaAndAccuracy (m : ℕ) (accuracy : Accuracy) :
    (ExtendedMantissa.ofMantissaAndAccuracy m accuracy).mantissa = m := by
  rcases accuracy with _ | o
  · rfl
  · cases o <;> rfl

namespace Describes

/-- The exponent to shift to is that of the doubles next to the number. -/
theorem targetExponent_eq (h : Describes m e accuracy q) :
    Format.binary64.targetExponent (totalExponent m e) = unitExponent q := by
  have hunit := h.le_unit
  have ⟨hle, hlt⟩ := h.represents.le_and_lt
  rw [mantissa_ofMantissaAndAccuracy, div_lt_iff₀ (zpow_pos two_pos e)] at hlt
  rw [mantissa_ofMantissaAndAccuracy, le_div_iff₀ (zpow_pos two_pos e)] at hle
  by_cases hm : m = 0
  · -- A number below the unit of the mantissa is below the least unit.
    subst hm
    have hlog : Int.log 2 q < e :=
      (Int.lt_zpow_iff_log_lt one_lt_two h.pos).1 (by simpa using hlt)
    simp only [unitExponent, Format.targetExponent, totalExponent, Format.mantissaBits,
      Format.minExponent, Nat.log2_zero] at hunit ⊢
    omega
  · rw [unitExponent, log_eq hm hle hlt, totalExponent]
    congr 1
    omega

theorem shift (h : Describes m e accuracy q) :
    ∃ em, Represents em (q / 2 ^ unitExponent q) ∧
      shiftToTargetExponent .binary64 m e accuracy = (em, unitExponent q) := by
  obtain ⟨k, hk⟩ := Int.le.dest h.le_unit
  refine ⟨ExtendedMantissa.ofMantissaAndAccuracy m accuracy >>> k, ?_, ?_⟩
  · have hshifted := h.represents.shiftRight k
    rwa [div_div, ← zpow_natCast, ← zpow_add₀ two_ne_zero, hk] at hshifted
  · have hamount : (unitExponent q - e).toNat = k := by omega
    simp only [shiftToTargetExponent, shiftToExponent, h.targetExponent_eq, hamount, hk]

/-- Rounding depends only on the number that stands behind mantissa, exponent and accuracy. -/
theorem round_eq (h : Describes m e accuracy q) (h' : Describes m' e' accuracy' q) (s : Sign) :
    roundWithAccuracy .binary64 s m e accuracy = roundWithAccuracy .binary64 s m' e' accuracy' := by
  obtain ⟨em, hem, hshift⟩ := h.shift
  obtain ⟨em', hem', hshift'⟩ := h'.shift
  rw [roundWithAccuracy, roundWithAccuracy, hshift, hshift', hem.unique hem']

end Describes

/-- A mantissa and an exponent as doubles are unpacked to: the mantissa has all its bits, or the
exponent is the least. -/
def IsUnpacked (m : ℕ) (e : ℤ) : Prop :=
  0 < m ∧ Format.binary64.targetExponent (totalExponent m e) = e

theorem unitExponent_mul {m : ℕ} (hm : m ≠ 0) (e : ℤ) :
    unitExponent (m * 2 ^ e) = Format.binary64.targetExponent (totalExponent m e) := by
  have hlt : (m * 2 ^ e : ℚ) < (m + 1) * 2 ^ e :=
    mul_lt_mul_of_pos_right (lt_add_one _) (zpow_pos two_pos e)
  rw [unitExponent, log_eq hm le_rfl hlt, totalExponent]
  congr 1
  omega

theorem describes_exact {m : ℕ} (hm : m ≠ 0)
    (h : e ≤ Format.binary64.targetExponent (totalExponent m e)) :
    Describes m e .exact (m * 2 ^ e) where
  pos := mul_pos (by exact_mod_cast Nat.pos_of_ne_zero hm) (zpow_pos two_pos e)
  le_unit := by rwa [unitExponent_mul hm]
  represents := mul_div_cancel_right₀ _ (zpow_pos two_pos e).ne'

theorem log2_shiftLeft (h : n ≠ 0) (a : ℕ) : (n <<< a).log2 = n.log2 + a := by
  have hpos : 0 < 2 ^ a := Nat.two_pow_pos a
  rw [Nat.shiftLeft_eq, Nat.log2_eq_iff (Nat.mul_ne_zero h (by omega))]
  constructor
  · rw [Nat.pow_add]
    exact Nat.mul_le_mul_right _ (Nat.log2_self_le h)
  · rw [Nat.add_right_comm, Nat.pow_add]
    exact Nat.mul_lt_mul_of_pos_right Nat.lt_log2_self hpos

/-- What stands for a number that is a double is rounded to it. -/
theorem Describes.round_unpacked {m : ℕ} (h : Describes m' e' accuracy (m * 2 ^ e))
    (hunpacked : IsUnpacked m e) (s : Sign) :
    roundWithAccuracy .binary64 s m' e' accuracy = .finite s m e hunpacked.1 := by
  obtain ⟨hpos, htarget⟩ := hunpacked
  have hexact : Describes m e .exact (m * 2 ^ e) := describes_exact hpos.ne' htarget.ge
  have hshift : shiftToTargetExponent .binary64 m e .exact = (⟨m, false, false⟩, e) := by
    simp [shiftToTargetExponent, shiftToExponent, htarget, ExtendedMantissa.ofMantissaAndAccuracy,
      HShiftRight.hShiftRight, Nat.repeat]
  rw [h.round_eq hexact]
  simp only [roundWithAccuracy, hshift, ExtendedMantissa.roundedMantissa,
    ExtendedMantissa.accuracy, Accuracy.roundToNearestEven]
  rw [dif_neg hpos.ne']

end Formulae.Number
