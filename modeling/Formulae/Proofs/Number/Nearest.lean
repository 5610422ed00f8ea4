import Formulae.Proofs.Number.Rounding

namespace Formulae
open Float.Model Float.Model.UnpackedFloat
set_option autoImplicit true

namespace Number

theorem represents_fraction (n : ℕ) {d : ℕ} (hd : 0 < d) :
    Represents (.ofMantissaAndAccuracy (n / d) (accuracyOfFraction (n % d) d)) (n / d) := by
  have hlt := Nat.mod_lt n hd
  have hpos : (0 : ℚ) < d := by exact_mod_cast hd
  have hsplit : (n : ℚ) = d * (n / d : ℕ) + (n % d : ℕ) := by
    exact_mod_cast (Nat.div_add_mod n d).symm
  have hwhole : (n : ℚ) / d = (n / d : ℕ) + (n % d : ℕ) / d := by
    rw [hsplit, add_div, mul_div_cancel_left₀ _ hpos.ne']
  rw [hwhole]
  generalize n / d = w at *
  generalize n % d = r at *
  unfold accuracyOfFraction
  split
  · next hzero => simp [hzero, ExtendedMantissa.ofMantissaAndAccuracy, Represents]
  · next hrest =>
    have hrest : (0 : ℚ) < r := by exact_mod_cast Nat.pos_of_ne_zero hrest
    have hlt : (r : ℚ) < d := by exact_mod_cast hlt
    rcases hcompare : compare (2 * r) d with _ | _ | _
    · have hhalf : 2 * (r : ℚ) < d := by exact_mod_cast compare_lt_iff_lt.1 hcompare
      refine ⟨lt_add_of_pos_right _ (div_pos hrest hpos), ?_⟩
      rw [add_lt_add_iff_left, div_lt_iff₀ hpos]
      linarith
    · have hhalf : 2 * (r : ℚ) = d := by exact_mod_cast compare_eq_iff_eq.1 hcompare
      change (w : ℚ) + r / d = w + 1 / 2
      rw [add_right_inj, div_eq_iff hpos.ne']
      linarith
    · have hhalf : (d : ℚ) < 2 * r := by exact_mod_cast compare_gt_iff_gt.1 hcompare
      refine ⟨?_, ?_⟩
      · rw [add_lt_add_iff_left, lt_div_iff₀ hpos]
        linarith
      · rw [add_lt_add_iff_left, div_lt_one hpos]
        exact hlt

theorem targetExponent_mono (h : a ≤ b) :
    Format.binary64.targetExponent a ≤ Format.binary64.targetExponent b :=
  max_le_max_right _ (Int.sub_le_sub_right h _)

/-- The quotient of two numbers is computed to enough bits. -/
theorem describes_quotient {m₁ m₂ : ℕ} (h₁ : 0 < m₁) (h₂ : 0 < m₂) (e₁ e₂ : ℤ) :
    ∃ m e accuracy, divCore .binary64 m₁ e₁ m₂ e₂ = (m, e, accuracy) ∧
      Describes m e accuracy (m₁ * 2 ^ e₁ / (m₂ * 2 ^ e₂)) := by
  have hpos₁ : (0 : ℚ) < m₁ * 2 ^ e₁ := mul_pos (by exact_mod_cast h₁) (zpow_pos two_pos _)
  have hpos₂ : (0 : ℚ) < m₂ * 2 ^ e₂ := mul_pos (by exact_mod_cast h₂) (zpow_pos two_pos _)
  refine ⟨_, _, _, rfl, div_pos hpos₁ hpos₂, ?_, ?_⟩
  · refine (min_le_right _ _).trans (targetExponent_mono ?_)
    have hlow : (2 : ℚ) ^ (m₁.log2 + e₁) ≤ m₁ * 2 ^ e₁ := by
      rw [zpow_add₀ two_ne_zero, zpow_natCast]
      exact mul_le_mul_of_nonneg_right (by exact_mod_cast Nat.log2_self_le h₁.ne')
        (zpow_pos two_pos _).le
    have hhigh : (m₂ * 2 ^ e₂ : ℚ) ≤ 2 ^ (m₂.log2 + 1 + e₂) := by
      rw [zpow_add₀ two_ne_zero, ← Nat.cast_succ, zpow_natCast]
      exact mul_le_mul_of_nonneg_right (by exact_mod_cast Nat.lt_log2_self.le)
        (zpow_pos two_pos _).le
    have hlog : m₁.log2 + e₁ - (m₂.log2 + 1 + e₂) ≤
        Int.log 2 (m₁ * 2 ^ e₁ / (m₂ * 2 ^ e₂) : ℚ) := by
      apply (Int.zpow_le_iff_le_log one_lt_two (div_pos hpos₁ hpos₂)).1
      rw [Nat.cast_ofNat, zpow_sub₀ two_ne_zero]
      exact div_le_div₀ hpos₁.le hlow hpos₂ hhigh
    simp only [totalExponent]
    omega
  · generalize htarget : min (e₁ - e₂) (Format.binary64.targetExponent
      (totalExponent m₁ e₁ - totalExponent m₂ e₂)) = t
    obtain ⟨k, hk⟩ := Int.le.dest (htarget ▸ min_le_left (e₁ - e₂) _ : t ≤ e₁ - e₂)
    have hamount : (e₁ - e₂ - t).toNat = k := by omega
    have hvalue : (m₁ * 2 ^ e₁ / (m₂ * 2 ^ e₂) / 2 ^ t : ℚ) = (m₁ <<< k : ℕ) / m₂ := by
      have hunit : (2 : ℚ) ^ e₁ = 2 ^ k * 2 ^ t * 2 ^ e₂ := by
        rw [← zpow_natCast, ← zpow_add₀ two_ne_zero, ← zpow_add₀ two_ne_zero]
        congr 1
        omega
      have hm₂ : (m₂ : ℚ) ≠ 0 := by exact_mod_cast h₂.ne'
      rw [Nat.shiftLeft_eq, hunit]
      push_cast
      field_simp
    rw [hamount, hvalue]
    exact represents_fraction _ h₂

/-- The product of two numbers is exact before it is rounded. -/
theorem describes_product {m₁ m₂ : ℕ} (h₁ : 0 < m₁) (h₂ : 0 < m₂) (hlog : 52 ≤ m₁.log2)
    (e₁ e₂ : ℤ) :
    Describes (m₁ * m₂) (e₁ + e₂) .exact (m₁ * 2 ^ e₁ * (m₂ * 2 ^ e₂)) := by
  have hne : m₁ * m₂ ≠ 0 := Nat.mul_ne_zero h₁.ne' h₂.ne'
  have hvalue : (m₁ * 2 ^ e₁ * (m₂ * 2 ^ e₂) : ℚ) = (m₁ * m₂ : ℕ) * 2 ^ (e₁ + e₂) := by
    rw [zpow_add₀ two_ne_zero]
    push_cast
    ring
  rw [hvalue]
  refine describes_exact hne (le_max_of_le_left ?_)
  have hle : m₁.log2 ≤ (m₁ * m₂).log2 := by
    rw [Nat.le_log2 hne]
    exact (Nat.log2_self_le h₁.ne').trans (Nat.le_mul_of_pos_right _ h₂)
  simp only [totalExponent, Format.mantissaBits]
  omega

theorem shiftLeft_pos (h : n ≠ 0) (a : ℕ) : 0 < n <<< a := by
  rw [Nat.shiftLeft_eq]
  exact Nat.mul_pos (Nat.pos_of_ne_zero h) (Nat.two_pow_pos a)

theorem isUnpacked_shiftLeft (h : n ≠ 0) (ha : n.log2 + a = 52) : IsUnpacked (n <<< a) (-a) := by
  refine ⟨shiftLeft_pos h a, ?_⟩
  simp only [Format.targetExponent, totalExponent, Format.mantissaBits, Format.minExponent,
    log2_shiftLeft h]
  omega

theorem value_shiftLeft (n a : ℕ) : ((n <<< a : ℕ) * 2 ^ (-a : ℤ) : ℚ) = n := by
  rw [Nat.shiftLeft_eq, zpow_neg, zpow_natCast]
  push_cast
  rw [mul_inv_cancel_right₀ (pow_pos two_pos a).ne']

/-- A mantissa of 53 bits whose unit is no more than one is kept as it is. -/
theorem unpack_pack {k : Nat} (hm : m.log2 = 52) (hk : k ≤ 52) (hpos : 0 < m) :
    (Float.Model.pack (.finite .positive m (-k : Int) hpos)).unpack =
      .finite .positive m (-k) hpos := by
  have hbounds := (Nat.log2_eq_iff (Nat.ne_of_gt hpos)).1 hm
  obtain ⟨e, he⟩ : ∃ e : BitVec 11, e.toNat = 1075 - k := ⟨.ofNat 11 (1075 - k), by simp; omega⟩
  have hzero : e ≠ 0#11 := by
    rintro rfl
    rw [BitVec.toNat_zero] at he
    omega
  have hones : e ≠ -1#11 := by
    rintro rfl
    have hall : (-1#11).toNat = 2047 := by decide
    omega
  have hmantissa : (1#1 ++ BitVec.ofNat 52 m).toNat = m := by
    rw [toNat_implicit, BitVec.toNat_ofNat]
    omega
  have hunpacked : UnpackedFloat.finite .positive m (-k : Int) hpos =
      UnpackedFloat.unpack .binary64 (packComponents .binary64 .positive e (.ofNat 52 m)) := by
    rw [unpack_packComponents _ _ _ hones, if_neg hzero, UnpackedFloat.finite.injEq]
    exact ⟨rfl, hmantissa.symm, by omega⟩
  change UnpackedFloat.unpack .binary64 (UnpackedFloat.pack .binary64 _) = _
  rw [hunpacked, pack_unpacked _ _ _ hones]

/-- A natural number of no more than 53 bits is a double. -/
theorem unpack_toFloat (h : n ≠ 0) (ha : n.log2 + a = 52) :
    n.toUInt64.toFloat.toModel.unpack = .finite .positive (n <<< a) (-a) (shiftLeft_pos h a) := by
  have hunpacked := isUnpacked_shiftLeft h ha
  have hlt : n < 2 ^ 64 := by
    have hlog := (Nat.log2_lt h).1 (by omega : n.log2 < 53)
    omega
  have hnat : n.toUInt64.toNat = n := UInt64.toNat_ofNat_of_lt' hlt
  have hround : UnpackedFloat.ofUInt64 .binary64 n.toUInt64 =
      .finite .positive (n <<< a) (-a) (shiftLeft_pos h a) := by
    have hpos : compare (n : Int) 0 = .gt := by
      rw [compare_gt_iff_gt]
      omega
    have hshift : (-Format.binary64.targetExponent (totalExponent n 0)).toNat = a := by
      simp only [Format.targetExponent, totalExponent, Format.mantissaBits, Format.minExponent]
      omega
    simp only [UnpackedFloat.ofUInt64, UnpackedFloat.ofNat, UnpackedFloat.ofInt, hnat,
      UnpackedFloat.normalize, hpos, UnpackedFloat.round, decreaseExponent, Int.toNat_natCast,
      Int.zero_sub, hshift]
    exact (describes_exact hunpacked.1.ne' hunpacked.2.ge).round_unpacked hunpacked .positive
  change (Float.Model.pack (UnpackedFloat.ofUInt64 .binary64 n.toUInt64)).unpack = _
  rw [hround]
  exact unpack_pack (by rw [log2_shiftLeft h, ha]) (by omega) _

/-- Is a double equal to a natural number? -/
def isNatural (n : ℕ) : UnpackedFloat → Bool
  | .finite .positive m e _ => m * 2 ^ e.toNat == n * 2 ^ (-e).toNat
  | _ => false

theorem exists_of_isNatural (h : isNatural n x = true) :
    ∃ m e hm, x = .finite .positive m e hm ∧ (m * 2 ^ e : ℚ) = n := by
  unfold isNatural at h
  split at h
  · next m e hm =>
    refine ⟨m, e, hm, rfl, ?_⟩
    have hsplit : (2 : ℚ) ^ e * 2 ^ (-e).toNat = 2 ^ e.toNat := by
      rw [← zpow_natCast, ← zpow_natCast, ← zpow_add₀ two_ne_zero]
      congr 1
      omega
    have hscaled : (m * 2 ^ e.toNat : ℚ) = n * 2 ^ (-e).toNat := by
      exact_mod_cast beq_iff_eq.1 h
    rw [← hsplit, ← mul_assoc] at hscaled
    exact mul_right_cancel₀ (pow_pos two_pos _).ne' hscaled
  · cases h

/-- The powers of ten up to the 22nd are doubles. -/
theorem isNatural_powerOfTen : ∀ k : Fin Float.exactlyRepresentablePowersOfTen.size,
    isNatural (10 ^ k.val) Float.exactlyRepresentablePowersOfTen[k].toModel.unpack = true := by
  decide +kernel

end Number

namespace Decimal
open Number

variable {n k : ℕ}

/-- The number that a decimal stands for. -/
def value (d : Decimal) : ℚ := d.digits * 10 ^ d.exponent

/-- The power of ten that is above a decimal, but no more than ten times. -/
def magnitude (d : Decimal) : ℤ := d.exponent + (digitsOfNat d.digits).length

theorem digits_lt (n : ℕ) : n < 10 ^ (digitsOfNat n).length :=
  (Nat.length_toDigits_le_iff (by decide) Nat.length_toDigits_pos).1 (Nat.le_refl _)

theorem le_digits (h : n ≠ 0) : 10 ^ ((digitsOfNat n).length - 1) ≤ n := by
  by_contra hlt
  rw [Nat.not_le] at hlt
  by_cases hone : (digitsOfNat n).length = 1
  · rw [hone] at hlt
    omega
  · have hlen : 0 < (digitsOfNat n).length := Nat.length_toDigits_pos
    have hle : (digitsOfNat n).length ≤ _ :=
      (Nat.length_toDigits_le_iff (by decide) (by omega)).2 hlt
    omega

theorem length_digitsOfNat_le (h : n ≠ 0) : (digitsOfNat n).length ≤ n.log2 + 1 := by
  have hpow : 2 ^ ((digitsOfNat n).length - 1) ≤ 10 ^ ((digitsOfNat n).length - 1) :=
    Nat.pow_le_pow_left (by decide) _
  have hle := (Nat.le_log2 h).2 (hpow.trans (le_digits h))
  omega

theorem value_pos {d : Decimal} (h : d.digits ≠ 0) : 0 < d.value :=
  mul_pos (by exact_mod_cast Nat.pos_of_ne_zero h) (zpow_pos (by norm_num) _)

theorem value_eq_zero {d : Decimal} : d.value = 0 ↔ d.digits = 0 := by
  simp [value, zpow_ne_zero]

/-- The magnitude depends on the value only. -/
theorem magnitude_eq {d : Decimal} (h : d.digits ≠ 0) : d.magnitude = Int.log 10 d.value + 1 := by
  have hlen : 0 < (digitsOfNat d.digits).length := Nat.length_toDigits_pos
  have hunit : (0 : ℚ) < 10 ^ d.exponent := zpow_pos (by norm_num) _
  have hlow : (10 : ℚ) ^ ((digitsOfNat d.digits).length - 1 : ℕ) ≤ d.digits := by
    exact_mod_cast le_digits h
  have hhigh : (d.digits : ℚ) < 10 ^ (digitsOfNat d.digits).length := by
    exact_mod_cast digits_lt d.digits
  have hle : (10 : ℚ) ^ (d.magnitude - 1) ≤ d.value := by
    have hsplit : d.magnitude - 1 = ((digitsOfNat d.digits).length - 1 : ℕ) + d.exponent := by
      unfold magnitude
      omega
    rw [hsplit, zpow_add₀ (by norm_num), zpow_natCast]
    exact mul_le_mul_of_nonneg_right hlow hunit.le
  have hlt : d.value < (10 : ℚ) ^ d.magnitude := by
    rw [magnitude, add_comm, zpow_add₀ (by norm_num), zpow_natCast]
    exact mul_lt_mul_of_pos_right hhigh hunit
  have hone : 1 < 10 := by decide
  have hle := (Int.zpow_le_iff_le_log hone (value_pos h)).1 (by exact_mod_cast hle)
  have hlt := (Int.lt_zpow_iff_log_lt hone (value_pos h)).1 (by exact_mod_cast hlt)
  omega

theorem magnitude_le {d : Decimal} {k : ℤ} (h : d.digits ≠ 0) (hlt : d.value < 10 ^ k) :
    d.magnitude ≤ k := by
  rw [magnitude_eq h]
  exact Int.add_one_le_iff.2 ((Int.lt_zpow_iff_log_lt (by decide) (value_pos h)).1 hlt)

theorem lt_magnitude {d : Decimal} {k : ℤ} (h : d.digits ≠ 0) (hle : 10 ^ k ≤ d.value) :
    k < d.magnitude := by
  rw [magnitude_eq h]
  exact Int.lt_add_one_iff.2 ((Int.zpow_le_iff_le_log (by decide) (value_pos h)).1 hle)

theorem exists_unpack_toFloat (h : n ≠ 0) (hn : n < 2 ^ 53) :
    ∃ m e hm, n.toUInt64.toFloat.toModel.unpack = .finite .positive m e hm ∧
      (m * 2 ^ e : ℚ) = n ∧ 52 ≤ m.log2 := by
  have hlog : n.log2 < 53 := (Nat.log2_lt h).2 hn
  have hbits : n.log2 + (52 - n.log2) = 52 := by omega
  exact ⟨_, _, _, unpack_toFloat h hbits, value_shiftLeft _ _, by rw [log2_shiftLeft h, hbits]⟩

theorem exists_unpack_powerOfTen (hk : k < Float.exactlyRepresentablePowersOfTen.size) :
    ∃ m e hm, Float.exactlyRepresentablePowersOfTen[k].toModel.unpack =
      .finite .positive m e hm ∧ (m * 2 ^ e : ℚ) = 10 ^ k := by
  obtain ⟨m, e, hm, hunpack, hvalue⟩ := exists_of_isNatural (isNatural_powerOfTen ⟨k, hk⟩)
  exact ⟨m, e, hm, hunpack, by exact_mod_cast hvalue⟩

/-- A double is what a positive number is rounded to. -/
def IsNearest (x : Float) (q : ℚ) : Prop :=
  ∃ m e accuracy, Describes m e accuracy q ∧
    x = .ofModel (.pack (roundWithAccuracy .binary64 .positive m e accuracy))

theorem IsNearest.unique {x y : Float} (hx : IsNearest x q) (hy : IsNearest y q) : x = y := by
  obtain ⟨_, _, _, hx, rfl⟩ := hx
  obtain ⟨_, _, _, hy, rfl⟩ := hy
  rw [hx.round_eq hy]

variable {m₁ m₂ : ℕ} {e₁ e₂ : ℤ} {q₁ q₂ : ℚ}

theorem isNearest_mul (h₁ : 0 < m₁) (h₂ : 0 < m₂) (hlog : 52 ≤ m₁.log2) (hq₁ : m₁ * 2 ^ e₁ = q₁)
    (hq₂ : m₂ * 2 ^ e₂ = q₂) :
    IsNearest (.ofModel (.pack (UnpackedFloat.mul .binary64 (.finite .positive m₁ e₁ h₁)
      (.finite .positive m₂ e₂ h₂)))) (q₁ * q₂) :=
  ⟨_, _, _, hq₁ ▸ hq₂ ▸ describes_product h₁ h₂ hlog e₁ e₂, rfl⟩

theorem isNearest_div (h₁ : 0 < m₁) (h₂ : 0 < m₂) (hq₁ : m₁ * 2 ^ e₁ = q₁)
    (hq₂ : m₂ * 2 ^ e₂ = q₂) :
    IsNearest (.ofModel (.pack (UnpackedFloat.div .binary64 (.finite .positive m₁ e₁ h₁)
      (.finite .positive m₂ e₂ h₂)))) (q₁ / q₂) := by
  obtain ⟨_, _, _, hquotient, hdescribes⟩ := describes_quotient h₁ h₂ e₁ e₂
  refine ⟨_, _, _, hq₁ ▸ hq₂ ▸ hdescribes, ?_⟩
  rw [UnpackedFloat.div, hquotient]
  rfl

theorem isNearest_product (h : n ≠ 0) (hk : k ≤ 2048) :
    IsNearest (Float.ofScientific n false k) (n * 10 ^ k) := by
  unfold Float.ofScientific
  split
  · next hsmall =>
    have hlt : k < Float.exactlyRepresentablePowersOfTen.size := Nat.lt_succ_of_le hsmall.2
    obtain ⟨m₁, e₁, h₁, hunpack₁, hvalue₁, hlog⟩ := exists_unpack_toFloat h hsmall.1
    obtain ⟨m₂, e₂, h₂, hunpack₂, hvalue₂⟩ := exists_unpack_powerOfTen hlt
    change IsNearest (.ofModel (.pack (UnpackedFloat.mul .binary64
      n.toUInt64.toFloat.toModel.unpack Float.exactlyRepresentablePowersOfTen[k].toModel.unpack))) _
    rw [hunpack₁, hunpack₂]
    exact isNearest_mul h₁ h₂ hlog hvalue₁ hvalue₂
  · have hbits : (2 : Int) ^ Format.binary64.exponentBits = 2048 := by decide
    change IsNearest (.ofModel (.pack (UnpackedFloat.ofScientific .binary64 n (k : ℤ)))) _
    rw [UnpackedFloat.ofScientific, dif_neg h, if_neg (by omega), if_neg (by omega),
      if_pos (Int.natCast_nonneg k)]
    exact isNearest_mul (shiftLeft_pos h 53) (Nat.pow_pos (by decide))
      (by rw [log2_shiftLeft h]; omega) (value_shiftLeft n 53) (by simp)

theorem isNearest_quotient (h : n ≠ 0) (hpos : 0 < k) (hk : k ≤ 2048 + n.log2) :
    IsNearest (Float.ofScientific n true k) (n / 10 ^ k) := by
  unfold Float.ofScientific
  split
  · next hsmall =>
    have hlt : k < Float.exactlyRepresentablePowersOfTen.size := Nat.lt_succ_of_le hsmall.2
    obtain ⟨m₁, e₁, h₁, hunpack₁, hvalue₁, hlog⟩ := exists_unpack_toFloat h hsmall.1
    obtain ⟨m₂, e₂, h₂, hunpack₂, hvalue₂⟩ := exists_unpack_powerOfTen hlt
    change IsNearest (.ofModel (.pack (UnpackedFloat.div .binary64
      n.toUInt64.toFloat.toModel.unpack Float.exactlyRepresentablePowersOfTen[k].toModel.unpack))) _
    rw [hunpack₁, hunpack₂]
    exact isNearest_div h₁ h₂ hvalue₁ hvalue₂
  · have hbits : (2 : Int) ^ Format.binary64.exponentBits = 2048 := by decide
    have hexponent : Int.negOfNat k = -(k : ℤ) := Int.negOfNat_eq
    have hnat : (-(-(k : ℤ))).toNat = k := by omega
    change IsNearest (.ofModel (.pack (UnpackedFloat.ofScientific .binary64 n (.negOfNat k)))) _
    rw [hexponent, UnpackedFloat.ofScientific, dif_neg h, if_neg (by omega), if_neg (by omega),
      if_neg (by omega)]
    simp only [hnat]
    exact isNearest_div (Nat.pos_of_ne_zero h) (Nat.pow_pos (by decide)) (by simp) (by simp)

/-- Within the range of doubles a decimal is rounded to the double next to its value. -/
theorem isNearest_toFloat {d : Decimal} (h : d.digits ≠ 0) (hlow : -reach ≤ d.magnitude)
    (hhigh : d.magnitude ≤ reach) : IsNearest d.toFloat d.value := by
  have hlen := length_digitsOfNat_le h
  have hrange : ¬(d.digits = 0 ∨ d.magnitude < -reach) := by omega
  have hreach : reach = 400 := rfl
  unfold magnitude at *
  rw [toFloat, if_neg hrange, if_neg (by omega)]
  by_cases hneg : d.exponent < 0
  · have hexponent : d.exponent = -(d.exponent.natAbs : ℤ) := by omega
    have hvalue : d.value = d.digits / 10 ^ d.exponent.natAbs := by
      rw [value, hexponent, Int.natAbs_neg, Int.natAbs_natCast, zpow_neg, zpow_natCast,
        div_eq_mul_inv]
    rw [decide_eq_true hneg, hvalue]
    exact isNearest_quotient h (by omega) (by omega)
  · have hexponent : d.exponent = (d.exponent.natAbs : ℤ) := by omega
    have hvalue : d.value = d.digits * 10 ^ d.exponent.natAbs := by
      rw [value, hexponent, Int.natAbs_natCast, zpow_natCast]
    rw [decide_eq_false hneg, hvalue]
    exact isNearest_product h (by omega)

theorem toFloat_of_lt {d : Decimal} (h : d.magnitude < -reach) : d.toFloat = 0 :=
  if_pos (.inr h)

theorem toFloat_of_gt {d : Decimal} (hd : d.digits ≠ 0) (h : reach < d.magnitude) :
    d.toFloat = 1.0 / 0.0 := by
  have hlow : ¬(d.digits = 0 ∨ d.magnitude < -reach) := by omega
  exact (if_neg hlow).trans (if_pos h)

/-- The double closest to a decimal depends on its value only. -/
theorem toFloat_congr {d d' : Decimal} (h : d.value = d'.value) : d.toFloat = d'.toFloat := by
  by_cases hd : d.digits = 0
  · have hd' : d'.digits = 0 := value_eq_zero.1 (h ▸ value_eq_zero.2 hd)
    simp [toFloat, hd, hd']
  · have hd' : d'.digits ≠ 0 := fun hzero => hd (value_eq_zero.1 (h ▸ value_eq_zero.2 hzero))
    have hsize : d.magnitude = d'.magnitude := by rw [magnitude_eq hd, magnitude_eq hd', h]
    by_cases hlow : d.magnitude < -reach
    · rw [toFloat_of_lt hlow, toFloat_of_lt (hsize ▸ hlow)]
    by_cases hhigh : reach < d.magnitude
    · rw [toFloat_of_gt hd hhigh, toFloat_of_gt hd' (hsize ▸ hhigh)]
    exact (isNearest_toFloat hd (by omega) (by omega)).unique
      (h ▸ isNearest_toFloat hd' (by omega) (by omega))

end Decimal

end Formulae
