import Formulae.Number.Shortest
import Formulae.Proofs.Number.Decimal
import Formulae.Proofs.Number.Neutral

namespace Formulae
open Float.Model Float.Model.UnpackedFloat
set_option autoImplicit true

namespace Number
open Decimal

theorem value_trimZeros (fuel : Nat) (d : Decimal) : (trimZeros fuel d).value = d.value := by
  fun_induction trimZeros fuel d with
  | case1 => rfl
  | case2 fuel d h ih =>
    rw [ih, value, value, zpow_add_one₀ (by norm_num)]
    have hten : d.digits = 10 * (d.digits / 10) := (Nat.mul_div_cancel' (Nat.dvd_of_mod_eq_zero h.2)).symm
    have hdigits : (d.digits : ℚ) = 10 * (d.digits / 10 : ℕ) := by exact_mod_cast hten
    rw [hdigits]
    ring
  | case3 => rfl

theorem value_exact (m : Nat) (e : Int) : (exact m e).value = m * 2 ^ e := by
  unfold exact
  split
  · next hwhole =>
    obtain ⟨k, rfl⟩ := Int.eq_ofNat_of_zero_le hwhole
    simp [value, Nat.shiftLeft_eq]
  · next hfraction =>
    obtain ⟨k, rfl⟩ : ∃ k : Nat, e = -k := ⟨e.natAbs, by omega⟩
    have hsplit : (10 : ℚ) ^ k = 2 ^ k * 5 ^ k := by rw [← mul_pow]; norm_num
    simp only [value, Int.natAbs_neg, Int.natAbs_natCast, zpow_neg, zpow_natCast]
    change ((m * 5 ^ k : ℕ) : ℚ) * _ = _
    rw [hsplit]
    push_cast
    field_simp

theorem isNearest_of_unpack {x : Float} (h : x.toModel.unpack = .finite .positive m e hm) :
    IsNearest x (m * 2 ^ e) := by
  have hunpacked := (isUnpacked h).1
  have hexact := describes_exact hm.ne' hunpacked.2.ge
  refine ⟨m, e, .exact, hexact, ?_⟩
  rw [hexact.round_unpacked hunpacked, ← h, pack_unpack_self]

/-- A decimal of the value of a positive double is read as this double. -/
theorem toFloat_of_value {x : Float} {d : Decimal}
    (h : x.toModel.unpack = .finite .positive m e hm) (hd : d.value = m * 2 ^ e) :
    d.toFloat = x := by
  obtain ⟨⟨hpos, htarget⟩, hle⟩ := isUnpacked h
  have hvalue : 0 < d.value := by
    rw [hd]
    exact mul_pos (by exact_mod_cast hpos) (zpow_pos two_pos e)
  have hdigits : d.digits ≠ 0 := fun hzero => hvalue.ne' (value_eq_zero.2 hzero)
  simp only [Format.targetExponent, totalExponent, Format.mantissaBits, Format.minExponent]
    at htarget
  have hm : (1 : ℚ) ≤ m ∧ (m : ℚ) < 2 ^ (53 : ℤ) := by
    have hlt : m < 2 ^ 53 := (Nat.log2_lt hpos.ne').1 (by omega)
    exact_mod_cast And.intro hpos hlt
  have hlow : (10 : ℚ) ^ (-401 : ℤ) ≤ d.value :=
    calc (10 : ℚ) ^ (-401 : ℤ) ≤ 2 ^ (-1074 : ℤ) := by
          have hpow : 2 ^ 1074 ≤ 10 ^ 401 := by decide +kernel
          rw [zpow_neg, zpow_neg]
          exact inv_anti₀ (zpow_pos two_pos _) (by exact_mod_cast hpow)
      _ ≤ 2 ^ e := zpow_le_zpow_right₀ one_le_two (by omega)
      _ ≤ d.value := hd ▸ le_mul_of_one_le_left (zpow_pos two_pos e).le hm.1
  have hhigh : d.value < (10 : ℚ) ^ (400 : ℤ) :=
    calc d.value < 2 ^ (53 : ℤ) * 2 ^ e := hd ▸ mul_lt_mul_of_pos_right hm.2 (zpow_pos two_pos e)
      _ ≤ 2 ^ (53 : ℤ) * 2 ^ (971 : ℤ) :=
        mul_le_mul_of_nonneg_left (zpow_le_zpow_right₀ one_le_two hle) (zpow_pos two_pos _).le
      _ ≤ 10 ^ (400 : ℤ) := by
          have hpow : 2 ^ 53 * 2 ^ 971 ≤ 10 ^ 400 := by decide +kernel
          exact_mod_cast hpow
  have hlow := lt_magnitude hdigits hlow
  have hhigh := magnitude_le hdigits hhigh
  have hreach : reach = 400 := rfl
  exact (isNearest_toFloat hdigits (by omega) (by omega)).unique (hd ▸ isNearest_of_unpack h)

theorem eq_of_beq_finite {x y : Float} (h : (y == x) = true)
    (hx : x.toModel.unpack = .finite s m e hm) : y = x := by
  have hbeq : y.toModel.unpack.beq x.toModel.unpack = true := h
  rw [beq_iff_ne_notANumber_and_eq] at hbeq
  obtain ⟨-, -, heq | ⟨-, hzero⟩ | ⟨-, hzero⟩⟩ := hbeq
  · exact unpack_inj.1 heq
  · rw [hx] at hzero; cases hzero
  · rw [hx] at hzero; cases hzero

theorem eq_one_of_beq {x : Float} (h : (x == 1) = true) : x = 1 := by
  have hone : (1 : Float).toModel.unpack = .finite .positive (2 ^ 52) (-52) (by decide) := by rfl
  exact eq_of_beq_finite h hone

theorem toFloat_of_shortestFrom {x : Float} (h : shortestFrom x r grids power = some d) :
    (d.toFloat == x) = true := by
  fun_induction shortestFrom x r grids power with
  | case1 => cases h
  | case2 grids power d' hfind =>
    cases h
    have hfound := List.find?_some hfind
    exact hfound
  | case3 grids power hfind ih => exact ih h

/-- The shortest decimal of a positive double is read as this double. -/
theorem toFloat_shortest {x : Float} (h : x.toModel.unpack = .finite .positive m e hm) :
    (shortest x m e).toFloat = x := by
  simp only [shortest]
  split
  · next d hfound =>
    rw [toFloat_congr (value_trimZeros 1 d)]
    exact eq_of_beq_finite (toFloat_of_shortestFrom hfound) h
  · exact toFloat_of_value h (value_exact m e)

end Number

end Formulae
