import Formulae.Proofs.Number.Rounding

namespace Formulae.Number
open Float.Model Float.Model.UnpackedFloat
set_option autoImplicit true

theorem zero_plus {x : Float} (h : (x == 0) = false) : 0 + x = x := by
  have hzero : (0 : Float).toModel.unpack = .zero .positive := by rfl
  have hadd : UnpackedFloat.add .binary64 (.zero .positive) x.toModel.unpack = x.toModel.unpack := by
    change x.toModel.unpack.beq (0 : Float).toModel.unpack = false at h
    rw [hzero] at h
    cases hx : x.toModel.unpack with
    | zero s => rw [hx] at h; cases s <;> cases h
    | _ => rfl
  change Float.ofModel (.pack (UnpackedFloat.add .binary64 (0 : Float).toModel.unpack _)) = x
  rw [hzero, hadd, pack_unpack_self]

theorem isUnpacked {x : Float} (h : x.toModel.unpack = .finite s m e hm) :
    IsUnpacked m e ∧ e ≤ 971 := by
  have hfinite : x.isFinite = true := by
    change x.toModel.unpack.isFinite = true
    rw [h]
    rfl
  obtain ⟨s', e', m', hones, hunpack⟩ := exists_components hfinite
  have hlt : m'.toNat < 2 ^ 52 := m'.isLt
  rw [h, unpack_packComponents s' e' m' hones] at hunpack
  split at hunpack
  · split at hunpack
    · cases hunpack
    · cases hunpack
      have hlog : m'.toNat.log2 < 52 := (Nat.log2_lt hm.ne').2 hlt
      simp only [IsUnpacked, Format.targetExponent, totalExponent, Format.mantissaBits,
        Format.minExponent]
      omega
  · next hzero =>
    cases hunpack
    have hlog : (1#1 ++ m').toNat.log2 = 52 := by
      rw [Nat.log2_eq_iff hm.ne', toNat_implicit]
      omega
    have hpos : e'.toNat ≠ 0 := fun h => hzero (BitVec.eq_of_toNat_eq h)
    have hall : e'.toNat ≠ 2047 := fun h => hones (BitVec.eq_of_toNat_eq h)
    have hlt : e'.toNat < 2048 := e'.isLt
    simp only [IsUnpacked, Format.targetExponent, totalExponent, Format.mantissaBits,
      Format.minExponent, hlog]
    omega

theorem mul_unit_finite (h : IsUnpacked m e) (s s' : Sign) (hone : 0 < 2 ^ 52) :
    UnpackedFloat.mul .binary64 (.finite s' (2 ^ 52) (-52) hone) (.finite s m e h.1) =
      .finite (s' * s) m e h.1 := by
  have hne : 2 ^ 52 * m ≠ 0 := Nat.mul_ne_zero hone.ne' h.1.ne'
  have hlog : (2 ^ 52 * m).log2 = m.log2 + 52 := by
    rw [Nat.mul_comm, ← Nat.shiftLeft_eq, log2_shiftLeft h.1.ne']
  have hexact := describes_exact hne (e := -52 + e) (by
    have htarget := h.2
    simp only [Format.targetExponent, totalExponent, Format.mantissaBits, Format.minExponent,
      hlog] at htarget ⊢
    omega)
  have hvalue : ((2 ^ 52 * m : ℕ) * 2 ^ (-52 + e) : ℚ) = m * 2 ^ e := by
    rw [zpow_add₀ two_ne_zero]
    push_cast
    norm_num
    ring
  rw [hvalue] at hexact
  rw [UnpackedFloat.mul, hexact.round_unpacked h]

theorem one_times (x : Float) : 1 * x = x := by
  have hone : (1 : Float).toModel.unpack = .finite .positive (2 ^ 52) (-52) (by decide) := by rfl
  have hmul : UnpackedFloat.mul .binary64 (.finite .positive (2 ^ 52) (-52) (by decide))
      x.toModel.unpack = x.toModel.unpack := by
    cases hx : x.toModel.unpack with
    | notANumber => rfl
    | infinity s => cases s <;> rfl
    | zero s => cases s <;> rfl
    | finite s m e hm =>
      rw [mul_unit_finite (isUnpacked hx).1]
      cases s <;> rfl
  change Float.ofModel (.pack (UnpackedFloat.mul .binary64 (1 : Float).toModel.unpack _)) = x
  rw [hone, hmul, pack_unpack_self]

theorem neg_one_times (x : Float) : -1 * x = -x := by
  have hone : (-1 : Float).toModel.unpack = .finite .negative (2 ^ 52) (-52) (by decide) := by rfl
  have hmul : UnpackedFloat.mul .binary64 (.finite .negative (2 ^ 52) (-52) (by decide))
      x.toModel.unpack = x.toModel.unpack.neg := by
    cases hx : x.toModel.unpack with
    | notANumber => rfl
    | infinity s => cases s <;> rfl
    | zero s => cases s <;> rfl
    | finite s m e hm =>
      rw [mul_unit_finite (isUnpacked hx).1]
      cases s <;> rfl
  change Float.ofModel (.pack (UnpackedFloat.mul .binary64 (-1 : Float).toModel.unpack _)) = -x
  rw [hone, hmul]
  rfl

theorem times_comm (x y : Float) : x * y = y * x := by
  have hsign (s s' : Sign) : s * s' = s' * s := by cases s <;> cases s' <;> rfl
  have hmul : UnpackedFloat.mul .binary64 x.toModel.unpack y.toModel.unpack =
      UnpackedFloat.mul .binary64 y.toModel.unpack x.toModel.unpack := by
    cases x.toModel.unpack <;> cases y.toModel.unpack <;>
      simp only [UnpackedFloat.mul, hsign, Nat.mul_comm, Int.add_comm]
  exact congrArg (fun u => Float.ofModel (.pack u)) hmul

theorem times_one (x : Float) : x * 1 = x := (times_comm x 1).trans (one_times x)

end Formulae.Number
