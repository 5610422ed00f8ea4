import Formulae.Number.Basic
import Mathlib

namespace Formulae.Number
open Float.Model Float.Model.UnpackedFloat
set_option autoImplicit true

theorem toNat_implicit (m : BitVec 52) : (1#1 ++ m).toNat = 2 ^ 52 + m.toNat := by
  rw [BitVec.toNat_append, ← Nat.shiftLeft_add_eq_or_of_lt (BitVec.isLt _)]
  simp [Nat.shiftLeft_eq]

theorem unpack_packComponents (s : Sign) (e : BitVec 11) (m : BitVec 52) (hones : e ≠ -1#11) :
    UnpackedFloat.unpack .binary64 (packComponents .binary64 s e m) =
      if e = 0#11 then
        if hm : m = 0#52 then .zero s
        else .finite s m.toNat (-1074) (Nat.pos_of_ne_zero fun h => hm (BitVec.eq_of_toNat_eq h))
      else .finite s (1#1 ++ m).toNat (e.toNat - 1075) (by rw [toNat_implicit]; omega) := by
  unfold UnpackedFloat.unpack
  simp only [unpackExponent_packComponents, unpackMantissa_packComponents,
    unpackSign_packComponents, Sign.ofBitVec_toBitVec]
  rw [if_neg hones]
  by_cases he : e = 0#11
  · subst he
    by_cases hm : m = 0#52
    · subst hm
      rfl
    · rw [if_pos rfl, if_pos rfl, dif_neg hm, dif_neg hm]
      rfl
  · rw [if_neg he, if_neg he]
    rfl

theorem pack_unpacked (s : Sign) (e : BitVec 11) (m : BitVec 52) (hones : e ≠ -1#11) :
    UnpackedFloat.pack .binary64 (UnpackedFloat.unpack .binary64 (packComponents .binary64 s e m)) =
      packComponents .binary64 s e m := by
  have hnumber : isNaNBits (packComponents .binary64 s e m) = false := by
    rw [isNaNBits, unpackExponent_packComponents]
    exact decide_eq_false fun hnan => hones hnan.1
  rw [pack_unpack, hnumber, if_neg Bool.false_ne_true]

theorem pack_unpack_self (x : Float) : Float.ofModel (.pack x.toModel.unpack) = x := by
  obtain ⟨⟨bits, hvalid⟩⟩ := x
  have hbits := UnpackedFloat.pack_unpack_of_valid hvalid
  simp only [Float.Model.pack, Float.Model.unpack]
  congr

/-- A double is what it is unpacked to. -/
theorem unpack_inj {x y : Float} : x.toModel.unpack = y.toModel.unpack ↔ x = y := by
  refine ⟨fun h => ?_, fun h => h ▸ rfl⟩
  rw [← pack_unpack_self x, h, pack_unpack_self]

end Formulae.Number

namespace Formulae.Number
open Float.Model Float.Model.UnpackedFloat
set_option autoImplicit true

theorem abs_unpacked (s : Sign) (e : BitVec 11) (m : BitVec 52) (hones : e ≠ -1#11) :
    (UnpackedFloat.unpack .binary64 (packComponents .binary64 s e m)).abs =
      UnpackedFloat.unpack .binary64 (packComponents .binary64 .positive e m) := by
  rw [unpack_packComponents s e m hones, unpack_packComponents .positive e m hones]
  split
  · split <;> rfl
  · rfl

/-- A finite double is unpacked from a sign, an exponent that is not all ones and a mantissa. -/
theorem exists_components {x : Float} (h : x.isFinite = true) :
    ∃ s e m, e ≠ -1#11 ∧ x.toModel.unpack =
      UnpackedFloat.unpack .binary64 (packComponents .binary64 s e m) := by
  let b : BitVec Format.binary64.numBits := x.toModel.toBits.toBitVec
  have hbits := packComponents_unpackSign_unpackExponent_unpackMantissa b
  refine ⟨_, _, _, fun hones => ?_, congrArg (UnpackedFloat.unpack .binary64) hbits.symm⟩
  change (UnpackedFloat.unpack .binary64 b).isFinite = true at h
  unfold UnpackedFloat.unpack at h
  simp only [hones, if_true] at h
  split at h <;> cases h

theorem unpack_not_finite {x : Float} (h : x.isFinite = false) :
    x.toModel.unpack = .notANumber ∨ ∃ s, x.toModel.unpack = .infinity s := by
  change x.toModel.unpack.isFinite = false at h
  cases hx : x.toModel.unpack with
  | notANumber => exact .inl rfl
  | infinity s => exact .inr ⟨s, rfl⟩
  | zero | finite => rw [hx] at h; cases h

/-- There are three doubles that are not finite. -/
theorem not_finite_cases {x : Float} (h : x.isFinite = false) :
    x = 0 / 0 ∨ x = 1 / 0 ∨ x = -(1 / 0) := by
  rcases unpack_not_finite h with hx | ⟨s, hx⟩
  · exact .inl (unpack_inj.1 (hx.trans (by rfl)))
  · cases s with
    | positive => exact .inr (.inl (unpack_inj.1 (hx.trans (by rfl))))
    | negative => exact .inr (.inr (unpack_inj.1 (hx.trans (by rfl))))

theorem unpack_abs (x : Float) : x.abs.toModel.unpack = x.toModel.unpack.abs := by
  change UnpackedFloat.unpack .binary64 (UnpackedFloat.pack .binary64 x.toModel.unpack.abs) = _
  cases hfinite : x.isFinite with
  | true =>
    obtain ⟨s, e, m, hones, hunpack⟩ := exists_components hfinite
    rw [hunpack, abs_unpacked s e m hones, pack_unpacked .positive e m hones]
  | false => rcases not_finite_cases hfinite with rfl | rfl | rfl <;> rfl

theorem abs_abs (x : Float) : x.abs.abs = x.abs := by
  change Float.ofModel (.pack x.abs.toModel.unpack.abs) = .ofModel (.pack x.toModel.unpack.abs)
  rw [unpack_abs x]
  cases x.toModel.unpack <;> rfl

theorem lt_zero_iff (x : Float) : x < 0 ↔ x.toModel.unpack.lt (.zero .positive) = true := by
  have hzero : (0 : Float).toModel.unpack = .zero .positive := by rfl
  rw [← hzero]
  exact decide_eq_true_iff

/-- A finite double is zero, or positive, or negative. -/
theorem unpack_cases {x : Float} (h : x.isFinite = true) :
    (¬x < 0 ∧ ∃ s, x.toModel.unpack = .zero s) ∨
    (¬x < 0 ∧ ∃ m e hm, x.toModel.unpack = .finite .positive m e hm) ∨
    (x < 0 ∧ ∃ m e hm, x.toModel.unpack = .finite .negative m e hm) := by
  change x.toModel.unpack.isFinite = true at h
  rw [lt_zero_iff]
  cases hx : x.toModel.unpack with
  | notANumber => simp [hx, UnpackedFloat.isFinite] at h
  | infinity s => simp [hx, UnpackedFloat.isFinite] at h
  | zero s => exact .inl ⟨by simp [UnpackedFloat.lt, UnpackedFloat.compare], s, rfl⟩
  | finite s m e hm =>
    cases s with
    | positive =>
      exact .inr (.inl ⟨by simp [UnpackedFloat.lt, UnpackedFloat.compare], m, e, hm, rfl⟩)
    | negative =>
      exact .inr (.inr ⟨by simp [UnpackedFloat.lt, UnpackedFloat.compare], m, e, hm, rfl⟩)

theorem neg_unpacked (s : Sign) (e : BitVec 11) (m : BitVec 52) (hones : e ≠ -1#11) :
    (UnpackedFloat.unpack .binary64 (packComponents .binary64 s e m)).neg =
      UnpackedFloat.unpack .binary64 (packComponents .binary64 (-s) e m) := by
  rw [unpack_packComponents s e m hones, unpack_packComponents (-s) e m hones]
  split
  · split <;> rfl
  · rfl

theorem unpack_neg (x : Float) : (-x).toModel.unpack = x.toModel.unpack.neg := by
  change UnpackedFloat.unpack .binary64 (UnpackedFloat.pack .binary64 x.toModel.unpack.neg) = _
  cases hfinite : x.isFinite with
  | true =>
    obtain ⟨s, e, m, hones, hunpack⟩ := exists_components hfinite
    rw [hunpack, neg_unpacked s e m hones, pack_unpacked (-s) e m hones]
  | false => rcases not_finite_cases hfinite with rfl | rfl | rfl <;> rfl

theorem neg_neg (x : Float) : - -x = x := by
  apply unpack_inj.1
  rw [unpack_neg, unpack_neg]
  cases x.toModel.unpack with
  | notANumber => rfl
  | infinity s | zero s | finite s => cases s <;> rfl

theorem neg_abs {x : Float} (h : x < 0) : -x.abs = x := by
  apply unpack_inj.1
  rw [lt_zero_iff] at h
  rw [unpack_neg, unpack_abs]
  cases hx : x.toModel.unpack with
  | notANumber => rfl
  | zero s => rw [hx] at h; cases h
  | infinity s | finite s =>
    cases s with
    | negative => rfl
    | positive => rw [hx] at h; cases h

theorem abs_of_not_neg {x : Float} (h : ¬x < 0) (hzero : x ≠ -0) : x.abs = x := by
  apply unpack_inj.1
  rw [lt_zero_iff] at h
  rw [unpack_abs]
  cases hx : x.toModel.unpack with
  | notANumber => rfl
  | zero s =>
    cases s with
    | positive => rfl
    | negative => exact absurd (unpack_inj.1 (hx.trans (by rfl))) hzero
  | infinity s | finite s =>
    cases s with
    | positive => rfl
    | negative => rw [hx] at h; exact absurd rfl h

theorem isFinite_neg (x : Float) : (-x).isFinite = x.isFinite := by
  change (-x).toModel.unpack.isFinite = x.toModel.unpack.isFinite
  rw [unpack_neg]
  cases x.toModel.unpack <;> rfl

theorem neg_beq_zero (x : Float) : (-x == 0) = (x == 0) := by
  have hzero : (0 : Float).toModel.unpack = .zero .positive := by rfl
  change (-x).toModel.unpack.beq _ = x.toModel.unpack.beq _
  rw [unpack_neg, hzero]
  cases x.toModel.unpack with
  | notANumber => rfl
  | infinity s | zero s | finite s => cases s <;> rfl

theorem beq_zero_of_neg {x : Float} (h : x < 0) : (x == 0) = false := by
  have hzero : (0 : Float).toModel.unpack = .zero .positive := by rfl
  rw [lt_zero_iff] at h
  change x.toModel.unpack.beq _ = false
  rw [hzero]
  cases hx : x.toModel.unpack with
  | notANumber => rfl
  | zero s => rw [hx] at h; cases h
  | infinity s | finite s => cases s <;> rfl

theorem ne_neg_zero {x : Float} (h : (x == 0) = false) : x ≠ -0 := by
  rintro rfl
  exact absurd h (by decide +kernel)

theorem isSome_integer?_neg (x : Float) : (integer? (-x)).isSome = (integer? x).isSome := by
  rw [integer?, integer?, unpack_neg]
  cases hx : x.toModel.unpack with
  | notANumber | infinity | zero => rfl
  | finite s m e =>
    simp only [UnpackedFloat.neg]
    cases natural? m e with
    | none => rfl
    | some n => dsimp only; split <;> rfl

/-- A number and its negation are not both negative. -/
theorem not_neg_lt_zero {x : Float} (h : x < 0) : ¬-x < 0 := by
  rw [lt_zero_iff] at h ⊢
  rw [unpack_neg]
  cases hx : x.toModel.unpack with
  | notANumber | zero => rw [hx] at h; cases h
  | infinity s | finite s =>
    cases s <;> simp_all [UnpackedFloat.lt, UnpackedFloat.compare, UnpackedFloat.neg]

end Formulae.Number
