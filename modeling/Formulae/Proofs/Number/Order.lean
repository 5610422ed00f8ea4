import Formulae.Syntax.Operator
import Mathlib.Order.Compare

namespace Formulae
open Float.Model
set_option autoImplicit true

namespace Number

theorem compare_magnitudes_swap (e e' : Int) (m m' : Nat) :
    (compare e' e).then (compare m' m) = ((compare e e').then (compare m m')).swap := by
  rw [Ordering.swap_then, ← Std.OrientedCmp.eq_swap, ← Std.OrientedCmp.eq_swap]

theorem compare_swap (a b : UnpackedFloat) : b.compare a = (a.compare b).map Ordering.swap := by
  rcases a with ⟨_ | _⟩ | _ | s | ⟨_ | _, m, e, hm⟩ <;>
    rcases b with ⟨_ | _⟩ | _ | s' | ⟨_ | _, m', e', hm'⟩ <;>
    try rfl
  -- What is left are two finite numbers of the same sign.
  · exact congrArg (fun o => some o.swap) (compare_magnitudes_swap e e' m m')
  · exact congrArg some (compare_magnitudes_swap e e' m m')

theorem exists_compare {a b : UnpackedFloat} (ha : a.isNaN = false) (hb : b.isNaN = false) :
    ∃ o, a.compare b = some o := by
  rcases a with ⟨_ | _⟩ | _ | s | ⟨_ | _, m, e, hm⟩ <;>
    rcases b with ⟨_ | _⟩ | _ | s' | ⟨_ | _, m', e', hm'⟩ <;>
    first
    | exact ⟨_, rfl⟩
    | exact absurd ha Bool.noConfusion
    | exact absurd hb Bool.noConfusion

theorem decide_lt (x y : Float) : decide (x < y) = x.toModel.unpack.lt y.toModel.unpack :=
  Bool.decide_eq_true.trans Bool.decide_eq_true

theorem decide_le (x y : Float) : decide (x ≤ y) = x.toModel.unpack.le y.toModel.unpack :=
  Bool.decide_eq_true.trans Bool.decide_eq_true

end Number

namespace CmpOp

/-- Does the comparison hold of two numbers in this order? -/
def accepts : CmpOp → Ordering → Bool
  | lt, o => o.isLT
  | le, o => o.isLE
  | gt, o => o.isGT
  | ge, o => o.isGE
  | eq, o => o.isEq
  | ne, o => o.isNe

theorem holds_eq_accepts {x y : Float} (h : x.toModel.unpack.compare y.toModel.unpack = some o)
    (op : CmpOp) : op.holds x y = op.accepts o := by
  have hswap : y.toModel.unpack.compare x.toModel.unpack = some o.swap := by
    rw [Number.compare_swap, h, Option.map_some]
  have heq : (x == y) = (some o == some .eq) :=
    congrArg (· == some Ordering.eq) h
  cases op with
  | lt =>
    rw [holds, Number.decide_lt, UnpackedFloat.lt, h]
    cases o <;> rfl
  | le =>
    rw [holds, Number.decide_le, UnpackedFloat.le, h]
    cases o <;> rfl
  | gt =>
    rw [holds, Number.decide_lt, UnpackedFloat.lt, hswap]
    cases o <;> rfl
  | ge =>
    rw [holds, Number.decide_le, UnpackedFloat.le, hswap]
    cases o <;> rfl
  | eq =>
    rw [holds, heq]
    cases o <;> rfl
  | ne =>
    rw [holds, bne, heq]
    cases o <;> rfl

/-- Of a comparison and its negation exactly one holds of two numbers. -/
theorem holds_negate {x y : Float} (hx : x.isNaN = false) (hy : y.isNaN = false) (op : CmpOp) :
    op.negate.holds x y = !op.holds x y := by
  obtain ⟨o, ho⟩ := Number.exists_compare hx hy
  rw [holds_eq_accepts ho, holds_eq_accepts ho]
  cases op <;> cases o <;> rfl

end CmpOp

end Formulae
