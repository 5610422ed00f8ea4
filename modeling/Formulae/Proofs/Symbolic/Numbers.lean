import Formulae.Proofs.Number.Shortest
import Formulae.Symbolic.Text

namespace Formulae.Symbolic
open Number Decimal
open Float.Model.UnpackedFloat (Sign)
set_option autoImplicit true

/-- The digits of a positive double: those of a whole number, or those that are read back. -/
def digitsOf (x : Float) (mantissa : Nat) (exponent : Int) : List Char :=
  match natural? mantissa exponent with
  | some n =>
    if n < Nat.pow 10 15 then digitsOfNat n else (shortest x mantissa exponent).positional
  | none => (shortest x mantissa exponent).positional

theorem natural?_pos (hm : 0 < m) (h : natural? m e = some n) : 0 < n := by
  unfold natural? at h
  split at h
  · cases h
    rw [Nat.shiftLeft_eq]
    exact Nat.mul_pos hm (Nat.two_pow_pos _)
  · dsimp only at h
    split at h
    · next hdvd =>
      cases h
      exact Nat.div_pos (Nat.le_of_dvd hm (Nat.dvd_of_mod_eq_zero hdvd)) (Nat.two_pow_pos _)
    · cases h

theorem toString_signed (s : Sign) {n : Nat} (hn : 0 < n) :
    toString (s.apply n) = String.ofList (signText s ++ digitsOfNat n) := by
  obtain ⟨k, rfl⟩ := Nat.exists_eq_add_of_le' hn
  cases s with
  | positive => exact Nat.toString_eq_ofList_toDigits
  | negative =>
    change "-" ++ toString (k + 1) = _
    rw [Nat.toString_eq_ofList_toDigits]
    apply String.toList_inj.1
    simp [signText, digitsOfNat]

theorem numberText_zero {x : Float} (hx : x.toModel.unpack = .zero s) : numberText x = "0" := by
  simp only [numberText, integer?, hx]
  rfl

theorem numberText_finite {x : Float} (hx : x.toModel.unpack = .finite s m e hm) :
    numberText x = String.ofList (signText s ++ digitsOf x.abs m e) := by
  simp only [numberText, integer?, hx, digitsOf]
  cases hn : natural? m e with
  | none => simp only [Number.text, textWith, hx]
  | some n =>
    by_cases hsmall : n < Nat.pow 10 15
    · simp only [if_pos hsmall]
      exact toString_signed s (natural?_pos hm hn)
    · simp only [if_neg hsmall, Number.text, textWith, hx]

theorem numberText_not_finite {x : Float} (h : x.isFinite = false) :
    x.toModel.unpack = .notANumber ∧ numberText x = "NaN" ∨
      ∃ s, x.toModel.unpack = .infinity s ∧
        numberText x = String.ofList (signText s ++ "inf".toList) := by
  rcases unpack_not_finite h with hx | ⟨s, hx⟩
  · exact .inl ⟨hx, by simp only [numberText, integer?, Number.text, textWith, hx]⟩
  · refine .inr ⟨s, hx, ?_⟩
    simp only [numberText, integer?, Number.text, textWith, hx]
    rfl

/-- The text of a negative number is that of its absolute value with a minus sign. -/
theorem numberText_eq (x : Float) :
    numberText x = (if x < 0 then "-" else "") ++ numberText x.abs := by
  have habs := unpack_abs x
  cases h : x.isFinite with
  | true =>
    rcases unpack_cases h with ⟨hsign, s, hx⟩ | ⟨hsign, m, e, hm, hx⟩ | ⟨hsign, m, e, hm, hx⟩
    · rw [hx] at habs
      rw [numberText_zero hx, numberText_zero habs, if_neg hsign]
      rfl
    · rw [hx] at habs
      rw [numberText_finite hx, numberText_finite habs, abs_abs, if_neg hsign]
      apply String.toList_inj.1
      simp
    · rw [hx] at habs
      rw [numberText_finite hx, numberText_finite habs, abs_abs, if_pos hsign]
      apply String.toList_inj.1
      simp [signText]
  | false => rcases not_finite_cases h with rfl | rfl | rfl <;> decide +kernel

theorem value_natural? (h : natural? m e = some n) : (n : ℚ) = m * 2 ^ e := by
  unfold natural? at h
  split at h
  · next hwhole =>
    cases h
    obtain ⟨k, rfl⟩ := Int.eq_ofNat_of_zero_le hwhole
    simp [Nat.shiftLeft_eq]
  · next hfraction =>
    obtain ⟨k, rfl⟩ : ∃ k : Nat, e = -k := ⟨e.natAbs, by omega⟩
    simp only [Int.natAbs_neg, Int.natAbs_natCast] at h
    split at h
    · next hdvd =>
      cases h
      rw [zpow_neg, zpow_natCast, ← div_eq_mul_inv]
      exact_mod_cast Nat.cast_div (Nat.dvd_of_mod_eq_zero hdvd)
        (by exact_mod_cast (Nat.two_pow_pos k).ne')
    · cases h

/-- The digits of a positive double are read as this double. -/
theorem read?_digitsOf {x : Float} (h : x.toModel.unpack = .finite .positive m e hm) :
    ∃ n, Decimal.read? (digitsOf x m e) = some n ∧ n.toFloat = x := by
  have hpositional : ∃ n, Decimal.read? (shortest x m e).positional = some n ∧ n.toFloat = x := by
    obtain ⟨n, hread, hvalue⟩ := read?_positional (shortest x m e)
    exact ⟨n, hread, by rw [toFloat_congr hvalue, toFloat_shortest h]⟩
  unfold digitsOf
  split
  · next n hn =>
    split
    · refine ⟨_, read?_digitsOfNat n, toFloat_of_value h ?_⟩
      rw [value, zpow_zero, mul_one, value_natural? hn]
    · exact hpositional
  · exact hpositional

/-- The absolute value of a finite number is read from its text. -/
theorem read?_numberText {x : Float} (h : x.isFinite = true) :
    ∃ n, Decimal.read? (numberText x.abs).toList = some n ∧ n.toFloat = x.abs := by
  have habs := unpack_abs x
  have hpositive {m e hm} (habs : x.abs.toModel.unpack = .finite .positive m e hm) :
      ∃ n, Decimal.read? (numberText x.abs).toList = some n ∧ n.toFloat = x.abs := by
    rw [numberText_finite habs, abs_abs, String.toList_ofList]
    exact read?_digitsOf habs
  rcases unpack_cases h with ⟨-, s, hx⟩ | ⟨-, m, e, hm, hx⟩ | ⟨-, m, e, hm, hx⟩
  · rw [hx] at habs
    rw [numberText_zero habs]
    refine ⟨⟨0, 0⟩, by decide +kernel, unpack_inj.1 ?_⟩
    rw [habs]
    rfl
  · rw [hx] at habs
    exact hpositive habs
  · rw [hx] at habs
    exact hpositive habs

/-- A numeral with or without a minus sign, as a double. -/
def readSigned? (cs : List Char) : Option Float :=
  match Decimal.read? cs, cs with
  | some n, _ => some n.toFloat
  | none, '-' :: cs => (Decimal.read? cs).map fun n => -n.toFloat
  | none, _ => none

theorem readSigned?_of_read? (h : Decimal.read? cs = some n) : readSigned? cs = some n.toFloat := by
  unfold readSigned?
  rw [h]

theorem readSigned?_negative (cs : List Char) :
    readSigned? ('-' :: cs) = (Decimal.read? cs).map fun n => -n.toFloat := by
  have hnone : Decimal.read? ('-' :: cs) = none := by simp [Decimal.read?]
  unfold readSigned?
  rw [hnone]
  rfl

/-- A finite number is read from its text, but for the sign of zero. -/
theorem readSigned?_numberText {x : Float} (h : x.isFinite = true) :
    ∃ y, readSigned? (numberText x).toList = some y ∧ (y == x) = true := by
  obtain ⟨n, hread, habs⟩ := read?_numberText h
  have hunpack := unpack_abs x
  have hself : (x == x) = true := by
    rw [Float.beq_self_iff]
    rintro rfl
    cases h
  rw [numberText_eq]
  rcases unpack_cases h with ⟨hsign, s, hx⟩ | ⟨hsign, m, e, hm, hx⟩ | ⟨hsign, m, e, hm, hx⟩
  · rw [if_neg hsign, String.empty_append, readSigned?_of_read? hread, habs]
    refine ⟨_, rfl, ?_⟩
    change x.abs.toModel.unpack.beq x.toModel.unpack = true
    rw [hunpack, hx]
    cases s <;> rfl
  · have hpositive : x.abs = x := unpack_inj.1 (by rw [hunpack, hx]; rfl)
    rw [if_neg hsign, String.empty_append, readSigned?_of_read? hread, habs, hpositive]
    exact ⟨x, rfl, hself⟩
  · rw [if_pos hsign, String.toList_append]
    refine ⟨x, ?_, hself⟩
    change readSigned? ('-' :: (numberText x.abs).toList) = _
    rw [readSigned?_negative, hread, Option.map_some, habs, neg_abs hsign]

theorem readSigned?_not_finite {x : Float} (h : x.isFinite = false) :
    readSigned? (numberText x).toList = none := by
  rcases numberText_not_finite h with ⟨-, htext⟩ | ⟨s, -, htext⟩
  · rw [htext]
    decide +kernel
  · rw [htext]
    cases s <;> decide +kernel

/-- Numbers of the same text are the same or both zero. -/
theorem numberText_inj {x y : Float} (h : numberText x = numberText y) :
    x = y ∨ (x == y) = true := by
  cases hx : x.isFinite with
  | true =>
    obtain ⟨a, hread, ha⟩ := readSigned?_numberText hx
    cases hy : y.isFinite with
    | true =>
      obtain ⟨b, hread', hb⟩ := readSigned?_numberText hy
      rw [h, hread'] at hread
      cases hread
      exact .inr (BEq.trans (BEq.symm ha) hb)
    | false =>
      rw [h, readSigned?_not_finite hy] at hread
      cases hread
  | false =>
    cases hy : y.isFinite with
    | true =>
      obtain ⟨b, hread, -⟩ := readSigned?_numberText hy
      rw [← h, readSigned?_not_finite hx] at hread
      cases hread
    | false =>
      refine .inl (unpack_inj.1 ?_)
      rcases numberText_not_finite hx with ⟨hx, htext⟩ | ⟨s, hx, htext⟩ <;>
        rcases numberText_not_finite hy with ⟨hy, htext'⟩ | ⟨s', hy, htext'⟩ <;>
        rw [htext, htext'] at h
      · rw [hx, hy]
      · cases s' <;> exact absurd h (by decide)
      · cases s <;> exact absurd h (by decide)
      · cases s <;> cases s' <;> first | exact absurd h (by decide) | rw [hx, hy]

theorem mem_digitsOf (h : c ∈ digitsOf x m e) : c.isDigit = true ∨ c = '.' := by
  have hdigits (n : Nat) (h : c ∈ digitsOfNat n) : c.isDigit = true :=
    List.all_eq_true.1 (all_isDigit_digitsOfNat n) c h
  unfold digitsOf at h
  split at h
  · split at h
    · exact .inl (hdigits _ h)
    · exact mem_positional h
  · exact mem_positional h

/-- The texts of numbers hold nothing that could end them. -/
theorem mem_numberText {x : Float} (h : c ∈ (numberText x).toList) : c ≠ ')' ∧ c ≠ '\'' := by
  have hplain {cs : List Char} (hcs : cs.all (fun c => c != ')' && c != '\'') = true)
      (hc : c ∈ cs) : c ≠ ')' ∧ c ≠ '\'' := by
    simpa using List.all_eq_true.1 hcs c hc
  have hsign (s : Sign) (hc : c ∈ signText s) : c ≠ ')' ∧ c ≠ '\'' := by
    cases s with
    | positive => cases hc
    | negative => exact hplain (by decide) hc
  have hnumeral {m e hm s} (hx : x.toModel.unpack = .finite s m e hm) : c ≠ ')' ∧ c ≠ '\'' := by
    rw [numberText_finite hx, String.toList_ofList] at h
    rcases List.mem_append.1 h with h | h
    · exact hsign s h
    · rcases mem_digitsOf h with h | h
      · constructor <;> rintro rfl <;> exact absurd h (by decide)
      · exact hplain (by decide) (List.mem_singleton.2 h)
  cases hx : x.isFinite with
  | true =>
    rcases unpack_cases hx with ⟨-, s, hx⟩ | ⟨-, m, e, hm, hx⟩ | ⟨-, m, e, hm, hx⟩
    · rw [numberText_zero hx] at h
      exact hplain (by decide) h
    · exact hnumeral hx
    · exact hnumeral hx
  | false =>
    rcases numberText_not_finite hx with ⟨-, htext⟩ | ⟨s, -, htext⟩
    · rw [htext] at h
      exact hplain (by decide) h
    · rw [htext, String.toList_ofList] at h
      rcases List.mem_append.1 h with h | h
      · exact hsign s h
      · exact hplain (by decide) h

end Formulae.Symbolic
