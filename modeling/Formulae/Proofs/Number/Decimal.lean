import Formulae.Proofs.Number.Nearest

namespace Formulae.Decimal
open Number
set_option autoImplicit true

theorem natOfDigits_eq (ds : List Char) : natOfDigits ds = Nat.ofDigitChars 10 ds 0 := rfl

theorem natOfDigits_digitsOfNat (n : Nat) : natOfDigits (digitsOfNat n) = n :=
  Nat.ofDigitChars_ten_toDigits

theorem takeWhile_digits {ds : List Char} (h : ds.all Char.isDigit = true) (rest : List Char)
    (hrest : ∀ c ∈ rest.head?, c.isDigit = false) :
    (ds ++ rest).takeWhile Char.isDigit = ds ∧ (ds ++ rest).dropWhile Char.isDigit = rest := by
  rw [List.all_eq_true] at h
  rw [List.takeWhile_append_of_pos h, List.dropWhile_append_of_pos h]
  cases rest with
  | nil => simp
  | cons c rest => simp [hrest c rfl]

theorem read?_digits {ds : List Char} (h : ds.all Char.isDigit = true) (hne : ds ≠ []) :
    read? ds = some ⟨natOfDigits ds, 0⟩ := by
  obtain ⟨htake, hdrop⟩ := takeWhile_digits h [] (by simp)
  rw [List.append_nil] at htake hdrop
  simp [read?, htake, hdrop, hne, readExponent?]

theorem read?_point {ds es : List Char} (hds : ds.all Char.isDigit = true)
    (hes : es.all Char.isDigit = true) (hne : ds ≠ []) :
    read? (ds ++ '.' :: es) = some ⟨natOfDigits (ds ++ es), -es.length⟩ := by
  obtain ⟨htake, hdrop⟩ := takeWhile_digits hds ('.' :: es) (by rintro _ ⟨⟩; decide)
  obtain ⟨htake', hdrop'⟩ := takeWhile_digits hes [] (by simp)
  rw [List.append_nil] at htake' hdrop'
  simp [read?, htake, hdrop, htake', hdrop', hne, readExponent?]

theorem all_isDigit_digitsOfNat (n : Nat) : (digitsOfNat n).all Char.isDigit = true :=
  List.all_eq_true.2 fun _ hc => Nat.isDigit_of_mem_toDigits (by decide) (by decide) hc

theorem read?_digitsOfNat (n : Nat) : read? (digitsOfNat n) = some ⟨n, 0⟩ := by
  rw [read?_digits (all_isDigit_digitsOfNat n) Nat.toDigits_ne_nil, natOfDigits_digitsOfNat]

theorem natOfDigits_append_zeros (ds : List Char) (k : Nat) :
    natOfDigits (ds ++ List.replicate k '0') = 10 ^ k * natOfDigits ds := by
  rw [natOfDigits_eq, Nat.ofDigitChars_append, Nat.ofDigitChars_replicate_zero, natOfDigits_eq]

theorem natOfDigits_zeros_append (k : Nat) (ds : List Char) :
    natOfDigits (List.replicate k '0' ++ ds) = natOfDigits ds := by
  rw [natOfDigits_eq, Nat.ofDigitChars_append, Nat.ofDigitChars_replicate_zero, Nat.mul_zero,
    natOfDigits_eq]

/-- A decimal is read from its text with the value that it has, though zeros may have moved. -/
theorem read?_positional (d : Decimal) :
    ∃ d', read? d.positional = some d' ∧ d'.value = d.value := by
  have hall := all_isDigit_digitsOfNat d.digits
  have hne : digitsOfNat d.digits ≠ [] := Nat.toDigits_ne_nil
  have hdigits : ∀ c ∈ digitsOfNat d.digits, c.isDigit = true := List.all_eq_true.1 hall
  have hfraction (h : ¬0 ≤ d.exponent) : -(d.exponent.natAbs : Int) = d.exponent := by omega
  simp only [positional]
  split
  · next hwhole =>
    obtain ⟨k, hk⟩ := Int.eq_ofNat_of_zero_le hwhole
    refine ⟨_, read?_digits (by simp [hall]) (by simp [hne]), ?_⟩
    simp only [value, natOfDigits_append_zeros, natOfDigits_digitsOfNat, hk, zpow_zero, mul_one,
      zpow_natCast, Int.toNat_natCast]
    push_cast
    exact mul_comm _ _
  · next hneg =>
    split
    · next hlt =>
      have hlen : 0 < (digitsOfNat d.digits).length := List.length_pos_iff.2 hne
      refine ⟨_, read?_point (List.all_eq_true.2 fun c hc => hdigits c (List.mem_of_mem_take hc))
        (List.all_eq_true.2 fun c hc => hdigits c (List.mem_of_mem_drop hc)) ?_, ?_⟩
      · rw [ne_eq, List.take_eq_nil_iff, not_or]
        exact ⟨by omega, hne⟩
      · have hdropped : ((digitsOfNat d.digits).drop
            ((digitsOfNat d.digits).length - d.exponent.natAbs)).length = d.exponent.natAbs := by
          rw [List.length_drop]
          omega
        rw [value, hdropped, List.take_append_drop, natOfDigits_digitsOfNat, hfraction hneg, value]
    · next hlong =>
      have hzero : ['0'].all Char.isDigit = true := by decide
      obtain ⟨k, hk⟩ := Nat.exists_eq_add_of_le (Nat.le_of_not_lt hlong)
      have hzeros : natOfDigits (['0'] ++ (List.replicate k '0' ++ digitsOfNat d.digits)) =
          d.digits := by
        rw [← List.append_assoc, List.singleton_append, ← List.replicate_succ,
          natOfDigits_zeros_append, natOfDigits_digitsOfNat]
      have hlength : (List.replicate k '0' ++ digitsOfNat d.digits).length =
          d.exponent.natAbs := by
        rw [List.length_append, List.length_replicate]
        omega
      have hes : (List.replicate k '0' ++ digitsOfNat d.digits).all Char.isDigit = true := by
        simp [hall]
      have hread := read?_point hzero hes (List.cons_ne_nil _ _)
      rw [hk, Nat.add_sub_cancel_left]
      refine ⟨_, hread, ?_⟩
      rw [value, hzeros, hlength, hfraction hneg, value]

theorem mem_positional {d : Decimal} (h : c ∈ d.positional) : c.isDigit = true ∨ c = '.' := by
  have hdigits : ∀ c ∈ digitsOfNat d.digits, c.isDigit = true :=
    List.all_eq_true.1 (all_isDigit_digitsOfNat d.digits)
  have hzero : Char.isDigit '0' = true := by decide
  simp only [positional] at h
  split at h
  · rcases List.mem_append.1 h with h | h
    · exact .inl (hdigits c h)
    · exact .inl ((List.eq_of_mem_replicate h) ▸ hzero)
  · split at h
    · rcases List.mem_append.1 h with h | h
      · exact .inl (hdigits c (List.mem_of_mem_take h))
      · rcases List.mem_cons.1 h with h | h
        · exact .inr h
        · exact .inl (hdigits c (List.mem_of_mem_drop h))
    · simp only [List.cons_append, List.mem_cons, List.mem_append] at h
      rcases h with h | h | h | h
      · exact .inl (h ▸ hzero)
      · exact .inr h
      · exact .inl ((List.eq_of_mem_replicate h) ▸ hzero)
      · exact .inl (hdigits c h)

theorem toFloat_tenths (n : Nat) : toFloat ⟨10 * n, -1⟩ = toFloat ⟨n, 0⟩ := by
  apply toFloat_congr
  simp only [value, zpow_neg_one, zpow_zero]
  push_cast
  ring

/-- What is read from digits is read, as a double, from the digits with a point and a zero, too. -/
theorem read?_append_point_zero {ds : List Char} (h : ds.all Char.isDigit = true)
    (hread : read? ds = some n) :
    ∃ n', read? (ds ++ ['.', '0']) = some n' ∧ n'.toFloat = n.toFloat := by
  have hne : ds ≠ [] := by
    rintro rfl
    cases hread
  rw [read?_digits h hne] at hread
  cases hread
  have hzero : natOfDigits (ds ++ ['0']) = 10 * natOfDigits ds := by simp [natOfDigits]
  refine ⟨_, read?_point h (by decide) hne, ?_⟩
  rw [hzero]
  exact toFloat_tenths _

end Formulae.Decimal
