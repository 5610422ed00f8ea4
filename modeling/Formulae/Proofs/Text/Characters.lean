import Formulae.Text.Character

namespace Formulae.Text
set_option autoImplicit true

instance (priority := high) decidableAllOfList {p : Char → Prop} [DecidablePred p]
    (cs : List Char) : Decidable (∀ c ∈ cs, p c) :=
  decidable_of_iff (cs.all fun c => decide (p c)) (by simp)

instance (priority := high) decidableAllOfOption {p : Char → Prop} [DecidablePred p]
    (o : Option Char) : Decidable (∀ c ∈ o, p c) :=
  decidable_of_iff (o.all fun c => decide (p c)) (by cases o <;> simp)

theorem mem_of_inRanges {rs : List Range} (h : inRanges rs c = true) :
    c.toNat ∈ rs.flatMap fun r => List.range' r.1 (r.2 + 1 - r.1) := by
  simp only [inRanges, List.any_eq_true, Bool.and_eq_true, decide_eq_true_eq] at h
  obtain ⟨r, hr, hlo, hhi⟩ := h
  exact List.mem_flatMap.2 ⟨r, hr, List.mem_range'_1.2 ⟨hlo, by omega⟩⟩

theorem not_whiteSpace_of_start (h : isIdentStart c = true) : isWhiteSpace c = false := by
  have hall : ∀ n ∈ whiteSpaceRanges.flatMap (fun r => List.range' r.1 (r.2 + 1 - r.1)),
      isIdentStart (.ofNat n) = false := by
    decide +kernel
  apply Bool.eq_false_iff.2
  intro hw
  have hc := hall c.toNat (mem_of_inRanges hw)
  rw [Char.ofNat_toNat, h] at hc
  cases hc

/-- What comes before and behind the first place of a character is determined. -/
theorem append_cons_inj {xs ys : List α} (hx : a ∉ xs) (hy : a ∉ ys)
    (h : xs ++ a :: zs = ys ++ a :: ws) : xs = ys ∧ zs = ws := by
  induction xs generalizing ys with
  | nil =>
    cases ys with
    | nil => exact ⟨rfl, (List.cons.inj h).2⟩
    | cons y ys => exact absurd (List.cons.inj h).1 (List.ne_of_not_mem_cons hy)
  | cons x xs ih =>
    cases ys with
    | nil => exact absurd (List.cons.inj h).1.symm (List.ne_of_not_mem_cons hx)
    | cons y ys =>
      obtain ⟨hhead, htail⟩ := List.cons.inj h
      obtain ⟨hxs, hzs⟩ :=
        ih (List.not_mem_of_not_mem_cons hx) (List.not_mem_of_not_mem_cons hy) htail
      exact ⟨by rw [hhead, hxs], hzs⟩

/-- What comes before the last place of a character is determined if it is the only one. -/
theorem append_singleton_inj {xs ys : List α} (hx : a ∉ xs) (h : xs ++ [a] = ys ++ a :: zs) :
    xs = ys ∧ zs = [] := by
  rcases zs.eq_nil_or_concat with rfl | ⟨ws, z, rfl⟩
  · exact ⟨(List.append_inj' h rfl).1, rfl⟩
  · rw [List.concat_eq_append, ← List.cons_append, ← List.append_assoc] at h
    have hxs := (List.append_inj' h rfl).1
    exact absurd (by simp [hxs]) hx

end Formulae.Text
