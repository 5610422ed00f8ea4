namespace Formulae.Outcome
set_option autoImplicit true

@[simp] theorem ok_bind (a : α) (f : α → Except ε β) : (Except.ok a >>= f) = f a := rfl

@[simp] theorem error_bind (e : ε) (f : α → Except ε β) :
    (Except.error e >>= f) = .error e := rfl

@[simp] theorem map_ok (f : α → β) (a : α) : (f <$> Except.ok a : Except ε β) = .ok (f a) := rfl

@[simp] theorem ok_map (f : α → β) (a : α) : (Except.ok a : Except ε α).map f = .ok (f a) := rfl

@[simp] theorem pure_eq_ok (a : α) : (pure a : Except ε α) = .ok a := rfl

theorem bind_eq_ok {x : Except ε α} {f : α → Except ε β} {b : β} :
    (x >>= f) = .ok b ↔ ∃ a, x = .ok a ∧ f a = .ok b := by
  cases x with
  | ok a => simp
  | error e => simp

theorem bind_eq_error {x : Except ε α} {f : α → Except ε β} {e : ε} :
    (x >>= f) = .error e ↔ x = .error e ∨ ∃ a, x = .ok a ∧ f a = .error e := by
  cases x with
  | ok a => simp
  | error e' => simp

theorem map_eq_ok {x : Except ε α} {f : α → β} {b : β} :
    x.map f = .ok b ↔ ∃ a, x = .ok a ∧ f a = b := by
  cases x <;> simp [Except.map]

theorem toOption_eq_some {x : Except ε α} : x.toOption = some a ↔ x = .ok a := by
  cases x <;> simp [Except.toOption]

/-- Where the first succeeds, the second does, with the same value. -/
def Refines (x y : Except ε α) : Prop := ∀ a, x = .ok a → y = .ok a

theorem Refines.refl (x : Except ε α) : Refines x x := fun _ h => h

theorem refines_error (e : ε) (y : Except ε α) : Refines (.error e) y := fun _ h => nomatch h

theorem Refines.bind {x y : Except ε α} {f g : α → Except ε β} (hx : Refines x y)
    (hf : ∀ a, Refines (f a) (g a)) : Refines (x >>= f) (y >>= g) := by
  intro b hb
  obtain ⟨a, ha, hb⟩ := bind_eq_ok.1 hb
  rw [hx a ha]
  exact hf a b hb

/-- The first has the outcome of the second, unless it fails in one of the ways `P`. -/
def Follows (P : ε → Prop) (x y : Except ε α) : Prop := x = y ∨ ∃ e, P e ∧ x = .error e

theorem Follows.refl (x : Except ε α) : Follows P x x := .inl rfl

theorem Follows.bind {x y : Except ε α} {f g : α → Except ε β} (hx : Follows P x y)
    (hf : ∀ a, Follows P (f a) (g a)) : Follows P (x >>= f) (y >>= g) := by
  rcases hx with rfl | ⟨e, he, rfl⟩
  · cases x with
    | ok a => exact hf a
    | error e => exact .refl _
  · exact .inr ⟨e, he, rfl⟩

/-- If it may fail in every way, then it is bound to the outcome only where it succeeds. -/
theorem follows_any {x y : Except ε α} : Follows (fun _ => True) x y ↔ Refines x y := by
  constructor
  · rintro (rfl | ⟨e, -, rfl⟩)
    · exact .refl _
    · exact refines_error _ _
  · intro h
    cases x with
    | ok a => exact .inl (h a rfl).symm
    | error e => exact .inr ⟨e, trivial, rfl⟩

theorem Follows.eq {x y : Except ε α} (h : Follows (fun _ => False) x y) : x = y :=
  h.resolve_right fun ⟨_, he, _⟩ => he

/-- All ways to fail are of a kind. -/
def FailsOnly (P : ε → Prop) (x : Except ε α) : Prop := ∀ e, x = .error e → P e

theorem FailsOnly.ok {P : ε → Prop} (a : α) : FailsOnly P (.ok a) := fun _ h => nomatch h

theorem FailsOnly.error {P : ε → Prop} (h : P e) : FailsOnly P (.error e : Except ε α) := by
  rintro _ ⟨⟩
  exact h

theorem FailsOnly.bind {x : Except ε α} {f : α → Except ε β} (hx : FailsOnly P x)
    (hf : ∀ a, FailsOnly P (f a)) : FailsOnly P (x >>= f) := by
  cases x with
  | ok a => exact hf a
  | error e => exact .error (hx e rfl)

end Formulae.Outcome
