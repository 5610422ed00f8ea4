import Formulae.Number.Basic
import Formulae.Proofs.Token.Lexing

namespace Formulae.Token
open Text
set_option autoImplicit true

def Digits (cs : List Char) : Prop :=
  ∀ c ∈ cs, c.isDigit = true

/-- Digits with at most one point, and not the point alone. -/
inductive Mantissa : List Char → Prop
  | whole : Digits ds → ds ≠ [] → Mantissa ds
  | point : Digits ds → Digits es → ds ≠ [] ∨ es ≠ [] → Mantissa (ds ++ '.' :: es)

/-- A power of ten, or nothing. -/
inductive Power : List Char → Prop
  | none : Power []
  | some : c = 'e' ∨ c = 'E' → sign = [] ∨ sign = ['+'] ∨ sign = ['-'] → Digits ds → ds ≠ [] →
      Power (c :: sign ++ ds)

theorem Digits.head (h : Digits (d :: ds)) : d.isDigit = true :=
  h d List.mem_cons_self

theorem Digits.takeWhile (cs : List Char) : Digits (cs.takeWhile Char.isDigit) :=
  fun c hc => List.all_eq_true.1 List.all_takeWhile c hc

theorem Digits.read (h : Digits ds) (hrest : ∀ c ∈ rest.head?, isDecimalDigit c = false) :
    digits (ds ++ rest) = ds :=
  takeWhile_append_stop (fun c hc => isDecimalDigit_of_isDigit (h c hc)) hrest

/-- Neither a digit nor a point follows. -/
def EndsMantissa (rest : List Char) : Prop :=
  ∀ c ∈ rest.head?, isDecimalDigit c = false ∧ c ≠ '.'

theorem Mantissa.read (h : Mantissa m) (hrest : EndsMantissa rest) :
    mantissa (m ++ rest) = m := by
  have hpoint : isDecimalDigit '.' = false := by decide
  cases h with
  | whole hds hne =>
    obtain ⟨d, ds, rfl⟩ := List.exists_cons_of_ne_nil hne
    simp only [mantissa, hds.read fun c hc => (hrest c hc).1, List.drop_left]
    split
    · next h => exact absurd rfl (hrest '.' rfl).2
    · rfl
  | @point ds es hds hes hne =>
    rw [List.append_assoc, List.cons_append]
    have hread : digits (ds ++ '.' :: (es ++ rest)) = ds :=
      hds.read fun c hc => by cases hc; exact hpoint
    have hfraction := hes.read fun c hc => (hrest c hc).1
    cases ds with
    | nil =>
      rw [List.nil_append] at hread
      simp only [List.nil_append, mantissa, hread, List.drop_succ_cons, List.drop_zero, hfraction]
    | cons d ds =>
      simp only [mantissa, hread, List.drop_left, hfraction]

theorem Power.read (h : Power p)
    (hrest : ∀ c ∈ rest.head?, isDecimalDigit c = false ∧ c ≠ 'e' ∧ c ≠ 'E') :
    power (p ++ rest) = p := by
  cases h with
  | none =>
    cases rest with
    | nil => rfl
    | cons c rest =>
      obtain ⟨-, he, hE⟩ := hrest c rfl
      simp [power, he, hE]
  | @some c sign ds hc hs hds hne =>
    obtain ⟨d, ds, rfl⟩ := List.exists_cons_of_ne_nil hne
    have hread := hds.read fun c hc => (hrest c hc).1
    have hplus : d ≠ '+' := by
      rintro rfl
      exact absurd hds.head (by decide)
    have hminus : d ≠ '-' := by
      rintro rfl
      exact absurd hds.head (by decide)
    have hletter : (c == 'e' || c == 'E') = true := by
      rcases hc with rfl | rfl <;> rfl
    rw [List.cons_append] at hread
    rcases hs with rfl | rfl | rfl <;> simp [power, hletter, hread, hplus, hminus]

theorem literal_append (hm : Mantissa m) (hp : Power p) (hrest : Delimited rest) :
    literal (m ++ (p ++ rest)) = m ++ p := by
  have hdelim : ∀ c ∈ delimiters,
      isDecimalDigit c = false ∧ c ≠ '.' ∧ c ≠ 'e' ∧ c ≠ 'E' := by
    decide
  have hends : EndsMantissa (p ++ rest) := by
    cases hp with
    | none => exact fun c hc => ⟨(hdelim c (hrest c hc)).1, (hdelim c (hrest c hc)).2.1⟩
    | some hc =>
      rintro x hx
      cases hx
      rcases hc with rfl | rfl <;> decide
  have hpower := hp.read fun c hc => ⟨(hdelim c (hrest c hc)).1, (hdelim c (hrest c hc)).2.2⟩
  simp only [literal, hm.read hends, List.drop_left, hpower]

def numeralChars : List Char :=
  "0123456789.eE+-".toList

theorem Digits.mem_numeralChars (h : Digits ds) (hc : c ∈ ds) : c ∈ numeralChars :=
  List.mem_append_left ".eE+-".toList (mem_digits_of_isDigit (h c hc))

theorem mem_numeralChars (hm : Mantissa m) (hp : Power p) (hc : c ∈ m ++ p) :
    c ∈ numeralChars := by
  rcases List.mem_append.1 hc with hc | hc
  · cases hm with
    | whole hds _ => exact hds.mem_numeralChars hc
    | point hds hes _ =>
      rcases List.mem_append.1 hc with hc | hc
      · exact hds.mem_numeralChars hc
      · rcases List.mem_cons.1 hc with rfl | hc
        · decide +kernel
        · exact hes.mem_numeralChars hc
  · cases hp with
    | none => cases hc
    | some hletter hs hds _ =>
      rcases List.mem_append.1 hc with hc | hc
      · rcases List.mem_cons.1 hc with rfl | hc
        · rcases hletter with rfl | rfl <;> decide +kernel
        · rcases hs with rfl | rfl | rfl
          · cases hc
          · rw [List.mem_singleton.1 hc]
            decide +kernel
          · rw [List.mem_singleton.1 hc]
            decide +kernel
      · exact hds.mem_numeralChars hc

theorem byteCount_numeral (hm : Mantissa m) (hp : Power p) :
    byteCount (m ++ p) = (m ++ p).length := by
  have hsize : ∀ c ∈ numeralChars, c.utf8Size = 1 := by decide +kernel
  have hall : ∀ c ∈ m ++ p, c.utf8Size = 1 := fun c hc => hsize c (mem_numeralChars hm hp hc)
  generalize m ++ p = cs at hall
  induction cs with
  | nil => rfl
  | cons c cs ih =>
    rw [List.forall_mem_cons] at hall
    rw [byteCount_cons, hall.1, ih hall.2, List.length_cons, Nat.add_comm]

theorem Mantissa.startsNumber (h : Mantissa m) (rest : List Char) :
    ∃ c cs, m = c :: cs ∧ (c = '.' ∨ c.isDigit = true) ∧
      Token.startsNumber (c :: (cs ++ rest)) = true := by
  have hdigit {d : Char} {ds : List Char} (h : d.isDigit = true) :
      Token.startsNumber (d :: ds) = true := by
    have hne : d ≠ '.' := by
      rintro rfl
      exact absurd h (by decide)
    rw [startsNumber_cons hne, h]
  cases h with
  | whole hds hne =>
    obtain ⟨d, ds, rfl⟩ := List.exists_cons_of_ne_nil hne
    exact ⟨d, ds, rfl, .inr hds.head, hdigit hds.head⟩
  | @point ds es hds hes hne =>
    cases ds with
    | nil =>
      obtain ⟨e, es, rfl⟩ := List.exists_cons_of_ne_nil (hne.resolve_left (by simp))
      exact ⟨'.', e :: es, rfl, .inl rfl, hes.head⟩
    | cons d ds => exact ⟨d, ds ++ '.' :: es, rfl, .inr hds.head, hdigit hds.head⟩

theorem Lexes.number (h : Lexes d cs ts) (hm : Mantissa m) (hp : Power p) (hcs : Delimited cs) :
    Lexes d (m ++ p ++ cs) (.number (.ofList (m ++ p)) :: ts) := by
  have hread := literal_append hm hp hcs
  have hbytes := byteCount_numeral hm hp
  obtain ⟨c, xs, rfl, hc, hstart⟩ := hm.startsNumber (p ++ cs)
  have hne : ∀ x ∈ '#' :: symbolChars, c ≠ x := by
    have hall : ∀ x ∈ '#' :: symbolChars, x ≠ '.' ∧ x.isDigit = false := by decide +kernel
    rintro x hx rfl
    rcases hc with rfl | hc
    · exact absurd rfl (hall '.' hx).1
    · rw [(hall c hx).2] at hc
      cases hc
  have hsym : symbol? d (c :: (xs ++ (p ++ cs))) = none :=
    symbol?_eq_none fun hmem => hne c (List.mem_cons_of_mem _ hmem) rfl
  rw [List.cons_append] at hread hbytes ⊢
  apply h.token
  intro pos
  refine ⟨pos + byteCount (c :: (xs ++ p)), ?_⟩
  rw [List.append_assoc]
  simp [scan, hsym, hstart, hread, hbytes, hne '!' (by decide +kernel), hne '#' (by decide +kernel)]

theorem digits_of_readNat? (h : Decimal.readNat? ds = some n) : Digits ds ∧ ds ≠ [] := by
  simp only [Decimal.readNat?, Option.ite_none_right_eq_some, ne_eq] at h
  exact ⟨fun c hc => List.all_eq_true.1 h.1.2 c hc, h.1.1⟩

theorem power_of_readExponent? (h : Decimal.readExponent? cs = some n) : Power cs := by
  unfold Decimal.readExponent? at h
  split at h
  · exact .none
  · next c cs =>
    split at h
    · next hc =>
      have hc' : c = 'e' ∨ c = 'E' := by simpa using hc
      split at h <;> obtain ⟨k, hk, -⟩ := Option.map_eq_some_iff.1 h <;>
        obtain ⟨hds, hne⟩ := digits_of_readNat? hk
      · exact .some hc' (.inr (.inr rfl)) hds hne
      · exact .some hc' (.inr (.inl rfl)) hds hne
      · exact .some hc' (.inl rfl) hds hne
    · cases h

/-- A decimal is read from nothing but a numeral. -/
theorem numeral_of_read? (h : Decimal.read? cs = some n) :
    ∃ m p, cs = m ++ p ∧ Mantissa m ∧ Power p := by
  have hcs : cs.takeWhile Char.isDigit ++ cs.dropWhile Char.isDigit = cs :=
    List.takeWhile_append_dropWhile
  have hwhole := Digits.takeWhile cs
  simp only [Decimal.read?] at h
  split at h
  · next ds hrest =>
    split_ifs at h with hne
    obtain ⟨e, he, -⟩ := Option.map_eq_some_iff.1 h
    refine ⟨_, _, ?_, .point hwhole (.takeWhile ds) (not_and_or.1 hne), power_of_readExponent? he⟩
    rw [List.append_assoc, List.cons_append, List.takeWhile_append_dropWhile, ← hrest, hcs]
  · split_ifs at h with hne
    obtain ⟨e, he, -⟩ := Option.map_eq_some_iff.1 h
    exact ⟨_, _, hcs.symm, .whole hwhole (by simpa using hne), power_of_readExponent? he⟩

end Formulae.Token
