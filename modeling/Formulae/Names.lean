import Std.Data.ExtTreeMap
import Std.Data.ExtTreeSet

namespace Formulae

/-- A finite set of names. -/
abbrev Names := Std.ExtTreeSet String

/-- At most one value for each name. -/
abbrev Table (α : Type) := Std.ExtTreeMap String α

def Table.names {α : Type} (t : Table α) : Names :=
  Std.ExtTreeSet.ofList t.keys

/-- Entries taken in order, a later one replacing an earlier one of the same name. -/
def Table.ofList {α : Type} (entries : List (String × α)) : Table α :=
  entries.foldl (fun t e => t.insert e.1 e.2) ∅

/-- The names, in order, with the text `between` between each two. -/
def Names.joined (names : Names) (between : String) : String :=
  between.intercalate names.toList

set_option autoImplicit true

variable {names others : Names}

@[simp] theorem mem_insert_iff : x ∈ names.insert y ↔ y = x ∨ x ∈ names := by
  rw [Std.ExtTreeSet.mem_insert, Std.LawfulEqCmp.compare_eq_iff_eq]

@[simp] theorem mem_singleton_iff : x ∈ ({y} : Names) ↔ y = x := by
  change x ∈ (∅ : Names).insert y ↔ _
  rw [mem_insert_iff]
  exact or_iff_left Std.ExtTreeSet.not_mem_empty

@[simp] theorem mem_union_iff : x ∈ names ∪ others ↔ x ∈ names ∨ x ∈ others :=
  Std.ExtTreeSet.mem_union_iff

@[simp] theorem mem_sdiff_iff : x ∈ names \ others ↔ x ∈ names ∧ x ∉ others :=
  Std.ExtTreeSet.mem_diff_iff

@[simp] theorem mem_ofList_iff {xs : List String} :
    x ∈ (Std.ExtTreeSet.ofList xs : Names) ↔ x ∈ xs := by
  rw [Std.ExtTreeSet.mem_ofList, List.contains_iff_mem]

@[simp] theorem mem_filter_iff {p : String → Bool} :
    x ∈ names.filter p ↔ x ∈ names ∧ p x = true := by
  rw [Std.ExtTreeSet.mem_filter]
  constructor
  · rintro ⟨h, hp⟩
    rw [Std.ExtTreeSet.get_eq] at hp
    exact ⟨h, hp⟩
  · rintro ⟨h, hp⟩
    refine ⟨h, ?_⟩
    rwa [Std.ExtTreeSet.get_eq]

theorem all_eq_true_iff {p : String → Bool} : names.all p = true ↔ ∀ x ∈ names, p x = true := by
  have hloop : names.all p = Id.run (do
      for x in names do
        if p x = false then return false
      return true) := by
    obtain ⟨⟨⟨q⟩⟩⟩ := names
    induction q using Quotient.ind with
    | _ t => rfl
  have hlist : names.all p = names.toList.all p := by
    rw [hloop, Std.ExtTreeSet.forIn_eq_forIn_toList]
    induction names.toList with
    | nil => rfl
    | cons x xs ih => cases hx : p x <;> simp_all
  simp [hlist]

theorem any_eq_true_iff {p : String → Bool} : names.any p = true ↔ ∃ x ∈ names, p x = true := by
  have hloop : names.any p = Id.run (do
      for x in names do
        if p x then return true
      return false) := by
    obtain ⟨⟨⟨q⟩⟩⟩ := names
    induction q using Quotient.ind with
    | _ t => rfl
  have hlist : names.any p = names.toList.any p := by
    rw [hloop, Std.ExtTreeSet.forIn_eq_forIn_toList]
    induction names.toList with
    | nil => rfl
    | cons x xs ih => cases hx : p x <;> simp_all
  simp [hlist]

namespace Table

variable {t : Table α}

theorem getElem?_insert : (t.insert x v)[y]? = if x = y then some v else t[y]? := by
  rw [Std.ExtTreeMap.getElem?_insert]
  simp only [Std.LawfulEqCmp.compare_eq_iff_eq]

theorem getD_insert : (t.insert x v).getD y w = if x = y then v else t.getD y w := by
  rw [Std.ExtTreeMap.getD_insert]
  simp only [Std.LawfulEqCmp.compare_eq_iff_eq]

theorem mem_iff_getElem? : x ∈ t ↔ ∃ v, t[x]? = some v := by
  rw [Std.ExtTreeMap.mem_iff_isSome_getElem?, Option.isSome_iff_exists]

/-- An entry is among those that were added, or has been there before. -/
theorem mem_of_getElem?_foldl {entries : List (String × α)}
    (h : (entries.foldl (fun t e => t.insert e.1 e.2) t)[x]? = some v) :
    (x, v) ∈ entries ∨ t[x]? = some v := by
  induction entries generalizing t with
  | nil => exact .inr h
  | cons e entries ih =>
    rcases ih h with h | h
    · exact .inl (List.mem_cons_of_mem e h)
    · rw [getElem?_insert] at h
      split at h
      · next hx =>
        cases h
        exact .inl (hx ▸ List.mem_cons_self)
      · exact .inr h

theorem mem_of_getElem?_ofList {entries : List (String × α)} (h : (ofList entries)[x]? = some v) :
    (x, v) ∈ entries := by
  rcases mem_of_getElem?_foldl h with h | h
  · exact h
  · simp at h

theorem getD_foldl_map (f : String → α) (xs : List String) (t : Table α) (w : α) :
    ((xs.map fun x => (x, f x)).foldl (fun t e => t.insert e.1 e.2) t).getD y w =
      if y ∈ xs then f y else t.getD y w := by
  induction xs generalizing t with
  | nil => rfl
  | cons x xs ih =>
    rw [List.map_cons, List.foldl_cons, ih, getD_insert]
    grind

theorem getD_ofList_map (f : String → α) (xs : List String) (w : α) :
    (ofList (xs.map fun x => (x, f x))).getD y w = if y ∈ xs then f y else w := by
  rw [ofList, getD_foldl_map, Std.ExtTreeMap.getD_empty]

end Table

end Formulae
