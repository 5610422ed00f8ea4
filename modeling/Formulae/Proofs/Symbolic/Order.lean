import Formulae.Symbolic.Basic
import Mathlib.Data.List.Sort

namespace Formulae.Symbolic
set_option autoImplicit true

namespace Keyed

def key (a : Keyed) : Nat × String := (a.rank, a.text)

theorem ordered_iff {a b : Keyed} :
    ordered a b = true ↔ a.rank < b.rank ∨ a.rank = b.rank ∧ a.text ≤ b.text := by
  simp [ordered]

theorem ordered_total (a b : Keyed) : ordered a b = true ∨ ordered b a = true := by
  rw [ordered_iff, ordered_iff]
  rcases Nat.lt_trichotomy a.rank b.rank with h | h | h
  · exact .inl (.inl h)
  · exact (String.le_total a.text b.text).imp (fun ht => .inr ⟨h, ht⟩) fun ht => .inr ⟨h.symm, ht⟩
  · exact .inr (.inl h)

theorem ordered_trans {a b c : Keyed} (hab : ordered a b = true) (hbc : ordered b c = true) :
    ordered a c = true := by
  rw [ordered_iff] at hab hbc ⊢
  rcases hab with hab | ⟨hab, htab⟩
  · rcases hbc with hbc | ⟨hbc, -⟩
    · exact .inl (Nat.lt_trans hab hbc)
    · exact .inl (hbc ▸ hab)
  · rcases hbc with hbc | ⟨hbc, htbc⟩
    · exact .inl (hab ▸ hbc)
    · exact .inr ⟨hab.trans hbc, String.le_trans htab htbc⟩

theorem key_eq_of_ordered {a b : Keyed} (hab : ordered a b = true) (hba : ordered b a = true) :
    a.key = b.key := by
  rw [ordered_iff] at hab hba
  rcases hab with hab | ⟨hab, htab⟩
  · rcases hba with hba | ⟨hba, -⟩ <;> omega
  · rcases hba with hba | ⟨-, htba⟩
    · omega
    · exact Prod.ext hab (String.le_antisymm htab htba)

theorem insert_eq_orderedInsert (a : Keyed) (bs : List Keyed) :
    insert a bs = bs.orderedInsert (ordered · ·) a := by
  induction bs with
  | nil => rfl
  | cons b bs ih => rw [insert, List.orderedInsert_cons, ih]

instance : Std.Total fun a b : Keyed => ordered a b = true := ⟨ordered_total⟩

instance : IsTrans Keyed fun a b => ordered a b = true := ⟨fun _ _ _ => ordered_trans⟩

theorem foldr_insert (as : List Keyed) :
    as.foldr insert [] = as.insertionSort (ordered · ·) := by
  induction as with
  | nil => rfl
  | cons a as ih => rw [List.foldr_cons, ih, insert_eq_orderedInsert, List.insertionSort_cons]

end Keyed

/-- What a tree is ordered by. -/
def key (x : Symbolic) : Nat × String := (x.rank, x.constructorText)

/-- Each operand may stand before those behind it. -/
def Ordered (xs : List Symbolic) : Prop :=
  xs.Pairwise fun x y => Keyed.ordered (.ofTree x) (.ofTree y) = true

theorem map_ofTree_sorted (xs : List Symbolic) :
    (sorted xs).map Keyed.ofTree = (xs.map Keyed.ofTree).insertionSort (Keyed.ordered · ·) := by
  rw [sorted, Keyed.foldr_insert, List.map_map]
  refine (List.map_congr_left fun a ha => ?_).trans (List.map_id _)
  obtain ⟨x, -, rfl⟩ := List.mem_map.1 ((List.perm_insertionSort _ _).mem_iff.1 ha)
  rfl

theorem map_tree_ofTree (xs : List Symbolic) : (xs.map Keyed.ofTree).map Keyed.tree = xs := by
  rw [List.map_map]
  exact List.map_id _

theorem sorted_perm (xs : List Symbolic) : (sorted xs).Perm xs := by
  have hperm := (List.perm_insertionSort (Keyed.ordered · ·) (xs.map Keyed.ofTree)).map Keyed.tree
  rwa [← map_ofTree_sorted, map_tree_ofTree, map_tree_ofTree] at hperm

theorem sorted_ordered (xs : List Symbolic) : Ordered (sorted xs) := by
  have hsorted := List.pairwise_insertionSort (Keyed.ordered · ·) (xs.map Keyed.ofTree)
  rwa [← map_ofTree_sorted, List.pairwise_map] at hsorted

/-- The operands of an ordered list are sorted into this list, if they are told apart. -/
theorem sorted_of_perm {xs ys : List Symbolic} (hperm : ys.Perm xs) (h : Ordered xs)
    (hkeys : (xs.map key).Nodup) : sorted ys = xs := by
  refine ((sorted_perm ys).trans hperm).eq_of_pairwise ?_ (sorted_ordered ys) h
  intro x y hx hy hxy hyx
  have hx := (sorted_perm ys).trans hperm |>.mem_iff.1 hx
  exact List.inj_on_of_nodup_map hkeys hx hy (Keyed.key_eq_of_ordered hxy hyx)

end Formulae.Symbolic
