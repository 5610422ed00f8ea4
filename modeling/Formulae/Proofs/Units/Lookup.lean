import Formulae.Names
import Formulae.Units.Context
import Mathlib.Data.List.Basic

namespace Formulae.Units
set_option autoImplicit true

/-- The name is that of a scale, long or short, and behind it a rest that is not empty. -/
def Prefixed (scale : String × String) (name rest : String) : Prop :=
  rest ≠ "" ∧ (name = scale.1 ++ rest ∨ name = scale.2 ++ rest)

/-- The name begins with the long name of the scale, but the rest is not what is behind it. -/
def Hides (scale : String × String) (name rest : String) : Prop :=
  scale.1.toList <+: name.toList ∧ name ≠ scale.1 ++ rest

theorem afterScale_eq_some_iff : afterScale name scale = some rest ↔
    name = scale.1 ++ rest ∨ ¬scale.1.toList <+: name.toList ∧ name = scale.2 ++ rest := by
  have hrest (cs : List Char) : String.ofList cs = rest ↔ cs = rest.toList := by
    rw [← String.toList_inj, String.toList_ofList]
  have happend (start : String) :
      start.toList ++ rest.toList = name.toList ↔ name = start ++ rest := by
    rw [← String.toList_append, String.toList_inj, eq_comm]
  have hnone : scale.1.toList.isPrefixOf? name.toList = none ↔
      ¬scale.1.toList <+: name.toList := by
    rw [← List.isPrefixOf_iff_prefix, ← List.isSome_isPrefixOf?_eq_isPrefixOf, Bool.not_eq_true,
      Option.isSome_eq_false_iff, Option.isNone_iff_eq_none]
  simp only [afterScale, Option.map_eq_some_iff, hrest, exists_eq_right, Option.or_eq_some_iff,
    List.isPrefixOf?_eq_some_iff_append_eq, hnone, happend]

/-- What is behind a scale is the same as a rest that the scale does not hide. -/
theorem afterScale_iff_prefixed : afterScale name scale = some rest ∧ rest ≠ "" ↔
    Prefixed scale name rest ∧ ¬Hides scale name rest := by
  rw [afterScale_eq_some_iff, Prefixed, Hides]
  constructor
  · rintro ⟨hlong | ⟨hopen, hshort⟩, hrest⟩
    · exact ⟨⟨hrest, .inl hlong⟩, fun h => h.2 hlong⟩
    · exact ⟨⟨hrest, .inr hshort⟩, fun h => hopen h.1⟩
  · rintro ⟨⟨hrest, hname⟩, hopen⟩
    refine ⟨?_, hrest⟩
    by_cases hlong : name = scale.1 ++ rest
    · exact .inl hlong
    · exact .inr ⟨fun h => hopen ⟨h, hlong⟩, hname.resolve_left hlong⟩

variable {units : Units}

theorem scaled?_eq_some_iff : units.scaled? name scale = some d ↔
    ∃ rest, Prefixed scale name rest ∧ ¬Hides scale name rest ∧ units[rest]? = some d := by
  simp only [← and_assoc, ← afterScale_iff_prefixed]
  unfold scaled?
  cases afterScale name scale with
  | none => simp
  | some rest => simp [ite_eq_iff, and_comm]

theorem find?_of_reserved (h : name ∈ dimensionlessNames) :
    units.find? name = some .dimensionless := by
  rw [find?, if_pos (List.contains_iff_mem.2 h)]

theorem find?_of_not_reserved (h : name ∉ dimensionlessNames) :
    units.find? name = units[name]?.or (scales.findSome? (units.scaled? name)) := by
  rw [find?, if_neg (mt List.contains_iff_mem.1 h)]

theorem find?_of_getElem? (h : name ∉ dimensionlessNames) (hd : units[name]? = some d) :
    units.find? name = some d := by
  rw [find?_of_not_reserved h, hd, Option.some_or]

/-- A name that is not a unit's is looked up behind the scales only. -/
theorem find?_of_not_mem (h : name ∉ dimensionlessNames) (hname : name ∉ units) :
    units.find? name = scales.findSome? (units.scaled? name) := by
  rw [find?_of_not_reserved h, Std.ExtTreeMap.getElem?_eq_none hname, Option.none_or]

/-- What is found of a name that is not a unit's is the dimension of a rest behind a scale. -/
theorem exists_rest_of_find? (hd : units.find? name = some d) (h : name ∉ dimensionlessNames)
    (hname : name ∉ units) :
    ∃ scale ∈ scales, ∃ rest, units[rest]? = some d ∧ Prefixed scale name rest ∧
      ¬Hides scale name rest := by
  rw [find?_of_not_mem h hname] at hd
  obtain ⟨scale, hscale, hd⟩ := List.exists_of_findSome?_eq_some hd
  obtain ⟨rest, hprefixed, hopen, hrest⟩ := scaled?_eq_some_iff.1 hd
  exact ⟨scale, hscale, rest, hrest, hprefixed, hopen⟩

/-- Some unit is found behind a scale, though perhaps behind one that comes before this. -/
theorem exists_of_prefixed (hscale : scale ∈ scales) (hrest : rest ∈ units)
    (hprefixed : Prefixed scale name rest) (hopen : ¬Hides scale name rest) :
    ∃ d, scales.findSome? (units.scaled? name) = some d := by
  obtain ⟨d, hd⟩ := Table.mem_iff_getElem?.1 hrest
  have hscaled : units.scaled? name scale = some d :=
    scaled?_eq_some_iff.2 ⟨rest, hprefixed, hopen, hd⟩
  rw [← Option.isSome_iff_exists, List.findSome?_isSome_iff]
  exact ⟨scale, hscale, Option.isSome_of_eq_some hscaled⟩

/-- A unit is found exactly under the reserved names, the names in the table, and those in which a
scale is before a name in the table and does not hide it. A name that is not in the table has the
dimension of such a rest. -/
theorem unit_found_iff (units : Units) (name : String) :
    ((∃ d, units.find? name = some d) ↔ name ∈ dimensionlessNames ∨ name ∈ units ∨
      ∃ scale ∈ scales, ∃ rest ∈ units, Prefixed scale name rest ∧ ¬Hides scale name rest) ∧
    ∀ d, units.find? name = some d → name ∉ dimensionlessNames → name ∉ units →
      ∃ scale ∈ scales, ∃ rest, units[rest]? = some d ∧ Prefixed scale name rest ∧
        ¬Hides scale name rest := by
  refine ⟨?_, fun d => exists_rest_of_find?⟩
  by_cases hreserved : name ∈ dimensionlessNames
  · exact iff_of_true ⟨_, find?_of_reserved hreserved⟩ (.inl hreserved)
  by_cases hname : name ∈ units
  · obtain ⟨d, hd⟩ := Table.mem_iff_getElem?.1 hname
    exact iff_of_true ⟨d, find?_of_getElem? hreserved hd⟩ (.inr (.inl hname))
  rw [or_iff_right hreserved, or_iff_right hname]
  constructor
  · rintro ⟨d, hd⟩
    obtain ⟨scale, hscale, rest, hrest, hparts⟩ := exists_rest_of_find? hd hreserved hname
    exact ⟨scale, hscale, rest, Table.mem_iff_getElem?.2 ⟨d, hrest⟩, hparts⟩
  · rintro ⟨scale, hscale, rest, hrest, hprefixed, hopen⟩
    rw [find?_of_not_mem hreserved hname]
    exact exists_of_prefixed hscale hrest hprefixed hopen

/-- A unit that is spelled behind the short name of a scale is not found if the name begins with
the long one and what is behind that is no unit. -/
theorem long_name_hides_unit :
    ("milli", "m") ∈ scales ∧ Prefixed ("milli", "m") "milliwidget" "illiwidget" ∧
      "illiwidget" ∈ si.insert "illiwidget" .mole ∧
      find? (si.insert "illiwidget" .mole) "milliwidget" = none := by
  refine ⟨by decide, ⟨by decide, .inr (by decide)⟩, Std.ExtTreeMap.mem_insert_self, ?_⟩
  exact Option.isNone_iff_eq_none.1 (by decide +kernel)

end Formulae.Units
