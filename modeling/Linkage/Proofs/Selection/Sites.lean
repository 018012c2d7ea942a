import Linkage.Selection.Live
import Mathlib.Data.List.Nodup
import Mathlib.Data.List.Perm.Subperm

/-!
# Sites of a program

What stands at each place of a program: a declaration and the import path that scopes its filters. The sites of a
program in link order have distinct places, one for each declaration.
-/
namespace Linkage

namespace Place

/-- The place comes first in the order of the program. -/
def Before (a b : Place) : Prop := a.package < b.package ∨ a.package = b.package ∧ a.index < b.index

theorem Before.ne {a b : Place} (before : a.Before b) : a ≠ b := by
  rintro rfl
  rcases before with earlier | ⟨-, earlier⟩ <;> exact Nat.lt_irrefl _ earlier

end Place

/-- A declaration together with the import path of its package. -/
structure Site where
  importPath : String
  declaration : Declaration

namespace Site

/-- Each filter of the declaration behind the import path and a dot. -/
def keys (s : Site) : List String :=
  (s.declaration.objectFilter.map fun filter => s.importPath ++ "." ++ filter).toList ++
    (s.declaration.methodFilter.map fun filter => s.importPath ++ "." ++ filter).toList

/-- These are the keys that elimination looks up. -/
theorem keys_eq (s : Site) : s.keys = s.declaration.keys s.importPath := rfl

/-- Roots are the declarations that wait for nothing. -/
theorem keys_eq_nil_iff (s : Site) : s.keys = [] ↔ s.declaration.isRoot = true := by
  simp [keys, Declaration.isRoot]

end Site

def site? (pkgs : List Archive) (place : Place) : Option Site := do
  let pkg ← pkgs[place.package]?
  let d ← pkg.declarations[place.index]?
  return ⟨pkg.importPath, d⟩

theorem declaration?_eq_map (pkgs : List Archive) (place : Place) :
    declaration? pkgs place = (site? pkgs place).map (·.declaration) := by
  cases found : pkgs[place.package]? with
  | none => simp [declaration?, site?, found]
  | some pkg => cases inner : pkg.declarations[place.index]? <;> simp [declaration?, site?, found, inner]

theorem isSome_declaration? (pkgs : List Archive) (place : Place) :
    (declaration? pkgs place).isSome = (site? pkgs place).isSome := by
  simp [declaration?_eq_map]

def Lists (pkgs : List Archive) (user : Place) (key : String) : Prop :=
  ∃ s, site? pkgs user = some s ∧ key ∈ s.declaration.deps

def sites (pkgs : List Archive) : List (Place × Site) :=
  pkgs.zipIdx.flatMap fun (pkg, p) =>
    pkg.declarations.zipIdx.map fun (d, i) => (⟨p, i⟩, ⟨pkg.importPath, d⟩)

/-- The sites are a listing of the function `site?`. -/
theorem mem_sites {pkgs : List Archive} {place : Place} {s : Site} :
    (place, s) ∈ sites pkgs ↔ site? pkgs place = some s := by
  obtain ⟨p, i⟩ := place
  obtain ⟨path, d⟩ := s
  simp only [sites, site?, List.mem_flatMap, List.mem_map, Prod.exists, List.mem_zipIdx_iff_getElem?,
    Prod.mk.injEq, Place.mk.injEq, Site.mk.injEq, Option.bind_eq_bind, Option.bind_eq_some_iff,
    Option.pure_def, Option.some.injEq]
  constructor
  · rintro ⟨pkg, p, found, d, i, inner, ⟨rfl, rfl⟩, rfl, rfl⟩
    exact ⟨pkg, found, d, inner, rfl, rfl⟩
  · rintro ⟨pkg, found, d, inner, rfl, rfl⟩
    exact ⟨pkg, p, found, d, i, inner, ⟨rfl, rfl⟩, rfl, rfl⟩

theorem zipIdx_ascending {α : Type} (l : List α) : l.zipIdx.Pairwise (·.2 < ·.2) := by
  refine List.pairwise_map.mp ?_
  rw [List.zipIdx_map_snd]
  exact List.pairwise_lt_range'

/-- Places are listed in the order of their sites. -/
theorem places_eq_map_sites (pkgs : List Archive) : places pkgs = (sites pkgs).map (·.1) := by
  simp only [places, sites, List.map_flatMap, List.map_map]
  congr 1
  funext ⟨pkg, p⟩
  change (List.range pkg.declarations.length).map (Place.mk p) =
    pkg.declarations.zipIdx.map (Place.mk p ∘ Prod.snd)
  rw [← List.map_map, List.zipIdx_map_snd, List.range_eq_range']

theorem mem_places {pkgs : List Archive} {place : Place} :
    place ∈ places pkgs ↔ (site? pkgs place).isSome = true := by
  rw [places_eq_map_sites, List.mem_map, Option.isSome_iff_exists]
  constructor
  · rintro ⟨⟨place, s⟩, member, rfl⟩
    exact ⟨s, mem_sites.mp member⟩
  · rintro ⟨s, found⟩
    exact ⟨(place, s), mem_sites.mpr found, rfl⟩

/-- A program has as many places as declarations. -/
theorem length_places (pkgs : List Archive) : (places pkgs).length = declarationCount pkgs := by
  have count (first : Nat) : ((pkgs.zipIdx first).flatMap fun (pkg, p) =>
      (List.range pkg.declarations.length).map (Place.mk p ·)).length = declarationCount pkgs := by
    induction pkgs generalizing first with
    | nil => rfl
    | cons pkg rest ih =>
      rw [List.zipIdx_cons, List.flatMap_cons, List.length_append, ih, List.length_map, List.length_range]
      rfl
  exact count 0

theorem places_ascending (pkgs : List Archive) : (places pkgs).Pairwise Place.Before := by
  refine List.pairwise_flatMap.mpr ⟨?_, (zipIdx_ascending pkgs).imp ?_⟩
  · rintro ⟨pkg, p⟩ _
    exact List.pairwise_map.mpr (List.pairwise_lt_range.imp fun earlier => .inr ⟨rfl, earlier⟩)
  · rintro ⟨pkg, p⟩ ⟨pkg', q⟩ earlier place here place' there
    obtain ⟨i, _, rfl⟩ := List.mem_map.mp here
    obtain ⟨j, _, rfl⟩ := List.mem_map.mp there
    exact .inl earlier

theorem places_nodup (pkgs : List Archive) : (places pkgs).Nodup := (places_ascending pkgs).imp Place.Before.ne

/-- There cannot be more distinct declared places than declarations. -/
theorem length_le_declarationCount {pkgs : List Archive} {chosen : List Place} (distinct : chosen.Nodup)
    (declared : ∀ place ∈ chosen, (site? pkgs place).isSome = true) :
    chosen.length ≤ declarationCount pkgs := by
  rw [← length_places]
  exact (distinct.subperm fun place member => mem_places.mpr (declared place member)).length_le

namespace Selection

@[simp] theorem contains_empty (place : Place) : empty.contains place = false := by
  simp [empty, contains]

@[simp] theorem contains_insert (s : Selection) (a b : Place) :
    (s.insert a).contains b = true ↔ b = a ∨ s.contains b = true := by
  simp only [insert, contains, Std.TreeSet.contains_insert, Bool.or_eq_true, beq_iff_eq,
    Std.LawfulEqOrd.compare_eq_iff_eq, eq_comm (a := b)]

/-- Inserting a place again does not count. -/
theorem size_insert (s : Selection) (place : Place) :
    (s.insert place).size = if s.contains place then s.size else s.size + 1 := by
  simp [insert, contains, size, Std.TreeSet.size_insert]

theorem mem_toList (s : Selection) (place : Place) : place ∈ s.places.toList ↔ s.contains place = true := by
  simp [contains]

theorem nodup_toList (s : Selection) : s.places.toList.Nodup := by
  exact s.places.distinct_toList.imp fun distinct same => distinct (Std.LawfulEqOrd.compare_eq_iff_eq.mpr same)

theorem length_toList (s : Selection) : s.places.toList.length = s.size := by
  simp [size]

/-- The members of a selection from a program. -/
theorem toList_perm_places {s : Selection} {pkgs : List Archive}
    (declared : ∀ place, s.contains place = true → (site? pkgs place).isSome = true) :
    s.places.toList.Perm ((Linkage.places pkgs).filter s.contains) := by
  refine (List.perm_ext_iff_of_nodup s.nodup_toList ((places_nodup pkgs).filter _)).mpr fun place => ?_
  rw [mem_toList, List.mem_filter, mem_places]
  exact ⟨fun selected => ⟨declared place selected, selected⟩, fun both => both.2⟩

/-- The selected declarations of a package are those whose own number is selected. -/
theorem mem_ofPackage {s : Selection} {p : Nat} {pkg : Archive} {d : Declaration} :
    d ∈ s.ofPackage p pkg ↔ ∃ i, s.contains ⟨p, i⟩ = true ∧ pkg.declarations[i]? = some d := by
  simp only [ofPackage, List.mem_map, List.mem_filter, List.mem_zipIdx_iff_getElem?, Prod.exists]
  constructor
  · rintro ⟨d, i, ⟨found, selected⟩, rfl⟩
    exact ⟨i, selected, found⟩
  · rintro ⟨i, selected, found⟩
    exact ⟨d, i, ⟨found, selected⟩, rfl⟩

theorem mem_declarations {s : Selection} {p : Nat} {pkg : Archive} {d : Declaration} (selected : d ∈ s.ofPackage p pkg) :
    d ∈ pkg.declarations := by
  obtain ⟨i, -, found⟩ := mem_ofPackage.mp selected
  exact List.mem_of_getElem? found

end Selection
end Linkage
