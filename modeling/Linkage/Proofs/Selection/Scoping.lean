import Linkage.Proofs.Selection.Liveness

/-!
# Filter keys and packages

An import path may hold dots, but a filter without one is all that follows the last dot of its key. Such a key therefore
tells the package and the filter apart, and a declaration is never kept for the sake of another package's filter.
-/
namespace Linkage

/-- The last dot divides a text in one way only. -/
theorem append_dot_inj {front front' back back' : List Char} (last : '.' ∉ back) (last' : '.' ∉ back') :
    front ++ '.' :: back = front' ++ '.' :: back' ↔ front = front' ∧ back = back' := by
  constructor
  · intro same
    -- Were one front longer than the other, the other back would hold the dot behind it.
    rcases List.append_eq_append_iff.mp same with ⟨between, rfl, rest⟩ | ⟨between, rfl, rest⟩ <;>
      cases between <;> simp_all
  · rintro ⟨rfl, rfl⟩
    rfl

/-- A key tells where its import path ends, although paths may have dots in them: filters have none. -/
theorem scopedKey_inj {path path' filter filter' : String} (undotted : '.' ∉ filter.toList)
    (undotted' : '.' ∉ filter'.toList) :
    scopedKey path filter = scopedKey path' filter' ↔ path = path' ∧ filter = filter' := by
  have parts (path filter : String) : (scopedKey path filter).toList = path.toList ++ '.' :: filter.toList := by
    simp [scopedKey]
  rw [String.ext_iff, parts, parts, append_dot_inj undotted undotted', ← String.ext_iff, ← String.ext_iff]

namespace Dependency

def name : Dependency → String
  | object _ name | method _ name => name

/-- The name has no dot, and does not end as the filter of a method does. -/
structure Plain (d : Dependency) : Prop where
  undotted : '.' ∉ d.name.toList
  untilded : d.name.toList.getLast? ≠ some '~'

/-- A local filter has no dot, since neither the name nor a tilde brings one. -/
theorem Plain.localFilter_undotted {d : Dependency} (plain : d.Plain) : '.' ∉ d.localFilter.toList := by
  have undotted := plain.undotted
  cases d with
  | object _ name => exact undotted
  | method _ name =>
    rw [localFilter, String.toList_append, List.mem_append]
    rintro (inName | tilde)
    · exact undotted inName
    · exact absurd tilde (by decide)

/-- A plain name has no tilde, so no function passes for a method. -/
theorem Plain.name_ne_tilded {d : Dependency} (plain : d.Plain) (other : String) : d.name ≠ other ++ "~" := by
  intro same
  refine plain.untilded ?_
  rw [same, String.toList_append]
  exact List.getLast?_concat

/-- Of one package, no function has the filter of a method. -/
theorem localFilter_inj {d e : Dependency} (plain : d.Plain) (plain' : e.Plain) (same : d.package = e.package) :
    d.localFilter = e.localFilter ↔ d = e := by
  cases d with
  | object _ name =>
    cases e with
    | object _ name' => simp_all [localFilter, package]
    | method _ name' => exact iff_of_false (plain.name_ne_tilded name') nofun
  | method _ name =>
    cases e with
    | object _ name' => exact iff_of_false (plain'.name_ne_tilded name).symm nofun
    | method _ name' => simp_all [localFilter, package]

theorem key_inj {d e : Dependency} (plain : d.Plain) (plain' : e.Plain) : d.key = e.key ↔ d = e := by
  rw [key, key, scopedKey_inj plain.localFilter_undotted plain'.localFilter_undotted]
  constructor
  · rintro ⟨packages, filters⟩
    exact (localFilter_inj plain plain' packages).mp filters
  · rintro rfl
    exact ⟨rfl, rfl⟩

end Dependency

/-! ### Programs with scoped filters -/

namespace Declaration

def filters (d : Declaration) : List String := d.objectFilter.toList ++ d.methodFilter.toList

/-- A declaration has a key for each of its filters. -/
theorem keys_eq_map_filters (d : Declaration) (importPath : String) :
    d.keys importPath = d.filters.map (scopedKey importPath) := by
  rw [keys, objectKey?, methodKey?, filters]
  cases d.objectFilter <;> cases d.methodFilter <;> rfl

end Declaration

/-- No filter has a dot in it, and each dep is the key of a plain dependency. -/
structure Scoped (pkgs : List Archive) : Prop where
  filters : ∀ pkg ∈ pkgs, ∀ d ∈ pkg.declarations, ∀ filter ∈ d.filters, '.' ∉ filter.toList
  deps : ∀ pkg ∈ pkgs, ∀ d ∈ pkg.declarations, ∀ key ∈ d.deps, ∃ used : Dependency, used.Plain ∧ used.key = key

theorem exists_of_site? {pkgs : List Archive} {place : Place} {s : Site} (found : site? pkgs place = some s) :
    ∃ pkg ∈ pkgs, s.declaration ∈ pkg.declarations ∧ s.importPath = pkg.importPath := by
  simp only [site?, Option.bind_eq_bind, Option.bind_eq_some_iff, Option.pure_def, Option.some.injEq] at found
  obtain ⟨pkg, there, d, here, rfl⟩ := found
  exact ⟨pkg, List.mem_of_getElem? there, List.mem_of_getElem? here, rfl⟩

/-- The declaration at a place lists a plain dependency on a package, with this local filter. -/
def Uses (pkgs : List Archive) (user : Place) (package filter : String) : Prop :=
  ∃ used : Dependency, used.Plain ∧ used.package = package ∧ used.localFilter = filter ∧ Lists pkgs user used.key

/-- That a key is listed means that some dependency on this very package is. -/
theorem Scoped.lists_iff {pkgs : List Archive} (rules : Scoped pkgs) {user : Place} {package filter : String}
    (undotted : '.' ∉ filter.toList) : Lists pkgs user (scopedKey package filter) ↔ Uses pkgs user package filter := by
  constructor
  · rintro ⟨s, found, listed⟩
    obtain ⟨pkg, inside, declared, -⟩ := exists_of_site? found
    obtain ⟨used, plain, same⟩ := rules.deps pkg inside _ declared _ listed
    obtain ⟨samePackage, sameFilter⟩ := (scopedKey_inj plain.localFilter_undotted undotted).mp same
    exact ⟨used, plain, samePackage, sameFilter, s, found, same ▸ listed⟩
  · rintro ⟨used, -, rfl, rfl, lists⟩
    exact lists

/-- In a scoped program, liveness can be told by packages and local filters. -/
theorem Scoped.live_iff {pkgs : List Archive} (rules : Scoped pkgs) {place : Place} {s : Site}
    (found : site? pkgs place = some s) :
    (Selection.live pkgs).contains place = true ↔ ∀ filter ∈ s.declaration.filters,
      ∃ user, (Selection.live pkgs).contains user = true ∧ Uses pkgs user s.importPath filter := by
  obtain ⟨pkg, inside, declared, -⟩ := exists_of_site? found
  have undotted := rules.filters pkg inside _ declared
  have live : (Selection.live pkgs).contains place = true ↔
      ∀ key ∈ s.keys, ∃ user ∈ liveSet pkgs, Lists pkgs user key := by
    refine Iff.trans mem_liveSet_iff ?_
    simp [found]
  rw [live, Site.keys_eq, Declaration.keys_eq_map_filters, List.forall_mem_map]
  refine forall₂_congr fun filter member => exists_congr fun user => ?_
  exact and_congr_right fun _ => rules.lists_iff (undotted filter member)

/-- Keys of undotted filters tell the package and the filter apart, and those of plain dependencies the dependency.
In a program with no other filters and deps, a declaration is kept exactly if each of its filters is that of a
dependency on its own package, which some kept declaration lists. -/
theorem keys_tell_packages (pkgs : List Archive) :
    (∀ path path' filter filter' : String, '.' ∉ filter.toList → '.' ∉ filter'.toList →
      (scopedKey path filter = scopedKey path' filter' ↔ path = path' ∧ filter = filter')) ∧
    (∀ d e : Dependency, d.Plain → e.Plain → (d.key = e.key ↔ d = e)) ∧
    (Scoped pkgs → ∀ place s, site? pkgs place = some s →
      ((Selection.live pkgs).contains place = true ↔ ∀ filter ∈ s.declaration.filters,
        ∃ user, (Selection.live pkgs).contains user = true ∧ Uses pkgs user s.importPath filter)) :=
  ⟨fun _ _ _ _ => scopedKey_inj, fun _ _ => Dependency.key_inj, fun rules _ _ => rules.live_iff⟩

namespace Nested

def function : Dependency := .object "x.y" "F"

def method : Dependency := .method "x.y" "m"

/-- A package below `x` whose declaration has two filters, each listed by a declaration of its own, and a package `x`
with one filter of the same name that no declaration lists. -/
def program : List Archive := [
  { importPath := "x.y", name := "y", declarations := [{ objectFilter := some "F", methodFilter := some "m~" }] },
  { importPath := "x", name := "x", declarations := [{ objectFilter := some "F" }] },
  { importPath := "main", name := "main", declarations := [{ deps := [function.key] }, { deps := [method.key] }] }]

theorem function_plain : function.Plain := ⟨by decide, by decide⟩

theorem method_plain : method.Plain := ⟨by decide, by decide⟩

theorem program_scoped : Scoped program := by
  constructor
  · decide
  · simp only [program, List.forall_mem_cons]
    refine ⟨⟨nofun, nofun⟩, ⟨nofun, nofun⟩, ⟨?_, ?_, nofun⟩, nofun⟩
    · exact ⟨⟨function, function_plain, rfl⟩, nofun⟩
    · exact ⟨⟨method, method_plain, rfl⟩, nofun⟩

end Nested

open Nested in
/-- Packages `x` and `x.y` do not get in the way of each other, and neither do a function and a method of one name. -/
theorem keys_tell_packages_nested :
    ('.' ∉ "F".toList ∧ scopedKey "x.y" "F" ≠ scopedKey "x" "F") ∧
    (function.Plain ∧ method.Plain ∧ function.key ≠ method.key) ∧
    Scoped program ∧
    (∃ s, site? program ⟨0, 0⟩ = some s ∧ "m~" ∈ s.declaration.filters ∧
      (Selection.live program).contains ⟨0, 0⟩ = true ∧
      ∃ user, (Selection.live program).contains user = true ∧ Uses program user "x.y" "m~") ∧
    (Selection.live program).contains ⟨1, 0⟩ = false := by
  obtain ⟨keys, dependencies, selects⟩ := keys_tell_packages program
  have undotted : '.' ∉ "F".toList := by decide
  have apart : scopedKey "x.y" "F" ≠ scopedKey "x" "F" := by
    rw [Ne, keys "x.y" "x" "F" "F" undotted undotted]
    decide
  have differ : function.key ≠ method.key := by
    rw [Ne, dependencies function method function_plain method_plain]
    decide
  have live : (Selection.live program).contains ⟨0, 0⟩ = true := by decide +kernel
  refine ⟨⟨undotted, apart⟩, ⟨function_plain, method_plain, differ⟩, program_scoped,
    ⟨_, rfl, by decide, live, ?_⟩, by decide +kernel⟩
  exact (selects program_scoped ⟨0, 0⟩ _ rfl).mp live "m~" (by decide)

end Linkage
