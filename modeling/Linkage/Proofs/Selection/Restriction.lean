import Linkage.Proofs.Selection.Liveness
import Mathlib.Algebra.GroupWithZero.Nat

/-!
# Programs without their dead declarations

A program restricted to its live declarations has nothing dead in it: each derivation of a live declaration uses live
declarations only, so it is still there. And a dead declaration may be changed in everything but its filters without
making another one live.
-/
namespace Linkage

theorem zipIdx_mapIdx {α β : Type} (f : Nat → α → β) (list : List α) :
    (list.mapIdx f).zipIdx = list.zipIdx.map fun (x, i) => (f i x, i) := by
  refine List.ext_getElem? fun i => ?_
  cases found : list[i]? <;> simp [List.getElem?_zipIdx, found]

/-- The program whose packages have other declarations. -/
def redeclare (declarations : Nat → Archive → List Declaration) (pkgs : List Archive) : List Archive :=
  pkgs.mapIdx fun p pkg => { pkg with declarations := declarations p pkg }

variable {declarations : Nat → Archive → List Declaration} {pkgs : List Archive} {place : Place}

theorem site?_eq_some {s : Site} :
    site? pkgs place = some s ↔ ∃ pkg, pkgs[place.package]? = some pkg ∧
      pkg.declarations[place.index]? = some s.declaration ∧ pkg.importPath = s.importPath := by
  obtain ⟨path, d⟩ := s
  simp [site?, Option.bind_eq_some_iff, and_comm]

/-- Declaring something else changes declarations, and import paths stay. -/
theorem site?_redeclare {s : Site} :
    site? (redeclare declarations pkgs) place = some s ↔ ∃ pkg, pkgs[place.package]? = some pkg ∧
      (declarations place.package pkg)[place.index]? = some s.declaration ∧ pkg.importPath = s.importPath := by
  simp [site?_eq_some, redeclare]

theorem redeclare_eq_self (same : ∀ p pkg, pkgs[p]? = some pkg → declarations p pkg = pkg.declarations) :
    redeclare declarations pkgs = pkgs := by
  refine List.ext_getElem? fun p => ?_
  rw [redeclare, List.getElem?_mapIdx]
  cases found : pkgs[p]? with
  | none => rfl
  | some pkg => rw [Option.map_some, same p pkg found]

theorem declarationCount_eq_sum (pkgs : List Archive) :
    declarationCount pkgs = (pkgs.map (·.declarations.length)).sum := by
  induction pkgs with
  | nil => rfl
  | cons pkg rest ih =>
    rw [List.map_cons, List.sum_cons, ← ih]
    rfl

namespace Selection

/-- The program with the selected declarations only. -/
def restrict (s : Selection) (pkgs : List Archive) : List Archive := redeclare s.ofPackage pkgs

/-- All but the filters of a declaration changed, unless it is selected. -/
def alter (s : Selection) (change : Place → Declaration → Declaration) (place : Place) (d : Declaration) :
    Declaration :=
  if s.contains place then d
  else { change place d with objectFilter := d.objectFilter, methodFilter := d.methodFilter }

/-- The program with all but the filters changed in the declarations that are not selected. -/
def alterRest (s : Selection) (change : Place → Declaration → Declaration) (pkgs : List Archive) : List Archive :=
  redeclare (fun p pkg => pkg.declarations.mapIdx fun i => s.alter change ⟨p, i⟩) pkgs

variable {s t : Selection} {change : Place → Declaration → Declaration} {site : Site}

/-! ### Selected declarations only -/

/-- The restricted program declares what the whole program has at selected places. -/
theorem exists_site?_restrict :
    (∃ place, site? (s.restrict pkgs) place = some site) ↔
      ∃ place, s.contains place = true ∧ site? pkgs place = some site := by
  constructor
  · rintro ⟨place, there⟩
    obtain ⟨pkg, found, kept, path⟩ := site?_redeclare.mp there
    obtain ⟨i, selected, declared⟩ := mem_ofPackage.mp (List.mem_of_getElem? kept)
    exact ⟨⟨place.package, i⟩, selected, site?_eq_some.mpr ⟨pkg, found, declared, path⟩⟩
  · rintro ⟨place, selected, there⟩
    obtain ⟨pkg, found, declared, path⟩ := site?_eq_some.mp there
    obtain ⟨i, kept⟩ := List.mem_iff_getElem?.mp (mem_ofPackage.mpr ⟨place.index, selected, declared⟩)
    exact ⟨⟨place.package, i⟩, site?_redeclare.mpr ⟨pkg, found, kept, path⟩⟩

/-- A package all of whose declarations are selected keeps them all. -/
theorem ofPackage_eq_declarations {p : Nat} {pkg : Archive}
    (all : ∀ i < pkg.declarations.length, s.contains ⟨p, i⟩ = true) : s.ofPackage p pkg = pkg.declarations := by
  rw [ofPackage, List.filter_eq_self.mpr, List.zipIdx_map_fst]
  rintro ⟨d, i⟩ member
  exact all i (List.getElem?_eq_some_iff.mp (List.mem_zipIdx_iff_getElem?.mp member)).1

theorem ofPackage_all (all : ∀ place, (site? pkgs place).isSome = true → s.contains place = true) {p : Nat}
    {pkg : Archive} (found : pkgs[p]? = some pkg) : s.ofPackage p pkg = pkg.declarations := by
  refine ofPackage_eq_declarations fun i inside => all ⟨p, i⟩ ?_
  simp [site?, found, inside]

/-- Restricting to everything changes nothing. -/
theorem restrict_eq_self (all : ∀ place, (site? pkgs place).isSome = true → s.contains place = true) :
    s.restrict pkgs = pkgs :=
  redeclare_eq_self fun _ _ found => ofPackage_all all found

/-- How many declarations of a package are selected, told by its places. -/
theorem length_ofPackage (s : Selection) (p : Nat) (pkg : Archive) :
    (s.ofPackage p pkg).length = ((List.range pkg.declarations.length).map (⟨p, ·⟩)).countP s.contains := by
  rw [ofPackage, List.length_map, ← List.countP_eq_length_filter, List.range_eq_range', ← List.zipIdx_map_snd,
    List.countP_map, List.countP_map]
  rfl

/-- A selection from a program has as many members as the program has declarations when restricted to it. -/
theorem size_eq_declarationCount (declared : ∀ place, s.contains place = true → (site? pkgs place).isSome = true) :
    s.size = declarationCount (s.restrict pkgs) := by
  rw [← length_toList, (toList_perm_places declared).length_eq, ← List.countP_eq_length_filter, Linkage.places, List.countP_flatMap,
    declarationCount_eq_sum, restrict, redeclare, List.mapIdx_eq_zipIdx_map, List.map_map]
  congr 1
  apply List.map_congr_left
  rintro ⟨pkg, p⟩ _
  exact (s.length_ofPackage p pkg).symm

/-- A selection is counted by its members, however it was built. -/
theorem size_congr (same : ∀ place, t.contains place = s.contains place) : t.size = s.size := by
  have members : t.places.toList.Perm s.places.toList := by
    refine (List.perm_ext_iff_of_nodup t.nodup_toList s.nodup_toList).mpr fun place => ?_
    rw [mem_toList, mem_toList, same]
  rw [← length_toList, ← length_toList, members.length_eq]

/-! ### Live declarations only -/

theorem live_declared (live : (Selection.live pkgs).contains place = true) : (site? pkgs place).isSome = true := by
  obtain ⟨s, found, _⟩ := mem_liveSet_iff.mp live
  rw [found]
  rfl

/-- A declaration that is kept can be reached among those kept: the users on its way are live, so they are kept. -/
theorem reached_restrict {origin : Place} (reached : Reached pkgs origin) (there : site? pkgs origin = some site)
    (kept : site? ((live pkgs).restrict pkgs) place = some site) :
    Reached ((live pkgs).restrict pkgs) place := by
  -- Whatever the derivation uses is live, so it is kept, if only at another place.
  induction reached generalizing place site with
  | intro user found reached lists ih =>
    obtain rfl := Option.some.inj (found.symm.trans there)
    refine reached_closed _ place _ kept fun key needed => ?_
    obtain ⟨t, declared, listed⟩ := lists key needed
    have live := mem_liveSet_iff_reached.mpr (reached key needed)
    obtain ⟨copy, kept⟩ := exists_site?_restrict.mpr ⟨user key, live, declared⟩
    exact ⟨copy, ih key needed declared kept, t, kept, listed⟩

/-- Everything that elimination keeps is live when only that is left. -/
theorem live_restrict (place : Place) :
    (live ((live pkgs).restrict pkgs)).contains place = (site? ((live pkgs).restrict pkgs) place).isSome := by
  refine Bool.eq_iff_iff.mpr ⟨live_declared, fun declared => ?_⟩
  obtain ⟨site, kept⟩ := Option.isSome_iff_exists.mp declared
  obtain ⟨origin, live, there⟩ := exists_site?_restrict.mp ⟨place, kept⟩
  exact mem_liveSet_iff_reached.mpr (reached_restrict (mem_liveSet_iff_reached.mp live) there kept)

/-- Eliminating twice selects as many declarations as eliminating once. -/
theorem size_live_restrict (pkgs : List Archive) :
    (live ((live pkgs).restrict pkgs)).size = (live pkgs).size := by
  have idempotent :
      (live ((live pkgs).restrict pkgs)).restrict ((live pkgs).restrict pkgs) = (live pkgs).restrict pkgs :=
    restrict_eq_self fun place declared => (live_restrict place).trans declared
  rw [size_eq_declarationCount fun _ => live_declared, idempotent, size_eq_declarationCount fun _ => live_declared]

/-! ### Dead declarations changed -/

theorem alter_of_contains (selected : s.contains place = true) (d : Declaration) : s.alter change place d = d :=
  if_pos selected

@[simp] theorem keys_alter (importPath : String) (d : Declaration) :
    (s.alter change place d).keys importPath = d.keys importPath := by
  unfold alter
  split <;> rfl

/-- The declaration at a place is changed if it is dead. -/
theorem site?_alterRest :
    site? (s.alterRest change pkgs) place =
      (site? pkgs place).map fun t => { t with declaration := s.alter change place t.declaration } := by
  cases found : pkgs[place.package]? with
  | none => simp [alterRest, redeclare, site?, found]
  | some pkg =>
    cases declared : pkg.declarations[place.index]? <;> simp [alterRest, redeclare, site?, found, declared]

theorem site?_alterRest_of_contains (selected : s.contains place = true) :
    site? (s.alterRest change pkgs) place = site? pkgs place := by
  simp [site?_alterRest, alter_of_contains selected]

/-- Live declarations list what they have listed before. -/
theorem lists_alterRest {key : String} (selected : s.contains place = true) :
    Lists (s.alterRest change pkgs) place key ↔ Lists pkgs place key := by
  simp [Lists, site?_alterRest_of_contains selected]

/-- Dead declarations may change everything but their filters: nothing that is live depends on them. -/
theorem liveSet_alterRest : liveSet ((live pkgs).alterRest change pkgs) = liveSet pkgs := by
  apply Set.Subset.antisymm
  · refine liveSet_subset fun place altered found used => ?_
    rw [site?_alterRest, Option.map_eq_some_iff] at found
    obtain ⟨s, found, rfl⟩ := found
    refine liveSet_closed pkgs place s found fun key needed => ?_
    obtain ⟨user, live, lists⟩ := used key (by simpa [Site.keys_eq] using needed)
    exact ⟨user, live, (lists_alterRest live).mp lists⟩
  · intro place live
    have reached := mem_liveSet_iff_reached.mp live
    induction reached with
    | intro user found reached lists ih =>
      refine liveSet_closed _ _ _ ((site?_alterRest_of_contains live).trans found) fun key needed => ?_
      have used := mem_liveSet_iff_reached.mpr (reached key needed)
      exact ⟨user key, ih key needed used, (lists_alterRest used).mpr (lists key needed)⟩

theorem live_alterRest (place : Place) :
    (live ((live pkgs).alterRest change pkgs)).contains place = (live pkgs).contains place :=
  Bool.eq_iff_iff.mpr (Set.ext_iff.mp liveSet_alterRest place)

theorem declarationCount_alterRest : declarationCount (s.alterRest change pkgs) = declarationCount pkgs := by
  rw [declarationCount_eq_sum, declarationCount_eq_sum, alterRest, redeclare]
  congr 1
  refine List.ext_getElem? fun p => ?_
  cases found : pkgs[p]? <;> simp [found]

theorem ofPackage_mapIdx (same : ∀ place, t.contains place = s.contains place) (p : Nat) (pkg : Archive) :
    t.ofPackage p { pkg with declarations := pkg.declarations.mapIdx fun i => s.alter change ⟨p, i⟩ } =
      s.ofPackage p pkg := by
  simp only [ofPackage, same, zipIdx_mapIdx, List.filter_map, List.map_map]
  apply List.map_congr_left
  rintro ⟨d, i⟩ member
  exact alter_of_contains (List.mem_filter.mp member).2 d

end Selection

/-- The program with its live declarations only. -/
def liveOnly (pkgs : List Archive) : List Archive := (Selection.live pkgs).restrict pkgs

end Linkage
