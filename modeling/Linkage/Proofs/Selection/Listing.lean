import Linkage.Proofs.Selection.Restriction

/-!
# Listings of a selection

The selected declarations are listed for a whole program or for one of its packages, and the selected places of a
package are counted. If only places of the program are selected, the listings and the counts agree: each selected place
is listed once and in order, in the listing of its package as in that of the program.
-/
namespace Linkage

/-- In a list that is made of numbered parts, what has the number of one part is that part. -/
theorem filter_flatMap_zipIdx {α β : Type} (part : α × Nat → List β) {number : β → Nat}
    (numbered : ∀ x, ∀ b ∈ part x, number b = x.2) {l : List α} {i : Nat} {a : α} (found : l[i]? = some a) :
    (l.zipIdx.flatMap part).filter (number · = i) = part (a, i) := by
  have own : (part (a, i)).filter (number · = i) = part (a, i) :=
    List.filter_eq_self.mpr fun b member => by simpa using numbered (a, i) b member
  have other {x : α × Nat} (different : x.2 ≠ i) : (part x).filter (number · = i) = [] :=
    List.filter_eq_nil_iff.mpr fun b member => by simpa [numbered x b member] using different
  have member : (a, i) ∈ l.zipIdx := List.mem_zipIdx_iff_getElem?.mpr found
  obtain ⟨front, back, split⟩ := List.append_of_mem member
  -- The numbers ascend, so none of the parts before and behind has this number.
  obtain ⟨-, rest, before⟩ := List.pairwise_append.mp (split ▸ zipIdx_ascending l)
  have behind := (List.pairwise_cons.mp rest).1
  have frontEmpty : front.flatMap (fun x => (part x).filter (number · = i)) = [] :=
    List.flatMap_eq_nil_iff.mpr fun x member => other (Nat.ne_of_lt (before x member (a, i) List.mem_cons_self))
  have backEmpty : back.flatMap (fun x => (part x).filter (number · = i)) = [] :=
    List.flatMap_eq_nil_iff.mpr fun x member => other (Nat.ne_of_gt (behind x member))
  rw [List.filter_flatMap, split, List.flatMap_append, List.flatMap_cons, frontEmpty, own, backEmpty, List.nil_append,
    List.append_nil]

namespace Selection

variable {s : Selection} {pkgs : List Archive} {pkg : Archive} {place : Place} {p : Nat}

/-! ### The listing of a program -/

/-- The listing of a selection is that of all sites, less what is not selected. -/
theorem ofProgram_eq_map_sites (s : Selection) (pkgs : List Archive) :
    s.ofProgram pkgs =
      ((sites pkgs).filter fun x => s.contains x.1).map fun (place, site) => (place, site.declaration) := by
  simp only [ofProgram, sites, List.filter_flatMap, List.map_flatMap, List.filter_map, List.map_map]
  rfl

theorem mem_ofProgram {d : Declaration} :
    (place, d) ∈ s.ofProgram pkgs ↔ s.contains place = true ∧ declaration? pkgs place = some d := by
  rw [ofProgram_eq_map_sites, declaration?_eq_map]
  simp only [List.mem_map, List.mem_filter, Prod.mk.injEq, Option.map_eq_some_iff]
  constructor
  · rintro ⟨⟨place, site⟩, ⟨member, selected⟩, rfl, rfl⟩
    exact ⟨selected, site, mem_sites.mp member, rfl⟩
  · rintro ⟨selected, site, found, rfl⟩
    exact ⟨(place, site), ⟨mem_sites.mpr found, selected⟩, rfl, rfl⟩

/-- The places in the listing of a program. -/
theorem map_fst_ofProgram (s : Selection) (pkgs : List Archive) :
    (s.ofProgram pkgs).map (·.1) = (Linkage.places pkgs).filter s.contains := by
  rw [ofProgram_eq_map_sites, places_eq_map_sites, List.filter_map, List.map_map]
  rfl

/-- Entries come package by package, and by their numbers within a package. -/
theorem ofProgram_ascending (s : Selection) (pkgs : List Archive) :
    (s.ofProgram pkgs).Pairwise (·.1.Before ·.1) := by
  refine List.pairwise_map.mp ?_
  rw [map_fst_ofProgram]
  exact (places_ascending pkgs).filter _

/-- The selected declarations of one package, with their places. -/
def placed (s : Selection) (p : Nat) (pkg : Archive) : List (Place × Declaration) :=
  (pkg.declarations.zipIdx.map fun (d, i) => ((⟨p, i⟩ : Place), d)).filter fun (place, _) => s.contains place

theorem map_snd_placed (s : Selection) (p : Nat) (pkg : Archive) : (s.placed p pkg).map (·.2) = s.ofPackage p pkg := by
  rw [placed, ofPackage, List.filter_map, List.map_map]
  rfl

theorem package_of_mem_placed {x : Place × Declaration} (member : x ∈ s.placed p pkg) : x.1.package = p := by
  obtain ⟨_, _, rfl⟩ := List.mem_map.mp (List.mem_filter.mp member).1
  rfl

/-- The listing of a program, restricted to a package. -/
theorem filter_ofProgram (found : pkgs[p]? = some pkg) :
    (s.ofProgram pkgs).filter (·.1.package = p) = s.placed p pkg :=
  filter_flatMap_zipIdx (fun x => s.placed x.2 x.1) (fun _ _ => package_of_mem_placed) found

/-- Counting in a package and counting in the whole listing agree. -/
theorem length_ofPackage_eq_countP (found : pkgs[p]? = some pkg) :
    (s.ofPackage p pkg).length = ((s.ofProgram pkgs).map (·.1)).countP (·.package = p) := by
  rw [← map_snd_placed, List.length_map, ← filter_ofProgram found, ← List.countP_eq_length_filter, List.countP_map]
  rfl

/-! ### Counts -/

/-- The listings and counts of a selection are those of its members. -/
structure Listed (s : Selection) (pkgs : List Archive) : Prop where
  ascending : (s.ofProgram pkgs).Pairwise (·.1.Before ·.1)
  members : ∀ place, place ∈ (s.ofProgram pkgs).map (·.1) ↔ s.contains place = true
  declarations : ∀ place d, (place, d) ∈ s.ofProgram pkgs → declaration? pkgs place = some d
  packages : ∀ p pkg, pkgs[p]? = some pkg →
    ((s.ofProgram pkgs).filter (·.1.package = p)).map (·.2) = s.ofPackage p pkg
  counts : ∀ p pkg, pkgs[p]? = some pkg → s.countOfPackage p = (s.ofPackage p pkg).length
  beyond : ∀ p, pkgs.length ≤ p → s.countOfPackage p = 0
  sum : s.size = ((List.range pkgs.length).map s.countOfPackage).sum
  length : s.size = (s.ofProgram pkgs).length

section Declared

variable (declared : ∀ place, s.contains place = true → (site? pkgs place).isSome = true)
include declared

/-- The set of places and the listing have the same members. -/
theorem toList_perm_ofProgram : s.places.toList.Perm ((s.ofProgram pkgs).map (·.1)) := by
  rw [map_fst_ofProgram]
  exact toList_perm_places declared

theorem countOfPackage_eq_length (found : pkgs[p]? = some pkg) :
    s.countOfPackage p = (s.ofPackage p pkg).length := by
  rw [countOfPackage, (toList_perm_ofProgram declared).countP_eq, length_ofPackage_eq_countP found]

theorem countOfPackage_eq_zero (outside : pkgs.length ≤ p) : s.countOfPackage p = 0 := by
  refine List.countP_eq_zero.mpr fun place member => ?_
  obtain ⟨site, found⟩ := Option.isSome_iff_exists.mp (declared place (s.mem_toList place |>.mp member))
  obtain ⟨pkg, there, -⟩ := site?_eq_some.mp found
  have inside := (List.getElem?_eq_some_iff.mp there).1
  rw [decide_eq_true_iff]
  omega

theorem size_eq_length_ofProgram : s.size = (s.ofProgram pkgs).length := by
  rw [← length_toList, (toList_perm_ofProgram declared).length_eq, List.length_map]

/-- The counts of all packages add up to the size. -/
theorem size_eq_sum : s.size = ((List.range pkgs.length).map s.countOfPackage).sum := by
  have numbers : List.range pkgs.length = pkgs.zipIdx.map (·.2) := by
    rw [List.zipIdx_map_snd, List.range_eq_range']
  rw [size_eq_length_ofProgram declared, ofProgram, List.length_flatMap, numbers, List.map_map]
  congr 1
  apply List.map_congr_left
  rintro ⟨pkg, p⟩ member
  have found : pkgs[p]? = some pkg := List.mem_zipIdx_iff_getElem?.mp member
  change (s.placed p pkg).length = s.countOfPackage p
  rw [countOfPackage_eq_length declared found, ← map_snd_placed, List.length_map]

/-- Any selection of declared places is listed in order, with the right contents and counts. -/
theorem listed_of_declared : s.Listed pkgs where
  ascending := s.ofProgram_ascending pkgs
  members place := by
    rw [← mem_toList]
    exact (toList_perm_ofProgram declared).mem_iff.symm
  declarations _ _ member := (mem_ofProgram.mp member).2
  packages p pkg found := by rw [filter_ofProgram found, map_snd_placed]
  counts _ _ := countOfPackage_eq_length declared
  beyond _ := countOfPackage_eq_zero declared
  sum := size_eq_sum declared
  length := size_eq_length_ofProgram declared

end Declared

theorem contains_foldl_insert (chosen : List Place) :
    (chosen.foldl insert s).contains place = true ↔ place ∈ chosen ∨ s.contains place = true := by
  induction chosen generalizing s with
  | nil => simp
  | cons first rest ih => rw [List.foldl_cons, ih, contains_insert, List.mem_cons, or_left_comm, or_assoc]

/-- The selection of everything has each declaration of the program and nothing else. -/
theorem contains_all : (all pkgs).contains place = true ↔ (site? pkgs place).isSome = true := by
  rw [all, contains_foldl_insert, mem_places]
  simp

end Selection

/-- The live declarations are listed in order, each once, and so are all declarations of a program. The listing of a
package is the part of that of the program which belongs to it, and the counts are the lengths of the listings. -/
theorem live_and_all_listed (pkgs : List Archive) :
    (Selection.live pkgs).Listed pkgs ∧ (Selection.all pkgs).Listed pkgs ∧
    ∀ place, (Selection.all pkgs).contains place = (declaration? pkgs place).isSome := by
  refine ⟨Selection.listed_of_declared fun _ => Selection.live_declared,
    Selection.listed_of_declared fun _ => Selection.contains_all.mp, fun place => ?_⟩
  rw [isSome_declaration?]
  exact Bool.eq_iff_iff.mpr Selection.contains_all

end Linkage
