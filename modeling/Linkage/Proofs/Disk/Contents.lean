import Linkage.Proofs.Disk.Paths
import Mathlib.Data.List.Basic

/-!
# What a directory holds

The entries in a directory as a list of names. Looking a name up on the disk is looking it up in that list.
-/
namespace Linkage.Disk

variable {d : Disk} {around : Location} {path name : String} {e : Entry}

/-- The name of an entry, if it is in the directory. -/
def nameIn (around : Location) (entry : Location × Entry) : Option (String × Entry) :=
  match entry.1 with
  | name :: place => if place = around then some (name, entry.2) else none
  | [] => none

/-- The names in a directory with their entries. -/
def inside (d : Disk) (around : Location) : List (String × Entry) := d.entries.filterMap (nameIn around)

theorem nameIn_eq_some_iff {entry : Location × Entry} {named : String × Entry} :
    nameIn around entry = some named ↔ entry = (named.1 :: around, named.2) := by
  obtain ⟨location, e⟩ := entry
  obtain ⟨name, e'⟩ := named
  cases location with
  | nil => simp [nameIn]
  | cons other place => by_cases same : place = around <;> simp [nameIn, same]

/-- A place in a directory is looked up by its name in the listing of the directory. -/
theorem entryAt_cons (d : Disk) (name : String) (around : Location) :
    d.entryAt (name :: around) = (d.inside around).lookup name := by
  change d.entries.lookup (name :: around) = _
  unfold inside
  induction d.entries with
  | nil => rfl
  | cons first rest ih =>
    obtain ⟨location, e⟩ := first
    rw [List.lookup_cons, List.filterMap_cons, ih]
    cases named : nameIn around (location, e) with
    | none =>
      have other : (name :: around == location) = false := by
        rw [beq_eq_false_iff_ne]
        rintro rfl
        simp [nameIn] at named
      rw [other]
    | some found =>
      obtain ⟨other, e'⟩ := found
      obtain ⟨rfl, rfl⟩ := Prod.mk.inj (nameIn_eq_some_iff.mp named)
      simp only [List.lookup_cons, List.cons_beq_cons, beq_self_eq_true, Bool.and_true]

theorem mem_inside_of_entryAt (found : d.entryAt (name :: around) = some e) : (name, e) ∈ d.inside around := by
  rw [entryAt_cons] at found
  obtain ⟨front, back, split, -⟩ := List.lookup_eq_some_iff.mp found
  rw [split]
  exact List.mem_append_right front List.mem_cons_self

/-- A directory that a path leads to can be listed. -/
theorem list_eq (located : d.locate path = .ok around) (directory : d.entryAt around = some .directory) :
    d.list path = .ok ((d.inside around).map (·.1)) := by
  rw [list, located]
  simp only [bind, Except.bind, directory]
  refine congrArg Except.ok ?_
  rw [inside, List.map_filterMap]
  refine List.filterMap_congr fun entry _ => ?_
  obtain ⟨location, e⟩ := entry
  cases location with
  | nil => rfl
  | cons name place => by_cases same : place = around <;> simp [nameIn, same]

end Linkage.Disk
