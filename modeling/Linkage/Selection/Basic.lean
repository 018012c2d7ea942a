import Std.Data.TreeSet
import Linkage.Archive.Basic

/-!
# Selections

A selection is a set of declarations of a program, each given by its place: the number of its package in link order and
its own number in the package.
-/
namespace Linkage

@[ext]
structure Place where
  package : Nat
  index : Nat
  deriving DecidableEq, Repr

namespace Place

instance : Ord Place := ⟨compareLex (compareOn package) (compareOn index)⟩

instance : Std.TransOrd Place :=
  inferInstanceAs (Std.TransCmp (compareLex (compareOn package) (compareOn index)))

instance : Std.LawfulEqOrd Place where
  eq_of_compare {a b} h := by
    have h : (compare a.package b.package).then (compare a.index b.index) = .eq := h
    rw [Ordering.then_eq_eq] at h
    exact Place.ext (Std.LawfulEqOrd.eq_of_compare h.1) (Std.LawfulEqOrd.eq_of_compare h.2)

end Place

/-- The places of all declarations of a program, in ascending order. -/
def places (pkgs : List Archive) : List Place :=
  pkgs.zipIdx.flatMap fun (pkg, p) => (List.range pkg.declarations.length).map (⟨p, ·⟩)

def declaration? (pkgs : List Archive) (place : Place) : Option Declaration := do
  (← pkgs[place.package]?).declarations[place.index]?

def declarationCount (pkgs : List Archive) : Nat :=
  pkgs.foldr (fun pkg count => pkg.declarations.length + count) 0

structure Selection where
  places : Std.TreeSet Place

namespace Selection

def empty : Selection := ⟨∅⟩

def contains (s : Selection) (place : Place) : Bool := s.places.contains place

def insert (s : Selection) (place : Place) : Selection := ⟨s.places.insert place⟩

def size (s : Selection) : Nat := s.places.size

def all (pkgs : List Archive) : Selection := (Linkage.places pkgs).foldl insert empty

/-- The selected declarations of one package, which is at `package` in link order. -/
def ofPackage (s : Selection) (package : Nat) (archive : Archive) : List Declaration :=
  (archive.declarations.zipIdx.filter fun (_, i) => s.contains ⟨package, i⟩).map (·.1)

/-- The selected declarations of a program with their places, package by package. -/
def ofProgram (s : Selection) (pkgs : List Archive) : List (Place × Declaration) :=
  pkgs.zipIdx.flatMap fun (pkg, p) =>
    (pkg.declarations.zipIdx.map fun (d, i) => ((⟨p, i⟩ : Place), d)).filter fun (place, _) => s.contains place

/-- How many selected places belong to a package. -/
def countOfPackage (s : Selection) (package : Nat) : Nat := s.places.toList.countP (·.package = package)

end Selection
end Linkage
