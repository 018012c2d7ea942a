import Std.Data.TreeMap
import Linkage.Archive.Encoding
import Linkage.Interface.Encoding

/-!
# Packages

A package is an interface linked to the packages that it imports. Linking is strict: each import and each package
that a type refers to must be installed already and export what is referred to. A package may refer to itself
without that, since types that it does not export can occur in its own interface.
-/
namespace Linkage

structure Package where
  path : String
  name : String
  imports : List Package := []
  -- The exported members in the order of the interface. Of two with one name the later one counts.
  members : List Member := []

def Package.lookup? (p : Package) (name : String) : Option Member :=
  p.members.reverse.find? (·.name = name)

def Package.memberNames (p : Package) : List String :=
  (Std.TreeMap.ofList (p.members.map fun o => (o.name, ()))).keys

structure Registry where
  packages : Std.TreeMap String Package

namespace Registry

def empty : Registry := ⟨∅⟩

def get? (m : Registry) (path : String) : Option Package := m.packages[path]?

def contains (m : Registry) (path : String) : Bool := m.packages.contains path

/-- Install a package, instead of the one that was installed for its path. -/
def insert (m : Registry) (p : Package) : Registry := ⟨m.packages.insert p.path p⟩

def size (m : Registry) : Nat := m.packages.size

end Registry

namespace Package

def linkImports (path : String) (m : Registry) : List String → Except ArchiveFault (List Package)
  | [] => .ok []
  | imported :: rest => do
    let some p := m.get? imported | throw (.unresolvedPackage path imported)
    return p :: (← linkImports path m rest)

/-- Every reference to a package other than those in `own` is to a member which that package exports. -/
def checkReferences (path : String) (own : List String) (m : Registry) :
    List (String × String) → Except ArchiveFault Unit
  | [] => .ok ()
  | (package, name) :: rest => do
    if !own.contains package then
      let some p := m.get? package | throw (.unresolvedPackage path package)
      if (p.lookup? name).isNone then throw (.unresolvedMember path package name)
    checkReferences path own m rest

/-- Link an interface under the path it was asked for. -/
def ofInterface (path : String) (i : Interface) (m : Registry) : Except ArchiveFault Package := do
  let imports ← linkImports path m i.imports
  checkReferences path [path, i.path] m i.references
  return ⟨path, i.name, imports, i.members⟩

/-- Link encoded export data. Empty data stands for a package that exports nothing and has the given name. -/
def ofExportData (path name : String) (data : Bytes) (m : Registry) : Except ArchiveFault Package := do
  if data.isEmpty then return { path, name }
  match Interface.decode data with
  | .ok i => ofInterface path i m
  | .error cause => throw (.malformedInterface path cause)

end Package

def Registry.install (m : Registry) (path : String) (a : Archive) : Except ArchiveFault Registry := do
  return m.insert (← Package.ofExportData path a.name a.exportData m)

def Registry.receive (m : Registry) (path : String) (s : Stream) :
    Except ArchiveFault (Archive × Registry) := do
  let a ← Archive.read path s
  return (a, ← m.install path a)

end Linkage
