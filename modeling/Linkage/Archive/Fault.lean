import Linkage.Position.Table
import Linkage.Wire

/-!
# Faults of archives

Why an archive cannot be read or its interface cannot be installed. Each fault names the import path of the
archive.
-/
namespace Linkage

/-- What a reader says of its failure. A call that was merely interrupted is made again, so that is none. -/
inductive FailureKind where
  -- The data ends before all that was asked for is there.
  | unexpectedEnd
  | other
  deriving DecidableEq, Repr

structure ReadFailure where
  kind : FailureKind
  reason : String
  deriving DecidableEq, Repr

/-- A reason alone does not tell of an end. -/
instance : Coe String ReadFailure := ⟨ReadFailure.mk .other⟩

/-- What is wrong with data that has the right header, or none at all. -/
inductive Malformation where
  | truncatedHeader
  | wire (cause : Wire.Error) (short : Wire.Shortage)
  | layout (cause : LayoutError)
  -- The data holds another package than the one looked for.
  | otherPackage (found : String)
  deriving DecidableEq, Repr

def Malformation.message : Malformation → String
  | .truncatedHeader => "truncated header"
  | .wire cause short => cause.message short
  | .layout cause => cause.message
  | .otherPackage found => s!"cache entry holds package '{found}' instead"

inductive ArchiveFault where
  | badSignature (path : String)
  | unsupportedVersion (path : String) (found expected : Nat)
  | malformed (path : String) (what : Malformation)
  | malformedInterface (path : String) (cause : Wire.Error)
  | unresolvedPackage (path package : String)
  | unresolvedMember (path package name : String)
  | unreadable (path : String) (cause : ReadFailure)
  deriving DecidableEq, Repr

namespace ArchiveFault

def path : ArchiveFault → String
  | .badSignature path | .unsupportedVersion path _ _ | .malformed path _ | .malformedInterface path _
  | .unresolvedPackage path _ | .unresolvedMember path _ _ | .unreadable path _ => path

def detail : ArchiveFault → String
  | .badSignature _ => "not an archive (bad magic)"
  | .unsupportedVersion _ found expected => s!"format version {found}, expected {expected}"
  | .malformed _ what => s!"malformed data: {what.message}"
  | .malformedInterface _ cause => s!"malformed export data: {cause.message .memory}"
  | .unresolvedPackage _ package => s!"export data references unknown package '{package}'"
  | .unresolvedMember _ package name => s!"package '{package}' does not export '{name}'"
  | .unreadable _ cause => cause.reason

def message (f : ArchiveFault) : String := s!"archive '{f.path}': {f.detail}"

end ArchiveFault
end Linkage
