import Linkage.Archive.Declaration
import Linkage.Archive.SymbolSources
import Linkage.Position.Table

/-!
# Archives

An archive is one compiled package. Its code is opaque: bytes with position markers in them, whose handles mean
something in the archive's own position table only.
-/
namespace Linkage

structure Archive where
  importPath : String
  -- The declared name of the package.
  name : String
  -- The import paths of the packages that this one imports.
  imports : List String := []
  -- The encoded interface, empty for a package that exports nothing.
  exportData : Bytes := []
  -- The declarations in source order.
  declarations : List Declaration := []
  -- Code that is put in front of the package's module.
  preamble : Bytes := []
  positions : Option PositionTable := none
  -- Whether a program with this entry package is minified.
  minified : Bool := false
  -- The code of the latest incremental step.
  newCode : List Bytes := []
  symbolSources : SymbolSources := .empty
  deriving DecidableEq

end Linkage
