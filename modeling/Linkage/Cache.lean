import Linkage.Archive.Encoding
import Linkage.Digest
import Linkage.Disk.Basic
import Linkage.Interface.Package
import Linkage.Text.Blank

/-!
# The archive cache

A cache is a directory with a file `version` and a directory `archives`, which holds the archive for each import path
under the digest of that path. A cache that was written by another version is emptied when it is opened.
-/
namespace Linkage

/-- The version that the linker writes. -/
def linkerVersion : String := "0.1.0-alpha.1"

structure Cache where
  dir : String
  version : String := linkerVersion
  deriving DecidableEq, Repr

namespace Cache

inductive Error where
  | disk (path : String) (cause : DiskError)
  | archive (fault : ArchiveFault)
  deriving DecidableEq, Repr

def Error.message : Error → String
  | .disk path cause => s!"cache I/O error at '{path}': {cause.message}"
  | .archive fault => fault.message

abbrev Action := EStateM Error Disk

def atPath {α : Type} (path : String) (action : String → Disk.Action α) : Action α := fun d =>
  match action path d with
  | .ok a d => .ok a d
  | .error cause d => .error (.disk path cause) d

def archives (c : Cache) : String := Path.join c.dir "archives"

def stamp (c : Cache) : String := Path.join c.dir "version"

def fileOf (c : Cache) (importPath : String) : String :=
  Path.join c.archives (Bytes.toHex (Digest.sha256 (Text.Utf8.encode importPath)) ++ ".a")

/-- Whether there is a version file that holds the version of the cache, blanks around it apart. -/
def isCurrent (c : Cache) : Action Bool := do
  if !(← get).has c.stamp then return false
  return Text.trim (← atPath c.stamp fun path => Disk.ask (·.readText path)) = c.version

def clear (c : Cache) : Action Unit := do
  if (← get).has c.archives then atPath c.archives Disk.removeTree
  atPath c.archives Disk.makeDirectories

/-- Create the directories of the cache, and empty it if its version is another. -/
def prepare (c : Cache) : Action Unit := do
  atPath c.archives Disk.makeDirectories
  if !(← c.isCurrent) then
    c.clear
    atPath c.stamp (Disk.writeFile · (Text.Utf8.encode c.version))

def has (c : Cache) (d : Disk) (importPath : String) : Bool := d.has (c.fileOf importPath)

/-- Store an archive. The answer is the file that it is in. -/
def put (c : Cache) (a : Archive) : Action String := do
  let path := c.fileOf a.importPath
  atPath path (Disk.writeFile · a.encode)
  return path

def remove (c : Cache) (importPath : String) : Action Unit := do
  let path := c.fileOf importPath
  if (← get).has path then atPath path Disk.removeFile

def count (c : Cache) : Action Nat := do
  let names ← atPath c.archives fun path => Disk.ask (·.list path)
  return names.countP (Path.hasExtension · "a")

def stream? (c : Cache) (d : Disk) (importPath : String) : Option Stream :=
  match d.lookup (c.fileOf importPath) with
  | .error _ => none
  | .ok (.file data) => some { data }
  | .ok .directory => some { data := [], failure := some DiskError.isDirectory.message }

/-- Read the stored archive for an import path. It has to be one of that path. -/
def decode (importPath : String) (s : Stream) : Except Error Archive :=
  match Archive.read importPath s with
  | .error fault => .error (.archive fault)
  | .ok a =>
    if a.importPath = importPath then .ok a
    else .error (.archive (.malformed importPath (.otherPackage a.importPath)))

structure Installation where
  packages : Registry
  -- The import paths for which something stored was read, latest first.
  read : List String := []

abbrev Installing := EStateM Error Installation

/-- Read what is stored for an import path, if anything is, and note that. -/
def fetch (c : Cache) (d : Disk) (importPath : String) : Installing (Option Archive) := do
  let some s := c.stream? d importPath | return none
  modify fun i => { i with read := importPath :: i.read }
  match decode importPath s with
  | .ok a => return some a
  | .error e => throw e

def install (importPath : String) (a : Archive) : Installing Unit := do
  let i ← get
  match i.packages.install importPath a with
  | .ok packages => set { i with packages }
  | .error fault => throw (.archive fault)

/-- Load the archive for an import path. Its imports that are neither installed nor in `loading` are loaded before its
own interface is installed. -/
def loadWithin (c : Cache) (d : Disk) : (depth : Nat) → (loading : List String) → String → Installing (Option Archive)
  | 0, _, _ => return none
  | depth + 1, loading, importPath => do
    let some a ← c.fetch d importPath | return none
    let loading := importPath :: loading
    a.imports.forM fun imported => do
      if (← get).packages.contains imported || imported ∈ loading then return
      let _ ← c.loadWithin d depth loading imported
    install importPath a
    return some a

/-- How many entries there are where archives are stored: no more packages than that can import each other. -/
def capacity (c : Cache) (d : Disk) : Nat := ((d.list c.archives).toOption.getD []).length

/-- Load the archive for an import path, and before it the imports that are not installed. There is no archive if
nothing is stored for the path. -/
def load (c : Cache) (d : Disk) (importPath : String) (packages : Registry) :
    Except Error (Option Archive) × Installation :=
  match c.loadWithin d (c.capacity d + 1) [] importPath { packages } with
  | .ok a i => (.ok a, i)
  | .error e i => (.error e, i)

end Cache
end Linkage
