import Linkage.Cache
import Linkage.Command.Invocation
import Linkage.Linker
import Linkage.SourceMap.Basic

/-!
# Commands

A command finds the link order of a package that is in a cache, where all that it imports has to be too, and reports or
links it. It acts on a host: a disk, and what was printed.
-/
namespace Linkage

inductive FetchError where
  | notCached (path : String)
  | cache (cause : Cache.Error)
  deriving DecidableEq, Repr

def FetchError.message : FetchError → String
  | .notCached path => s!"package '{path}' is not in the cache"
  | .cache cause => cause.message

structure Host where
  disk : Disk := {}
  -- What was printed to standard output.
  printed : Bytes := []
  -- What was printed to standard error.
  complaints : String := ""

namespace Host

def print (h : Host) (bytes : Bytes) : Host := { h with printed := h.printed ++ bytes }

def printText (h : Host) (text : String) : Host := h.print (Text.Utf8.encode text)

def complain (h : Host) (text : String) : Host := { h with complaints := h.complaints ++ text }

end Host

namespace Command

inductive Error where
  | usage (cause : UsageError)
  | fetch (cause : FetchError)
  | order (cause : LinkOrder.Error FetchError)
  | write (cause : WriteError)
  | output (path : String) (cause : DiskError)
  deriving DecidableEq, Repr

def Error.message : Error → String
  | .usage cause => cause.message
  | .fetch cause => cause.message
  | .order cause => cause.message FetchError.message
  | .write cause => s!"failed to write program: {cause.message}"
  | .output path cause => s!"cannot write '{path}': {cause.message}"

abbrev Action := EStateM Error Host

/-- An action on a cache as one on the host's disk. -/
def onDisk {α : Type} (action : Cache.Action α) : Action α := do
  let h ← get
  match action h.disk with
  | .ok a disk =>
    set { h with disk }
    return a
  | .error e disk =>
    set { h with disk }
    throw (.fetch (.cache e))

def writeOutput (path : String) (bytes : Bytes) : Action Unit := do
  let h ← get
  match Disk.writeFile path bytes h.disk with
  | .ok _ disk => set { h with disk }
  | .error cause disk =>
    set { h with disk }
    throw (.output path cause)

def settings (i : Invocation) : Settings := if i.minify then { minify := some true } else {}

def fetch (c : Cache) (d : Disk) (path : String) (r : Registry) : Except FetchError Archive × Registry :=
  match c.load d path r with
  | (.ok (some a), i) => (.ok a, i.packages)
  | (.ok none, i) => (.error (.notCached path), i.packages)
  | (.error e, i) => (.error (.cache e), i.packages)

def loader (c : Cache) (d : Disk) : Loader Registry FetchError := ⟨fetch c d, c.capacity d⟩

/-- The link order of a package of which all that it needs is in the cache. -/
def cachedOrder (c : Cache) (d : Disk) (runtime package : String) : Except Error (List Archive) :=
  match fetch c d package .empty with
  | (.error e, _) => .error (.fetch e)
  | (.ok entry, r) =>
    match (LinkOrder.ofEntry (loader c d) runtime entry r).1 with
    | .ok pkgs => .ok pkgs
    | .error e => .error (.order e)

/-- Prepare the cache and find the link order of the package asked for. -/
def linkOrder (i : Invocation) : Action (List Archive) := do
  let c : Cache := { dir := i.cacheDir }
  onDisk c.prepare
  match cachedOrder c (← get).disk (settings i).runtimePackage i.package with
  | .ok pkgs => return pkgs
  | .error e => throw e

def importPaths (i : Invocation) : Action (List String) := do
  return (← linkOrder i).map (·.importPath)

structure PackageShare where
  importPath : String
  selected : Nat
  total : Nat
  deriving DecidableEq, Repr

def shares (i : Invocation) : Action (List PackageShare) := do
  let pkgs ← linkOrder i
  let selection := Selection.live pkgs
  return pkgs.mapIdx fun p pkg => ⟨pkg.importPath, selection.countOfPackage p, pkg.declarations.length⟩

/-- The name that a source map gives the program. -/
def mapFile (i : Invocation) : String := (i.output.bind Path.fileName?).getD "out.js"

/-- Write or print the linked program, and write its source map if one is asked for. -/
def link (i : Invocation) : Action Tally := do
  let pkgs ← linkOrder i
  let outcome := Linker.link (settings i) pkgs i.sourceMap.isSome
  match i.output with
  | some path => writeOutput path outcome.output
  | none => modify (·.print outcome.output)
  match outcome.tally with
  | .error e => throw (.write e)
  | .ok tally =>
    if let some path := i.sourceMap then
      writeOutput path (Text.Utf8.encode (SourceMap.ofMappings (mapFile i) outcome.mappings).toJson)
    return tally

end Command
end Linkage
