import Std.Data.TreeSet
import Linkage.Archive.Basic

/-!
# Link order

Packages are linked in an order in which each comes after all that it imports; the runtime package counts as an import
of the entry package, which is the last one. Packages come from a loader, which is asked for each path at most once. A
path that is requested while it is still pending closes an import cycle.

A loader may keep a state and may answer a path with an archive of another import path. Its capacity bounds how
many paths it can serve, and so how deep imports can nest.
-/
namespace Linkage

/-- Where packages come from. The state `σ` may change with each request, a refusal is an `ε`. -/
structure Loader (σ ε : Type) where
  load : String → σ → Except ε Archive × σ
  capacity : Nat

namespace LinkOrder

variable {σ ε : Type}

inductive Error (ε : Type) where
  -- The loader refused a path.
  | load (path : String) (cause : ε)
  -- Each path imports the next one; the last occurs before.
  | cycle (chain : List String)
  -- Imports nest deeper than the capacity of the loader allows.
  | capacity (path : String)
  deriving DecidableEq, Repr

namespace Error

def path : Error ε → String
  | .load path _ => path
  | .cycle chain => chain.getLastD ""
  | .capacity path => path

def message (cause : ε → String) : Error ε → String
  | .load path e => s!"failed to load package '{path}': {cause e}"
  | .cycle chain => "import cycle: " ++ " -> ".intercalate chain
  | .capacity path => s!"failed to load package '{path}': imports nest too deep"

end Error

structure Walk (σ : Type) where
  -- The state of the loader.
  source : σ
  -- The paths that are being loaded, innermost first.
  pending : List String := []
  -- The paths that need no more work.
  finished : Std.TreeSet String := ∅
  -- The archives in link order, last one first.
  linked : List Archive := []
  -- The paths that the loader was asked for, latest first.
  requests : List String := []

abbrev Walking (σ ε : Type) := EStateM (Error ε) (Walk σ)

def enter (path : String) : Walking σ ε Unit := do
  let w ← get
  if path ∈ w.pending then throw (.cycle (w.pending.reverse ++ [path]))
  set { w with pending := path :: w.pending }

def leave : Walking σ ε Unit :=
  modify fun w =>
    match w.pending with
    | [] => w
    | path :: outer => { w with pending := outer, finished := w.finished.insert path }

def request (loader : Loader σ ε) (path : String) : Walking σ ε Archive := do
  let w ← get
  let (answer, source) := loader.load path w.source
  set { w with source, requests := path :: w.requests }
  match answer with
  | .ok archive => return archive
  | .error cause => throw (.load path cause)

/-- Link an archive that was requested under `path`. One that has another import path is linked only if that path is
not finished. -/
def link (path : String) (archive : Archive) : Walking σ ε Unit :=
  modify fun w =>
    if archive.importPath = path then { w with linked := archive :: w.linked }
    else if w.finished.contains archive.importPath then w
    else { w with finished := w.finished.insert archive.importPath, linked := archive :: w.linked }

/-- Link a path after all that it imports, nesting at most `depth` deep. -/
def visit (loader : Loader σ ε) : (depth : Nat) → String → Walking σ ε Unit
  | 0, path => throw (.capacity path)
  | depth + 1, path => do
    if (← get).finished.contains path then return
    enter path
    let archive ← request loader path
    archive.imports.forM (visit loader depth)
    leave
    link path archive

/-- Link the runtime package and the imports of the entry package, then the entry package. -/
def visitEntry (loader : Loader σ ε) (runtime : String) (entry : Archive) : Walking σ ε Unit := do
  enter entry.importPath
  let visit := visit loader (loader.capacity + 1)
  if entry.importPath ≠ runtime then visit runtime
  entry.imports.forM visit
  leave
  modify fun w => { w with linked := entry :: w.linked }

/-- The packages that `entry` needs, in link order, and the walk as it ended. -/
def ofEntry (loader : Loader σ ε) (runtime : String) (entry : Archive) (source : σ) :
    Except (Error ε) (List Archive) × Walk σ :=
  match visitEntry loader runtime entry { source } with
  | .ok _ w => (.ok w.linked.reverse, w)
  | .error e w => (.error e, w)

end LinkOrder
end Linkage
