import Linkage.Command.Line

/-!
# The program

Runs the command line on the machine. The part of the disk that the command can see is read first: the files and
directories on the way to the paths it was given, and the archives that its package can reach. The command then runs
on that disk, and the changes it made there are made on the machine.
-/
namespace Linkage.Machine

def probe (path : String) : IO (Option Entry) := do
  try
    return some (.file (← IO.FS.readBinFile path).toList)
  catch
    | .inappropriateType _ code _ =>
      -- Reading a directory fails with this code, in either sign.
      return if code = 21 ∨ code = 0 - 21 then some .directory else none
    | _ => return none

def note (d : Disk) (path : String) : IO Disk := do
  match d.locate path, ← probe path with
  | .ok place, some entry => return d.put place entry
  | _, _ => return d

/-- The beginnings of a path, each one component longer than the one before. -/
def beginnings (path : String) : List String :=
  let components := Path.components path
  (List.range components.length).map fun n => "/".intercalate (components.take (n + 1))

def noteWay (d : Disk) (path : String) : IO Disk := (beginnings path).foldlM note d

/-- Note the archives for import paths, and those for all that they import. -/
partial def noteArchives (c : Cache) (d : Disk) : List String → IO Disk
  | [] => return d
  | importPath :: rest => do
    if c.has d importPath then noteArchives c d rest
    else
      let d ← note d (c.fileOf importPath)
      let imports := match (c.stream? d importPath).map (Cache.decode importPath) with
        | some (.ok a) => a.imports
        | _ => []
      noteArchives c d (imports ++ rest)

/-- The disk as a command can see it. -/
def survey (i : Invocation) : IO Disk := do
  let here := (← IO.currentDir).toString
  let home := ((Path.components here).filter (· ≠ "")).reverse
  let start : Disk := { home }
  let start := (List.range home.length).foldl (fun d n => d.put (home.drop n) .directory) start
  let c : Cache := { dir := i.cacheDir }
  let d ← ([c.archives, c.stamp] ++ i.output.toList ++ i.sourceMap.toList).foldlM noteWay start
  noteArchives c d [i.package, (Command.settings i).runtimePackage]

def pathOf (place : Location) : String := "/" ++ "/".intercalate place.reverse

def perform : Change → IO Unit
  | .makeDirectory place => IO.FS.createDir (pathOf place)
  | .writeFile place bytes => IO.FS.writeBinFile (pathOf place) ⟨bytes.toArray⟩
  | .removeFile place => IO.FS.removeFile (pathOf place)
  | .removeTree place => IO.FS.removeDirAll (pathOf place)
  | .emptyTree place => do
    IO.FS.removeDirAll (pathOf place)
    IO.FS.createDir (pathOf place)

def run (arguments : List String) : IO UInt32 := do
  let disk ← match Invocation.parse arguments.tail with
    | .ok i => survey i
    | .error _ => pure {}
  let (status, host) := CommandLine.run arguments { disk }
  host.disk.journal.reverse.forM perform
  let output ← IO.getStdout
  output.write ⟨host.printed.toArray⟩
  output.flush
  (← IO.getStderr).putStr host.complaints
  return status.toUInt32

end Linkage.Machine

def main (arguments : List String) : IO UInt32 := Linkage.Machine.run arguments
