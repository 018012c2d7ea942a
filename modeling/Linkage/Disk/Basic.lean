import Linkage.Bytes
import Linkage.Disk.Path
import Linkage.Text.Utf8

/-!
# Disks

A disk holds files and directories. Paths are resolved component by component, and every component but the last has to
be a directory. All changes go through `Disk.change`, which also keeps a journal of them.
-/
namespace Linkage

inductive DiskError where
  | missing
  | alreadyThere
  | notDirectory
  | isDirectory
  | invalid
  | nameTooLong
  | notEmpty
  -- The path holds a character that no name can hold.
  | zeroCharacter
  -- The file holds bytes that are not UTF-8.
  | notText
  deriving DecidableEq, Repr

def DiskError.message : DiskError → String
  | .missing => "No such file or directory (os error 2)"
  | .alreadyThere => "File exists (os error 17)"
  | .notDirectory => "Not a directory (os error 20)"
  | .isDirectory => "Is a directory (os error 21)"
  | .invalid => "Invalid argument (os error 22)"
  | .nameTooLong => "File name too long (os error 36)"
  | .notEmpty => "Directory not empty (os error 39)"
  | .zeroCharacter => "file name contained an unexpected NUL byte"
  | .notText => "stream did not contain valid UTF-8"

/-- Where an entry is: its name and the names of the directories around it, innermost first. -/
abbrev Location := List String

inductive Entry where
  | file (bytes : Bytes)
  | directory
  deriving DecidableEq, Repr

inductive Change where
  | makeDirectory (place : Location)
  -- Create a file or replace what it holds.
  | writeFile (place : Location) (bytes : Bytes)
  | removeFile (place : Location)
  -- Remove a directory and all it holds.
  | removeTree (place : Location)
  -- Remove all that a directory holds.
  | emptyTree (place : Location)
  deriving DecidableEq, Repr

structure Disk where
  -- The entry at each location. The root is a directory without being listed.
  entries : List (Location × Entry) := []
  -- Where relative paths begin.
  home : Location := []
  -- The changes made, latest first.
  journal : List Change := []
  deriving DecidableEq, Repr

namespace Disk

def entryAt (d : Disk) : Location → Option Entry
  | [] => some .directory
  | place => d.entries.lookup place

def put (d : Disk) (place : Location) (e : Entry) : Disk :=
  { d with entries := (place, e) :: d.entries.filter (·.1 ≠ place) }

def remove (d : Disk) (place : Location) : Disk :=
  { d with entries := d.entries.filter (·.1 ≠ place) }

def removeBelow (d : Disk) (place : Location) : Disk :=
  { d with entries := d.entries.filter fun e => !place.isSuffixOf e.1 || e.1 = place }

def apply (d : Disk) : Change → Disk
  | .makeDirectory place => d.put place .directory
  | .writeFile place bytes => d.put place (.file bytes)
  | .removeFile place => d.remove place
  | .removeTree place => (d.removeBelow place).remove place
  | .emptyTree place => d.removeBelow place

def change (d : Disk) (c : Change) : Disk := { d.apply c with journal := c :: d.journal }

/-- The longest name that a disk takes, in bytes. -/
def longestName : Nat := 255

/-- The longest path that a disk takes, in bytes. -/
def longestPath : Nat := 4095

/-- What is wrong with a path whatever the disk holds. -/
def flaw? (path : String) : Option DiskError :=
  if path.toList.contains '\x00' then some .zeroCharacter
  else if path.isEmpty then some .missing
  else if path.utf8ByteSize > longestPath then some .nameTooLong
  else none

def enter (d : Disk) (place : Location) (component : String) : Except DiskError Location :=
  match d.entryAt place with
  | none => .error .missing
  | some (.file _) => .error .notDirectory
  | some .directory =>
    if component = "" ∨ component = "." then .ok place
    else if component = ".." then .ok place.tail
    else if component.utf8ByteSize > longestName then .error .nameTooLong
    else .ok (component :: place)

def walk (d : Disk) (place : Location) (components : List String) : Except DiskError Location :=
  components.foldlM d.enter place

def origin (d : Disk) (path : String) : Location := if Path.isAbsolute path then [] else d.home

/-- The location of a path, whose last component need not exist. -/
def locate (d : Disk) (path : String) : Except DiskError Location :=
  match flaw? path with
  | some flaw => .error flaw
  | none => d.walk (d.origin path) (Path.components path)

def lookup (d : Disk) (path : String) : Except DiskError Entry := do
  match d.entryAt (← d.locate path) with
  | some e => return e
  | none => throw .missing

def has (d : Disk) (path : String) : Bool := (d.lookup path).toBool

def contents (d : Disk) (path : String) : Except DiskError Bytes := do
  match ← d.lookup path with
  | .file bytes => return bytes
  | .directory => throw .isDirectory

def readText (d : Disk) (path : String) : Except DiskError String := do
  match Text.Utf8.decode (← d.contents path) with
  | .ok text => return text
  | .error _ => throw .notText

def list (d : Disk) (path : String) : Except DiskError (List String) := do
  let place ← d.locate path
  match d.entryAt place with
  | none => throw .missing
  | some (.file _) => throw .notDirectory
  | some .directory =>
    return d.entries.filterMap fun (location, _) =>
      match location with
      | name :: around => if around = place then some name else none
      | [] => none

/-- The location of a file that is to be written. A path that ends in a slash is none of a file, whatever name stands
before the slash. -/
def locateTarget (d : Disk) (path : String) : Except DiskError Location := do
  if let some flaw := flaw? path then throw flaw
  let some (before, last) := Path.splitLast? path | throw .isDirectory
  let around ← d.walk (d.origin path) before
  if Path.endsInSlash path then
    let _ ← d.enter around "."
    throw .isDirectory
  d.enter around last

/-- Something done on a disk. What was changed before a failure stays changed. -/
abbrev Action := EStateM DiskError Disk

def ask {α : Type} (question : Disk → Except DiskError α) : Action α := do
  match question (← get) with
  | .ok answer => return answer
  | .error cause => throw cause

/-- Whether components do not lead to another directory but require that there is one. -/
def areDots (components : List String) : Bool :=
  components.contains "." && components.all fun c => c = "" || c = "."

/-- Follow components, creating each directory that is missing, unless nothing but dots follows it. What stands in the
way is found to be there already if it would be the last directory or if one was `made` before it. -/
def makeFrom (made : Bool) (place : Location) : List String → Action Unit
  | [] => return
  | component :: rest => do
    let next ← ask (·.enter place component)
    match (← get).entryAt next with
    | some .directory => makeFrom made next rest
    | some (.file _) => throw (if made || rest.all (·.isEmpty) then .alreadyThere else .notDirectory)
    | none =>
      if areDots rest then throw .missing
      modify (·.change (.makeDirectory next))
      makeFrom true next rest

def makeDirectories (path : String) : Action Unit := do
  match flaw? path with
  | some .missing => return
  | some flaw => throw flaw
  | none => makeFrom false ((← get).origin path) (Path.components path)

def writeFile (path : String) (bytes : Bytes) : Action Unit := do
  let place ← ask (·.locateTarget path)
  if (← get).entryAt place = some .directory then throw .isDirectory
  modify (·.change (.writeFile place bytes))

def removeFile (path : String) : Action Unit := do
  let place ← ask (·.locate path)
  match (← get).entryAt place with
  | none => throw .missing
  | some .directory => throw .isDirectory
  | some (.file _) => modify (·.change (.removeFile place))

/-- Remove a directory and all it holds. One whose path ends in `.` or `..` is emptied but cannot be removed. That
counts as a failure only if the path still leads there. -/
def removeTree (path : String) : Action Unit := do
  let place ← ask (·.locate path)
  match (← get).entryAt place with
  | none => throw .missing
  | some (.file _) => throw .notDirectory
  | some .directory =>
    match Path.splitLast? path with
    | none => modify (·.change (.emptyTree place))
    | some (before, last) =>
      if last = "." ∨ last = ".." then
        modify (·.change (.emptyTree place))
        let d ← get
        if (d.walk (d.origin path) (before ++ ["."])).toBool then
          throw (if last = "." then .invalid else .notEmpty)
      else modify (·.change (.removeTree place))

end Disk
end Linkage
