import Linkage.Position.File

/-!
# Position tables

The source files of one package share the handles. Each file takes one handle more than it has bytes, and the next file
begins where it ends, so that the end of one is never the beginning of another. Handle zero belongs to no file.
-/
namespace Linkage

structure PositionTable where
  files : Array SourceFile
  deriving DecidableEq, Repr

/-- A layout rule that a table breaks, and the file that breaks it. -/
inductive LayoutError where
  | zeroBase (file : String)
  | handleOverflow (file : String)
  | missingFirstLine (file : String)
  | unorderedLines (file : String)
  | lineOutOfRange (file : String)
  | overlap (file : String)
  deriving DecidableEq, Repr

def LayoutError.message : LayoutError → String
  | .zeroBase file => s!"source file '{file}' starts at handle 0"
  | .handleOverflow file => s!"source file '{file}' runs past the end of the handle space"
  | .missingFirstLine file => s!"source file '{file}' has no line starting at offset 0"
  | .unorderedLines file => s!"source file '{file}' has unordered line starts"
  | .lineOutOfRange file => s!"source file '{file}' has a line starting past its end"
  | .overlap file => s!"source file '{file}' overlaps the file before it"

def ascending : List UInt32 → Bool
  | a :: b :: rest => a < b && ascending (b :: rest)
  | _ => true

/-- The first rule that a file breaks on its own; otherwise the handle after it. -/
def SourceFile.checkLayout (f : SourceFile) : Except LayoutError UInt32 :=
  if f.base = 0 then .error (.zeroBase f.name)
  else match f.next? with
    | none => .error (.handleOverflow f.name)
    | some next =>
      if f.lineStarts[0]? ≠ some 0 then .error (.missingFirstLine f.name)
      else if !ascending f.lineStarts.toList then .error (.unorderedLines f.name)
      else if f.lineStarts.back?.any (f.size < ·) then .error (.lineOutOfRange f.name)
      else .ok next

namespace PositionTable

def empty : PositionTable := ⟨#[]⟩

/-- Add a file after the last one. The answer is its first handle and the new table, or nothing if the handles do not
reach. -/
def register (t : PositionTable) (name : String) (source : Bytes) : Option (UInt32 × PositionTable) := do
  let base ← match t.files.back? with
    | some last => last.next?
    | none => some 1
  let file := SourceFile.ofSource name base source
  let _ ← file.next?
  return (base, ⟨t.files.push file⟩)

/-- Check files in turn, where `free` is the least handle the first of them may own. -/
def checkFrom (free : UInt32) : List SourceFile → Except LayoutError Unit
  | [] => .ok ()
  | f :: rest => do
    let next ← f.checkLayout
    if f.base < free then throw (.overlap f.name)
    checkFrom next rest

/-- Every file keeps the layout rules and lies after the files before it. -/
def check (t : PositionTable) : Except LayoutError Unit := checkFrom 1 t.files.toList

def beginsBy (t : PositionTable) (handle : UInt32) (i : Nat) : Bool :=
  match t.files[i]? with
  | some f => f.base ≤ handle
  | none => false

/-- The place a handle stands for, unless no file owns it. -/
def position? (t : PositionTable) (handle : UInt32) : Option Position := do
  if handle = 0 then none
  let i ← Position.lastLow? (t.beginsBy handle) t.files.size
  let f ← t.files[i]?
  if !f.contains handle then none
  let (line, column) ← f.lineColumn? (handle - f.base)
  return ⟨f.name, line, column⟩

end PositionTable
end Linkage
