import Linkage.Bytes
import Linkage.Position.Bisect

/-!
# Source files

A source file owns a range of handles: `base` stands for its first byte and `base + size` for its end. The offset
of a handle in that range becomes a line and a column through the offsets where lines start.
-/
namespace Linkage

/-- A place in a source text. Lines and columns count from one. -/
structure Position where
  file : String
  line : UInt32
  column : UInt32
  deriving DecidableEq, Repr

def Position.render (p : Position) : String := s!"{p.file}:{p.line}:{p.column}"

structure SourceFile where
  name : String
  -- The first handle of the file.
  base : UInt32
  -- How many bytes the file has.
  size : UInt32
  -- The byte offsets where lines start.
  lineStarts : Array UInt32
  deriving DecidableEq, Repr

def checkedAdd (a b : UInt32) : Option UInt32 :=
  if a.toNat + b.toNat < UInt32.size then some (a + b) else none

namespace SourceFile

def newline : UInt8 := 0x0A

def offsetsAfterNewlines (source : Bytes) : List UInt32 :=
  source.zipIdx.filterMap fun (b, i) => if b = newline then some (UInt32.ofNat (i + 1)) else none

/-- Offsets and sizes are words: a source longer than a word can count has them reduced. -/
def ofSource (name : String) (base : UInt32) (source : Bytes) : SourceFile where
  name := name
  base := base
  size := UInt32.ofNat source.length
  lineStarts := (0 :: offsetsAfterNewlines source).toArray

/-- The handle for the end of the file belongs to it. -/
def contains (f : SourceFile) (handle : UInt32) : Bool :=
  f.base ≤ handle && handle - f.base ≤ f.size

def startsBy (f : SourceFile) (offset : UInt32) (i : Nat) : Bool :=
  match f.lineStarts[i]? with
  | some start => start ≤ offset
  | none => false

/-- The line and column of an offset, unless no line covers it or the column is no word. -/
def lineColumn? (f : SourceFile) (offset : UInt32) : Option (UInt32 × UInt32) := do
  let i ← Position.lastLow? (f.startsBy offset) f.lineStarts.size
  let start ← f.lineStarts[i]?
  let column ← checkedAdd (offset - start) 1
  return (UInt32.ofNat (i + 1), column)

/-- One past the last handle of the file, if there is such a handle. -/
def next? (f : SourceFile) : Option UInt32 := do
  checkedAdd (← checkedAdd f.base f.size) 1

end SourceFile
end Linkage
