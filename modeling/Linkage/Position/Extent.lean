import Linkage.Position.Table

/-!
# Extents

What a position table keeps of a source text is how long it is and where its lines end. Both can be told from the
extents of its parts, so that a text that repeats itself may be longer than any that is held in memory.
-/
namespace Linkage

structure Extent where
  length : Nat
  -- The offsets behind the newlines, in ascending order.
  lineEnds : List Nat
  deriving DecidableEq, Repr

namespace Extent

def ofBytes (text : Bytes) : Extent where
  length := text.length
  lineEnds := text.zipIdx.filterMap fun (b, i) => if b = SourceFile.newline then some (i + 1) else none

/-- The extent of one text behind another. -/
def append (e f : Extent) : Extent where
  length := e.length + f.length
  lineEnds := e.lineEnds ++ f.lineEnds.map (e.length + ·)

/-- The extent of a text that is repeated. -/
def times (count : Nat) (e : Extent) : Extent where
  length := count * e.length
  lineEnds :=
    if e.lineEnds.isEmpty then []
    else (List.range count).flatMap fun i => e.lineEnds.map (i * e.length + ·)

end Extent

/-- The file of a text of which only the extent is known. -/
def SourceFile.ofExtent (name : String) (base : UInt32) (e : Extent) : SourceFile where
  name := name
  base := base
  size := UInt32.ofNat e.length
  lineStarts := (0 :: e.lineEnds.map UInt32.ofNat).toArray

/-- Add the file of a text of which only the extent is known. -/
def PositionTable.registerExtent (t : PositionTable) (name : String) (e : Extent) :
    Option (UInt32 × PositionTable) := do
  let base ← match t.files.back? with
    | some last => last.next?
    | none => some 1
  let file := SourceFile.ofExtent name base e
  let _ ← file.next?
  return (base, ⟨t.files.push file⟩)

/-! ### Extents of texts -/

namespace Extent

theorem ofBytes_append (a b : Bytes) : ofBytes (a ++ b) = (ofBytes a).append (ofBytes b) := by
  simp only [ofBytes, append, List.length_append, List.zipIdx_append, List.filterMap_append, Nat.zero_add]
  rw [List.zipIdx_eq_map_add (l := b), List.filterMap_map, List.map_filterMap]
  congr 3
  funext ⟨byte, i⟩
  by_cases ends : byte = SourceFile.newline <;> simp [ends, Nat.add_assoc]

theorem times_succ (count : Nat) (e : Extent) : e.times (count + 1) = (e.times count).append e := by
  cases none : e.lineEnds.isEmpty with
  | true => simp [times, append, Nat.succ_mul, List.isEmpty_iff.mp none]
  | false => simp [times, append, none, Nat.succ_mul, List.range_succ]

theorem ofBytes_flatten_replicate (count : Nat) (text : Bytes) :
    ofBytes (List.replicate count text).flatten = (ofBytes text).times count := by
  induction count with
  | zero =>
    simp only [ofBytes, times, List.replicate_zero, List.flatten_nil, List.length_nil, Nat.zero_mul, List.range_zero,
      List.flatMap_nil, ite_self]
    rfl
  | succ count ih => rw [List.replicate_succ', List.flatten_concat, ofBytes_append, ih, times_succ]

end Extent

theorem SourceFile.ofExtent_ofBytes (name : String) (base : UInt32) (source : Bytes) :
    ofExtent name base (.ofBytes source) = ofSource name base source := by
  simp only [ofExtent, ofSource, offsetsAfterNewlines, Extent.ofBytes, List.map_filterMap, mk.injEq, true_and]
  congr 3
  funext ⟨b, i⟩
  by_cases ends : b = newline <;> simp [ends]

theorem PositionTable.registerExtent_ofBytes (t : PositionTable) (name : String) (source : Bytes) :
    t.registerExtent name (.ofBytes source) = t.register name source := by
  unfold registerExtent register
  cases t.files.back? <;> simp only [SourceFile.ofExtent_ofBytes]

end Linkage
