import Linkage.Output.Marker
import Linkage.Output.Sink
import Linkage.Position.Table

/-!
# Emitters

An emitter stands in front of a sink and knows the line and column of the next byte it will pass on. If it maps, it
takes the markers out of what is written and reports for each one where it stood and which source position its
handle has in the table in force. A marker may be cut anywhere between two writes. If it does not map, markers pass
like all other bytes.
-/
namespace Linkage

/-- A place in the output, its line counted from one and its column from zero, and where it comes from. -/
structure Mapping where
  line : Nat
  column : Nat
  origin : Option Position
  deriving DecidableEq, Repr

structure Emitter where
  sink : Sink := {}
  -- Whether markers are taken out and reported.
  maps : Bool := false
  -- The table that handles are looked up in.
  table : Option PositionTable := none
  -- How many newlines have passed.
  line : Nat := 0
  -- How many bytes have passed since the last newline.
  column : Nat := 0
  -- How many bytes have passed.
  passed : Nat := 0
  -- The beginning of a marker whose end is still to come.
  cut : Bytes := []
  mappings : Array Mapping := #[]

/-- A part of what is written to an emitter that maps. -/
inductive Piece where
  | plain (bytes : Bytes)
  | marker (handle : UInt32)
  -- The beginning of a marker at the end of the data.
  | cut (bytes : Bytes)
  deriving DecidableEq, Repr

namespace Piece

/-- Take data apart at its markers. The bytes `before`, last one first, belong to the first piece. -/
def split (before : Bytes) : Bytes → List Piece
  | [] => [plain before.reverse]
  | b :: rest =>
    if b = Marker.sentinel then
      match rest with
      | h₁ :: h₂ :: h₃ :: h₄ :: rest =>
        plain before.reverse :: marker (Marker.handle h₁ h₂ h₃ h₄) :: split [] rest
      | _ => [plain before.reverse, cut (b :: rest)]
    else split (b :: before) rest

end Piece

namespace Emitter

abbrev Writing := EStateM WriteError Emitter

def newline : UInt8 := 0x0A

/-- Where the next byte goes: its line counted from one, its column from zero. -/
def position (m : Emitter) : Nat × Nat := (m.line + 1, m.column)

/-- The column after bytes that begin at `column`: how many follow their last newline, if they have one. -/
def columnAfter (column : Nat) (bytes : Bytes) : Nat :=
  match bytes.reverse.idxOf? newline with
  | some behind => behind
  | none => column + bytes.length

/-- Pass bytes on. The position moves only if the sink takes all of them. -/
def pass (bytes : Bytes) : Writing Unit := do
  let m ← get
  let (taken, sink) := m.sink.put bytes
  if taken then
    set { m with
      sink
      line := m.line + bytes.count newline
      column := columnAfter m.column bytes
      passed := m.passed + bytes.length }
  else
    set { m with sink }
    throw .sinkFull

def report (handle : UInt32) : Writing Unit :=
  modify fun m =>
    { m with mappings := m.mappings.push ⟨m.line + 1, m.column, m.table.bind (·.position? handle)⟩ }

def emit : Piece → Writing Unit
  | .plain bytes => pass bytes
  | .marker handle => report handle
  | .cut bytes => modify fun m => { m with cut := bytes }

/-- Write data that follows no cut marker. -/
def writePieces (bytes : Bytes) : Writing Unit := (Piece.split [] bytes).forM emit

/-- Write data. If a marker is cut, the first bytes belong to it. -/
def write (bytes : Bytes) : Writing Unit := do
  let m ← get
  if !m.maps then pass bytes
  else if m.cut.isEmpty then writePieces bytes
  else
    let missing := Marker.length - m.cut.length
    match m.cut ++ bytes.take missing with
    | [_, h₁, h₂, h₃, h₄] =>
      set { m with cut := [] }
      report (Marker.handle h₁ h₂ h₃ h₄)
      writePieces (bytes.drop missing)
    | cut => set { m with cut }

/-- Look handles up in `table` from now on. -/
def setTable (table : Option PositionTable) : Writing Unit := modify fun m => { m with table }

/-- Pass on the beginning of a marker that has no end. -/
def flush : Writing Unit := do
  let m ← get
  set { m with cut := [] }
  pass m.cut

end Emitter
end Linkage
