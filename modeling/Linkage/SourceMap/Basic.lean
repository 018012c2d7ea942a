import Linkage.Output.Emitter
import Linkage.SourceMap.Vlq
import Linkage.Text.Quoted

/-!
# Source maps

A source map of revision 3 collects mappings. A segment is written for each, with its numbers relative to the
segment before that has them; the column of the output starts again at each of its lines.
-/
namespace Linkage

namespace SourceMap

/-- A place in a source file, counted from zero. The file is given by its place in the list of sources. -/
structure Origin where
  file : Nat
  line : Nat
  column : Nat
  deriving DecidableEq, Repr

/-- A mapping with all numbers counted from zero. -/
structure Segment where
  line : Nat
  column : Nat
  origin : Option Origin
  deriving DecidableEq, Repr

end SourceMap

structure SourceMap where
  file : String
  -- The source files, each once, in the order of their first mapping.
  sources : Array String := #[]
  segments : Array SourceMap.Segment := #[]

namespace SourceMap

/-- The place of a source file, and the sources with it. -/
def place (sources : Array String) (file : String) : Nat × Array String :=
  match sources.findIdx? (· = file) with
  | some i => (i, sources)
  | none => (sources.size, sources.push file)

def add (m : SourceMap) (mapping : Mapping) : SourceMap :=
  let line := mapping.line - 1
  match mapping.origin with
  | none => { m with segments := m.segments.push ⟨line, mapping.column, none⟩ }
  | some p =>
    let (i, sources) := place m.sources p.file
    { m with
      sources
      segments := m.segments.push ⟨line, mapping.column, some ⟨i, p.line.toNat - 1, p.column.toNat - 1⟩⟩ }

def ofMappings (file : String) (mappings : List Mapping) : SourceMap := mappings.foldl add { file }

structure Cursor where
  line : Nat := 0
  column : Nat := 0
  origin : Origin := ⟨0, 0, 0⟩
  -- Whether the line has no segment yet.
  fresh : Bool := true

/-- Go to a line further down, with a semicolon for each line end on the way. -/
def Cursor.moveTo (c : Cursor) (line : Nat) : List Char × Cursor :=
  if c.line < line then (List.replicate (line - c.line) ';', { c with line, column := 0, fresh := true })
  else ([], c)

/-- The text of a segment, and where it leaves the cursor. -/
def Cursor.write (c : Cursor) (s : Segment) : List Char × Cursor :=
  let (ends, c) := c.moveTo s.line
  let comma := if c.fresh then [] else [',']
  let column := Vlq.encode (Vlq.delta s.column c.column)
  let c := { c with column := s.column, fresh := false }
  match s.origin with
  | none => (ends ++ comma ++ column, c)
  | some o =>
    (ends ++ comma ++ column ++ Vlq.encode (Vlq.delta o.file c.origin.file) ++
        Vlq.encode (Vlq.delta o.line c.origin.line) ++ Vlq.encode (Vlq.delta o.column c.origin.column),
      { c with origin := o })

/-- The texts of segments that follow `c`, put before the texts `done`, newest first. -/
def writeSegments (c : Cursor) (done : List (List Char)) : List Segment → List (List Char)
  | [] => done.reverse
  | s :: rest =>
    let (chars, c) := c.write s
    writeSegments c (chars :: done) rest

def mappings (m : SourceMap) : String :=
  String.ofList (writeSegments {} [] m.segments.toList).flatten

def toJson (m : SourceMap) : String :=
  let sources := ",".intercalate (m.sources.toList.map Text.Quoted.encode)
  "\x7b\"version\":3,\"file\":" ++ Text.Quoted.encode m.file ++ ",\"sources\":[" ++ sources ++
    "],\"names\":[],\"mappings\":" ++ Text.Quoted.encode m.mappings ++ "\x7d"

end SourceMap
end Linkage
