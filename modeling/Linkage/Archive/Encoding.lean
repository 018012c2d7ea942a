import Linkage.Archive.Basic
import Linkage.Archive.Fault
import Linkage.Output.Sink

/-!
# Encoded archives

Eight fixed bytes, a version number, and the fields of the archive in the wire format. Bytes after them are
ignored. An archive whose position table is out of order does not count as one.
-/
namespace Linkage

open Wire

def SourceFile.format : Format SourceFile :=
  (Format.text.pair (Format.word.pair (Format.word.pair Format.word.list))).imap
    (fun (name, base, size, lineStarts) => ⟨name, base, size, lineStarts.toArray⟩)
    (fun f => (f.name, f.base, f.size, f.lineStarts.toList))

def PositionTable.format : Format PositionTable :=
  SourceFile.format.list.imap (fun files => ⟨files.toArray⟩) (·.files.toList)

def Declaration.format : Format Declaration :=
  (Format.text.pair <| Format.text.list.pair <|
    Format.blob.pair <| Format.blob.pair <| Format.blob.pair <| Format.blob.pair <|
    Format.text.optional.pair <| Format.text.optional.pair <|
    Format.text.list.pair Format.flag).imap
    (fun (fullName, vars, code, methodList, typeInit, init, objectFilter, methodFilter, deps, blocking) =>
      { fullName, vars, code, methodList, typeInit, init, objectFilter, methodFilter, deps, blocking })
    (fun d => (d.fullName, d.vars, d.code, d.methodList, d.typeInit, d.init, d.objectFilter,
      d.methodFilter, d.deps, d.blocking))

def SymbolSources.format : Format SymbolSources :=
  (Format.text.pair Format.text).list.imap .ofList (·.entries)

namespace Archive

def format : Format Archive :=
  (Format.text.pair <| Format.text.pair <| Format.text.list.pair <| Format.blob.pair <|
    Declaration.format.list.pair <| Format.blob.pair <| PositionTable.format.optional.pair <|
    Format.flag.pair <| Format.blob.list.pair SymbolSources.format).imap
    (fun (importPath, name, imports, exportData, declarations, preamble, positions, minified, newCode,
        symbolSources) =>
      { importPath, name, imports, exportData, declarations, preamble, positions, minified, newCode,
        symbolSources })
    (fun a => (a.importPath, a.name, a.imports, a.exportData, a.declarations, a.preamble, a.positions,
      a.minified, a.newCode, a.symbolSources))

/-- The letters `LODEARC` and a zero. -/
def signature : Bytes := [0x4C, 0x4F, 0x44, 0x45, 0x41, 0x52, 0x43, 0x00]

def version : Nat := 1

def encode (a : Archive) : Bytes := signature ++ (Bytes.ofNatLE 4 version ++ format.write a)

end Archive

/-- The archive of `path` did not fit into a sink. -/
structure RefusedArchive where
  path : String
  cause : WriteError
  deriving DecidableEq, Repr

def RefusedArchive.message (e : RefusedArchive) : String := s!"archive '{e.path}': {e.cause.message}"

def Archive.writeTo (a : Archive) (s : Sink) : Except RefusedArchive Unit × Sink :=
  let (taken, s) := s.put a.encode
  (if taken then .ok () else .error ⟨a.importPath, .sinkFull⟩, s)

/-- Data that arrives in a stream, which ends after it or fails. -/
structure Stream where
  data : Bytes
  -- Why the stream fails after its data, if it does not just end.
  failure : Option ReadFailure := none

def Stream.shortage (s : Stream) : Shortage :=
  match s.failure with
  | none => .stream
  | some failure => .broken failure.reason

namespace Archive

/-- The first layout rule that the position table breaks, if there is one. -/
def checkPositions (a : Archive) : Except LayoutError Unit :=
  match a.positions with
  | none => .ok ()
  | some table => table.check

/-- The fields after the twelve bytes of the header. -/
def readFields (path : String) (s : Stream) : Except ArchiveFault Archive :=
  match format.read (s.data.drop 12) with
  | .error cause => .error (.malformed path (.wire cause s.shortage))
  | .ok (archive, _) =>
    match archive.checkPositions with
    | .error cause => .error (.malformed path (.layout cause))
    | .ok () => .ok archive

/-- The archive in a stream; `path` is the import path that faults are reported for. -/
def read (path : String) (s : Stream) : Except ArchiveFault Archive :=
  let header := s.data.take 12
  let found := Bytes.toNatLE (header.drop 8)
  if header.length < 12 then
    match s.failure with
    | none | some ⟨.unexpectedEnd, _⟩ => .error (.malformed path .truncatedHeader)
    | some failure => .error (.unreadable path failure)
  else if header.take 8 ≠ signature then .error (.badSignature path)
  else if found ≠ version then .error (.unsupportedVersion path found version)
  else readFields path s

end Archive
end Linkage
