import Linkage.Interface.Basic

/-!
# Encoded interfaces

Kinds and types are written as a variant number followed by the fields of the variant. Bytes after an interface
are ignored.
-/
namespace Linkage

open Wire

def MemberKind.ofTag : Nat → MemberKind
  | 0 => .const
  | 1 => .var
  | 2 => .type
  | _ => .func

def MemberKind.tag : MemberKind → Nat
  | .const => 0
  | .var => 1
  | .type => 2
  | .func => 3

def MemberKind.format : Format MemberKind where
  write kind := writeVariant kind.tag
  read := do return .ofTag (← readVariant 4)

namespace TypeExpr

mutual

def write : TypeExpr → Bytes
  | .basic name => writeVariant 0 ++ Format.text.write name
  | .named package name => writeVariant 1 ++ (Format.text.write package ++ Format.text.write name)
  | .pointer element => writeVariant 2 ++ element.write
  | .slice element => writeVariant 3 ++ element.write
  | .map key value => writeVariant 4 ++ (key.write ++ value.write)
  | .func params results =>
    writeVariant 5 ++ (Format.count.write params.length ++ writeAll params ++
      (Format.count.write results.length ++ writeAll results))

def writeAll : List TypeExpr → Bytes
  | [] => []
  | t :: rest => t.write ++ writeAll rest

end

/-- Reads a type that nests at most `depth` deep. -/
def readWithin : (depth : Nat) → Reader TypeExpr
  | 0 => throw .shortNumber
  | depth + 1 => do
    let many : Reader (List TypeExpr) := do readMany (readWithin depth) (← Format.count.read) []
    match ← readVariant 6 with
    | 0 => return .basic (← Format.text.read)
    | 1 =>
      let package ← Format.text.read
      return .named package (← Format.text.read)
    | 2 => return .pointer (← readWithin depth)
    | 3 => return .slice (← readWithin depth)
    | 4 =>
      let key ← readWithin depth
      return .map key (← readWithin depth)
    | _ =>
      let params ← many
      return .func params (← many)

/-- Each level of nesting takes at least one byte, so the data bounds the depth. -/
def read : Reader TypeExpr := fun data => readWithin (data.length + 1) data

def format : Format TypeExpr := ⟨write, read⟩

end TypeExpr

def Member.format : Format Member :=
  (Format.text.pair (MemberKind.format.pair TypeExpr.format)).imap
    (fun (name, kind, type) => ⟨name, kind, type⟩) (fun o => (o.name, o.kind, o.type))

namespace Interface

def format : Format Interface :=
  (Format.text.pair (Format.text.pair (Format.text.list.pair Member.format.list))).imap
    (fun (path, name, imports, members) => ⟨path, name, imports, members⟩)
    (fun i => (i.path, i.name, i.imports, i.members))

def encode (i : Interface) : Bytes := format.write i

def decode (data : Bytes) : Except Wire.Error Interface := (·.1) <$> format.read data

end Interface
end Linkage
