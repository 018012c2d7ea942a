import Linkage.Text.Utf8

/-!
# The wire format

Values are laid out one after the other: numbers in fixed width with the least significant byte first, a byte for
a flag or for the presence of an optional value, a 64-bit count before the items of a list and before the bytes
of a text. A `Format` says how values of a type are written and read, so that larger formats are built from
smaller ones and the two directions stay together.
-/
namespace Linkage.Wire

inductive Error where
  -- The data ends inside a number, a flag or a tag.
  | shortNumber
  -- The data ends inside a text.
  | shortText
  | badFlag (found : UInt8)
  | badPresence (found : UInt8)
  | badVariant (found count : Nat)
  | badText (cause : Text.Utf8.Error)
  deriving DecidableEq, Repr

/-- What is said of data that ends too early: inside a number, and inside a text. -/
structure Shortage where
  inNumber : String
  inText : String
  deriving DecidableEq, Repr

namespace Shortage

def memory : Shortage := ⟨"unexpected end of file", ""⟩

def stream : Shortage := ⟨"failed to fill whole buffer", "failed to fill whole buffer"⟩

def broken (reason : String) : Shortage := ⟨reason, reason⟩

end Shortage

def Error.message (short : Shortage) : Error → String
  | .shortNumber => s!"io error: {short.inNumber}"
  | .shortText => s!"io error: {short.inText}"
  | .badFlag found => s!"invalid u8 while decoding bool, expected 0 or 1, found {found}"
  | .badPresence found => s!"tag for enum is not valid, found {found}"
  | .badVariant found count =>
    s!"invalid value: integer `{found}`, expected variant index 0 <= i < {count}"
  | .badText cause => s!"string is not valid utf8: {cause.message}"

/-- Reads a value off the front of the data and leaves the rest. -/
abbrev Reader (α : Type) := StateT Bytes (Except Error) α

structure Format (α : Type) where
  write : α → Bytes
  read : Reader α

/-- The first `n` bytes, or `e` if there are not as many. -/
def take (n : Nat) (e : Error) : Reader Bytes := fun data =>
  let front := data.take n
  if front.length = n then .ok (front, data.drop n) else .error e

/-- `n` values, put before the values `done`, newest first. -/
def readMany {α : Type} (item : Reader α) : Nat → List α → Reader (List α)
  | 0, done => pure done.reverse
  | n + 1, done => do
    let a ← item
    readMany item n (a :: done)

def readVariant (count : Nat) : Reader Nat := do
  let tag := Bytes.toNatLE (← take 4 .shortNumber)
  if tag < count then return tag else throw (.badVariant tag count)

def writeVariant (tag : Nat) : Bytes := Bytes.ofNatLE 4 tag

namespace Format

def word : Format UInt32 where
  write n := Bytes.ofNatLE 4 n.toNat
  read := do return UInt32.ofNat (Bytes.toNatLE (← take 4 .shortNumber))

/-- The number of items or bytes that follow. -/
def count : Format Nat where
  write n := Bytes.ofNatLE 8 n
  read := do return Bytes.toNatLE (← take 8 .shortNumber)

def flag : Format Bool where
  write b := [if b then 1 else 0]
  read := do
    match ← take 1 .shortNumber with
    | [0] => return false
    | [1] => return true
    | found => throw (.badFlag (found.headD 0))

def text : Format String where
  write s :=
    let bytes := Text.Utf8.encode s
    count.write bytes.length ++ bytes
  read := do
    let bytes ← take (← count.read) .shortText
    match Text.Utf8.decode bytes with
    | .ok s => return s
    | .error cause => throw (.badText cause)

def blob : Format Bytes where
  write bytes := count.write bytes.length ++ bytes
  read := do take (← count.read) .shortNumber

def list {α : Type} (item : Format α) : Format (List α) where
  write items := count.write items.length ++ items.flatMap item.write
  read := do readMany item.read (← count.read) []

def optional {α : Type} (item : Format α) : Format (Option α) where
  write
    | none => [0]
    | some a => 1 :: item.write a
  read := do
    match ← take 1 .shortNumber with
    | [0] => return none
    | [1] => return some (← item.read)
    | found => throw (.badPresence (found.headD 0))

def pair {α β : Type} (first : Format α) (second : Format β) : Format (α × β) where
  write | (a, b) => first.write a ++ second.write b
  read := do
    let a ← first.read
    let b ← second.read
    return (a, b)

/-- The format of a type that is built from, and taken apart into, values that have a format. -/
def imap {α β : Type} (f : Format α) (build : α → β) (parts : β → α) : Format β where
  write b := f.write (parts b)
  read := do return build (← f.read)

end Format
end Linkage.Wire
