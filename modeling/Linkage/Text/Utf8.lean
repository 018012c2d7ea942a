import Linkage.Bytes

/-!
# UTF-8

Text on the wire is UTF-8. Decoding walks the bytes once; its state is the character begun but not yet
complete. An error names the length of the valid text before it, and how many bytes of the broken
character were still well formed.
-/
namespace Linkage.Text.Utf8

inductive Error where
  -- The bytes from `index` on begin no character; `length` of them are a proper beginning or one byte.
  | invalid (length index : Nat)
  -- The text ends inside a character that begins at `index`.
  | incomplete (index : Nat)
  deriving DecidableEq, Repr

def Error.message : Error → String
  | .invalid length index => s!"invalid utf-8 sequence of {length} bytes from index {index}"
  | .incomplete index => s!"incomplete utf-8 byte sequence from index {index}"

def encode (text : String) : Bytes := text.toList.flatMap String.utf8EncodeChar

/-- A character whose first bytes have been read. -/
structure Pending where
  -- How many bytes are still to come.
  more : Nat
  -- The least and the greatest value of the next byte.
  low : UInt8
  high : UInt8
  -- The bits read so far.
  value : Nat
  -- How many bytes have been read.
  seen : Nat
  deriving DecidableEq

/-- What a first byte of 128 or more announces. The range of the second byte rules out longer forms than
needed, surrogates and numbers above the last character. -/
def lead (b : UInt8) : Option Pending :=
  if 0xC2 ≤ b ∧ b ≤ 0xDF then some ⟨1, 0x80, 0xBF, b.toNat % 32, 1⟩
  else if b = 0xE0 then some ⟨2, 0xA0, 0xBF, 0, 1⟩
  else if b = 0xED then some ⟨2, 0x80, 0x9F, 13, 1⟩
  else if 0xE1 ≤ b ∧ b ≤ 0xEF then some ⟨2, 0x80, 0xBF, b.toNat % 16, 1⟩
  else if b = 0xF0 then some ⟨3, 0x90, 0xBF, 0, 1⟩
  else if b = 0xF4 then some ⟨3, 0x80, 0x8F, 4, 1⟩
  else if 0xF1 ≤ b ∧ b ≤ 0xF3 then some ⟨3, 0x80, 0xBF, b.toNat % 8, 1⟩
  else none

/-- Decode the rest of a text: `index` bytes hold the characters `done`, newest first. -/
def decodeFrom (index : Nat) (done : List Char) : Option Pending → Bytes → Except Error String
  | none, [] => .ok (String.ofList done.reverse)
  | some _, [] => .error (.incomplete index)
  | none, b :: rest =>
    if b < 0x80 then decodeFrom (index + 1) (Char.ofNat b.toNat :: done) none rest
    else match lead b with
      | some pending => decodeFrom index done (some pending) rest
      | none => .error (.invalid 1 index)
  | some p, b :: rest =>
    if p.low ≤ b ∧ b ≤ p.high then
      let value := p.value * 64 + b.toNat % 64
      if p.more ≤ 1 then decodeFrom (index + p.seen + 1) (Char.ofNat value :: done) none rest
      else decodeFrom index done (some ⟨p.more - 1, 0x80, 0xBF, value, p.seen + 1⟩) rest
    else .error (.invalid p.seen index)

/-- The text a byte string holds, or the first place where it is not UTF-8. -/
def decode (bytes : Bytes) : Except Error String := decodeFrom 0 [] none bytes

end Linkage.Text.Utf8
