/-!
# Byte strings

Everything the linker reads or writes is a list of bytes. Numbers are laid out in base 256, least
significant byte first, except in position markers, which put the most significant byte first.
-/
namespace Linkage

abbrev Bytes := List UInt8

namespace Bytes

/-- The `width` lowest base-256 digits of a number, least significant first. -/
def ofNatLE : Nat → Nat → Bytes
  | 0, _ => []
  | width + 1, n => UInt8.ofNat n :: ofNatLE width (n / 256)

/-- The number whose base-256 digits are given, least significant first. -/
def toNatLE : Bytes → Nat
  | [] => 0
  | b :: rest => b.toNat + 256 * toNatLE rest

/-- The `width` lowest base-256 digits of a number, most significant first. -/
def ofNatBE (width n : Nat) : Bytes := (ofNatLE width n).reverse

/-- The number whose base-256 digits are given, most significant first. -/
def toNatBE (bytes : Bytes) : Nat := toNatLE bytes.reverse

@[simp] theorem length_ofNatLE (width n : Nat) : (ofNatLE width n).length = width := by
  induction width generalizing n with
  | zero => rfl
  | succ width ih => simp [ofNatLE, ih]

private def hexDigit (n : Nat) : Char := Nat.digitChar n

/-- Two lowercase hexadecimal digits for each byte. -/
def toHex (bytes : Bytes) : String :=
  String.ofList (bytes.flatMap fun b => [hexDigit (b.toNat / 16), hexDigit (b.toNat % 16)])

theorem toList_toHex (bytes : Bytes) :
    (toHex bytes).toList = bytes.flatMap fun b => [Nat.digitChar (b.toNat / 16), Nat.digitChar (b.toNat % 16)] := by
  simp [toHex, hexDigit]

end Bytes
end Linkage
