/-!
# Variable-length numbers

A signed number as base-64 digits: the lowest bit of the first digit is the sign, each digit holds five bits, least
significant first, and a sixth bit says that another digit follows.
-/
namespace Linkage.Vlq

def alphabet : List Char :=
  "ABCDEFGHIJKLMNOPQRSTUVWXYZabcdefghijklmnopqrstuvwxyz0123456789+/".toList

def digitChar (d : Nat) : Char := alphabet.getD d 'A'

/-- The absolute value of a number as a word without sign. -/
def magnitude (v : Int64) : UInt64 := if v < 0 then (-v).toUInt64 else v.toUInt64

/-- The bits of a number: its absolute value, shifted by one bit to make room for the sign. -/
def bits (v : Int64) : UInt64 := (magnitude v <<< 1) ||| (if v < 0 then 1 else 0)

def digits (n : Nat) : List Nat :=
  if n < 32 then [n] else (n % 32 + 32) :: digits (n / 32)
termination_by n

def encode (v : Int64) : List Char := (digits (bits v).toNat).map digitChar

def delta (current previous : Nat) : Int64 := Int64.ofNat current - Int64.ofNat previous

end Linkage.Vlq
