import Linkage.SourceMap.Vlq
import Mathlib.Algebra.Group.Int.Defs
import Mathlib.Algebra.Group.Nat.Defs

/-!
# Reading variable-length numbers

A number is read digit by digit from the front of a text. What was written for a number reads back as that number,
whatever follows it.
-/
namespace Linkage.Vlq

/-- The value of a base-64 digit: capital letters, small letters, numerals, plus and slash. -/
def digitValue? (c : Char) : Option Nat :=
  if 'A' ≤ c ∧ c ≤ 'Z' then some (c.toNat - 'A'.toNat)
  else if 'a' ≤ c ∧ c ≤ 'z' then some (c.toNat - 'a'.toNat + 26)
  else if '0' ≤ c ∧ c ≤ '9' then some (c.toNat - '0'.toNat + 52)
  else if c = '+' then some 62
  else if c = '/' then some 63
  else none

/-- The bits at the front of a text, and what follows them. -/
def readBits : List Char → Option (Nat × List Char)
  | [] => none
  | c :: rest => do
    let digit ← digitValue? c
    if digit < 32 then return (digit, rest)
    let (higher, rest) ← readBits rest
    return (digit - 32 + 32 * higher, rest)

/-- The number that bits stand for. The lowest one says whether it is negative. -/
def ofBits (n : Nat) : Int := if n % 2 = 0 then (n / 2 : Nat) else -(n / 2 : Nat)

def read (text : List Char) : Option (Int × List Char) := do
  let (n, rest) ← readBits text
  return (ofBits n, rest)

/-- The reader inverts the alphabet on all 64 digits. -/
theorem digitValue?_digitChar {digit : Nat} (inside : digit < 64) : digitValue? (digitChar digit) = some digit := by
  have all : ∀ d : Fin 64, digitValue? (digitChar d) = some d.val := by decide +kernel
  exact all ⟨digit, inside⟩

theorem digits_lt {n digit : Nat} (member : digit ∈ digits n) : digit < 64 := by
  induction n using Nat.strongRecOn with
  | ind n ih =>
    rw [digits] at member
    split at member
    next last =>
      rw [List.mem_singleton] at member
      omega
    next more =>
      rcases List.mem_cons.mp member with rfl | later
      · omega
      · exact ih (n / 32) (by omega) later

theorem encode_ne_nil (v : Int64) : encode v ≠ [] := by
  rw [encode, digits]
  split <;> simp

theorem isSome_digitValue? {v : Int64} {c : Char} (member : c ∈ encode v) : (digitValue? c).isSome = true := by
  obtain ⟨digit, written, rfl⟩ := List.mem_map.mp member
  rw [digitValue?_digitChar (digits_lt written)]
  rfl

/-- The digits of a number read back as that number, whatever text follows them. -/
theorem readBits_digits (n : Nat) (rest : List Char) :
    readBits ((digits n).map digitChar ++ rest) = some (n, rest) := by
  -- The last digit is what is left when all others are divided out.
  induction n using Nat.strongRecOn with
  | ind n ih =>
    rw [digits]
    split
    next last =>
      have value : digitValue? (digitChar n) = some n := digitValue?_digitChar (by omega)
      simp [readBits, value, last]
    next more =>
      have value : digitValue? (digitChar (n % 32 + 32)) = some (n % 32 + 32) := digitValue?_digitChar (by omega)
      have continued : ¬ n % 32 + 32 < 32 := by omega
      have higher := ih (n / 32) (by omega)
      have whole : n % 32 + 32 * (n / 32) = n := Nat.mod_add_div n 32
      simp [readBits, value, continued, higher, whole]

theorem toNat_magnitude (v : Int64) : (magnitude v).toNat = v.toInt.natAbs := by
  have signed : v.toInt =
      if 2 * v.toBitVec.toNat < 2 ^ 64 then (v.toBitVec.toNat : Int) else v.toBitVec.toNat - 2 ^ 64 :=
    v.toBitVec.toInt_eq_toNat_cond
  have negative : v < 0 ↔ v.toInt < 0 := Int64.lt_iff_toInt_lt
  have width := v.toBitVec.isLt
  rw [magnitude]
  split
  next below =>
    have word : (-v).toUInt64.toNat = (2 ^ 64 - v.toBitVec.toNat) % 2 ^ 64 := BitVec.toNat_neg v.toBitVec
    rw [negative] at below
    rw [word]
    omega
  next above =>
    have word : v.toUInt64.toNat = v.toBitVec.toNat := rfl
    rw [negative] at above
    rw [word]
    omega

theorem toNat_shiftLeft_one (w : UInt64) : (w <<< 1).toNat = w.toNat * 2 % 2 ^ 64 := by
  rw [UInt64.toNat_shiftLeft, UInt64.toNat_one, Nat.shiftLeft_eq]

/-- Short of the least number, doubling the absolute value loses no bit, and the lowest bit is that of the sign. -/
theorem toNat_bits {v : Int64} (small : v.toInt.natAbs < 2 ^ 63) :
    (bits v).toNat = 2 * v.toInt.natAbs + if v.toInt < 0 then 1 else 0 := by
  have sign : (if v < 0 then 1 else 0 : UInt64).toNat = if v.toInt < 0 then 1 else 0 := by
    simp only [Int64.lt_iff_toInt_lt, Int64.toInt_zero]
    split <;> rfl
  have shifted : (magnitude v <<< 1).toNat = 2 * v.toInt.natAbs := by
    rw [toNat_shiftLeft_one, toNat_magnitude]
    omega
  -- The shifted number is even, so the sign does not meet another bit.
  have free : (if v.toInt < 0 then 1 else 0) < 2 ^ 1 := by split <;> decide
  rw [bits, UInt64.toNat_or, shifted, sign]
  exact (Nat.two_pow_add_eq_or_of_lt free v.toInt.natAbs).symm

theorem ofBits_bits {v : Int64} (small : v.toInt.natAbs < 2 ^ 63) : ofBits (bits v).toNat = v.toInt := by
  rw [toNat_bits small, ofBits]
  split <;> split <;> omega

/-- An encoded number reads back from the front of any text, unless its absolute value fills the word. -/
theorem read_encode {v : Int64} (small : v.toInt.natAbs < 2 ^ 63) (rest : List Char) :
    read (encode v ++ rest) = some (v.toInt, rest) := by
  simp [read, encode, readBits_digits, ofBits_bits small]

/-- The difference of two numbers below 2 ^ 63 does not wrap. -/
theorem toInt_delta {current previous : Nat} (now : current < 2 ^ 63) (before : previous < 2 ^ 63) :
    (delta current previous).toInt = (current : Int) - previous := by
  rw [delta, Int64.toInt_sub, Int64.toInt_ofNat_of_lt now, Int64.toInt_ofNat_of_lt before]
  apply Int.bmod_eq_of_le <;> omega

end Linkage.Vlq
