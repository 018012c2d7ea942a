import Linkage.Proofs.SourceMap.Vlq

/-!
# Writing numbers in words

A number is written from a word of 64 bits, by shifts and masks. Here it is done with a check on each step that may go
wrong: a word has to hold the number that is meant, and each digit has to have a character. Only the least number that
a word with sign can hold fails, for its absolute value leaves no bit for the sign.
-/
namespace Linkage.Vlq

/-- The word, if it holds the number `n` as it is meant to. It does not if a bit was lost. -/
def holding? (w : UInt64) (n : Nat) : Option UInt64 := if w.toNat = n then some w else none

def bits? (v : Int64) : Option UInt64 := do
  let size ← holding? (magnitude v) v.toInt.natAbs
  let shifted ← holding? (size <<< 1) (2 * size.toNat)
  return shifted ||| (if v < 0 then 1 else 0)

theorem toNat_shiftRight_five (w : UInt64) : (w >>> 5).toNat = w.toNat / 32 := by
  rw [UInt64.toNat_shiftRight]
  exact Nat.shiftRight_eq_div_pow w.toNat 5

theorem shiftRight_five_eq_zero_iff (w : UInt64) : w >>> 5 = 0 ↔ w.toNat < 32 := by
  rw [← UInt64.toNat_inj, toNat_shiftRight_five]
  exact Nat.div_eq_zero_iff_lt (by decide)

/-- The characters for a word, five bits at a time. There are none if a digit is not in the alphabet. -/
def spell? (w : UInt64) : Option (List Char) :=
  if last : w >>> 5 = 0 then do
    let c ← alphabet[(w &&& 31).toNat]?
    return [c]
  else do
    let c ← alphabet[((w &&& 31) ||| 32).toNat]?
    let rest ← spell? (w >>> 5)
    return c :: rest
termination_by w.toNat
decreasing_by
  rw [shiftRight_five_eq_zero_iff] at last
  rw [toNat_shiftRight_five]
  omega

/-- Write a number, and fail at the first step that goes wrong. -/
def encode? (v : Int64) : Option (List Char) := do spell? (← bits? v)

/-! ### Digits -/

theorem toNat_and_mask (w : UInt64) : (w &&& 31).toNat = w.toNat % 32 := by
  rw [UInt64.toNat_and]
  exact Nat.and_two_pow_sub_one_eq_mod w.toNat 5

theorem toNat_or_more (w : UInt64) : ((w &&& 31) ||| 32).toNat = w.toNat % 32 + 32 := by
  have free : w.toNat % 32 < 2 ^ 5 := Nat.mod_lt _ (by decide)
  have sum := Nat.two_pow_add_eq_or_of_lt free 1
  rw [UInt64.toNat_or, toNat_and_mask, Nat.or_comm, Nat.add_comm]
  exact sum.symm

theorem getElem?_alphabet {digit : Nat} (inside : digit < 64) : alphabet[digit]? = some (digitChar digit) := by
  have all : ∀ d : Fin 64, alphabet[d.val]? = some (digitChar d) := by decide +kernel
  exact all ⟨digit, inside⟩

/-- Every digit of a word has a character in the alphabet. -/
theorem spell?_eq (w : UInt64) : spell? w = some ((digits w.toNat).map digitChar) := by
  fun_induction spell? w with
  | case1 w last =>
    rw [shiftRight_five_eq_zero_iff] at last
    have digit : w.toNat % 32 = w.toNat := Nat.mod_eq_of_lt last
    rw [toNat_and_mask, digit, getElem?_alphabet (by omega), digits, if_pos last]
    rfl
  | case2 w more ih =>
    rw [shiftRight_five_eq_zero_iff] at more
    rw [toNat_or_more, getElem?_alphabet (by omega), ih, toNat_shiftRight_five]
    conv => rhs; rw [digits, if_neg more]
    rfl

/-- A zero is written for the number zero only, and there it is the only digit. -/
theorem zero_mem_digits_iff (n : Nat) : 0 ∈ digits n ↔ n = 0 := by
  induction n using Nat.strongRecOn with
  | ind n ih =>
    rw [digits]
    split
    next last => rw [List.mem_singleton, eq_comm]
    next more =>
      have lower : n / 32 ≠ 0 := by omega
      rw [List.mem_cons, ih (n / 32) (by omega)]
      omega

/-- Only the text of zero ends in the digit zero. -/
theorem eq_nil_of_encode_eq_concat {v : Int64} {front : List Char} {last : Char}
    (written : encode v = front ++ [last]) (zero : digitValue? last = some 0) : front = [] := by
  have member : last ∈ encode v := by simp [written]
  obtain ⟨digit, inside, rfl⟩ := List.mem_map.mp member
  rw [digitValue?_digitChar (digits_lt inside)] at zero
  cases zero
  -- A text with a zero in it is that of zero, which has one digit.
  rw [encode, (zero_mem_digits_iff _).mp inside, digits] at written
  simpa using congrArg List.length written

/-! ### Words -/

theorem holding?_eq_some {w : UInt64} {n : Nat} (holds : w.toNat = n) : holding? w n = some w := if_pos holds

/-- The absolute value of the least number takes all bits of a word. -/
theorem natAbs_eq_iff (v : Int64) : v.toInt.natAbs = 2 ^ 63 ↔ v = Int64.minValue := by
  have above := v.toInt_lt
  have below := v.le_toInt
  rw [← Int64.toInt_inj, Int64.toInt_minValue]
  omega

theorem toNat_shiftLeft_magnitude_iff (v : Int64) :
    (magnitude v <<< 1).toNat = 2 * (magnitude v).toNat ↔ v ≠ Int64.minValue := by
  have above := v.toInt_lt
  have below := v.le_toInt
  rw [toNat_shiftLeft_one, toNat_magnitude, Ne, ← natAbs_eq_iff]
  omega

/-- The checked shift fails for the least number and for no other. -/
theorem bits?_eq (v : Int64) : bits? v = if v = Int64.minValue then none else some (bits v) := by
  rw [bits?, holding?_eq_some (toNat_magnitude v), Option.bind_eq_bind, Option.bind_some]
  by_cases least : v = Int64.minValue
  · have lost : ¬ (magnitude v <<< 1).toNat = 2 * (magnitude v).toNat :=
      fun kept => (toNat_shiftLeft_magnitude_iff v).mp kept least
    rw [holding?, if_neg lost, if_pos least]
    rfl
  · rw [holding?_eq_some ((toNat_shiftLeft_magnitude_iff v).mpr least), if_neg least]
    rfl

/-- The checked encoder gives the encoding of every number but the least, where it fails. -/
theorem encode?_eq (v : Int64) : encode? v = if v = Int64.minValue then none else some (encode v) := by
  rw [encode?, bits?_eq]
  split
  · rfl
  · exact spell?_eq (bits v)

/-- The least number is written like a negative zero. -/
example : encode Int64.minValue = ['B'] := by decide +kernel

/-- What is written for a number reads back as that number, whatever follows it. A zero at its end is its only digit, it
has no characters but digits, and no step of writing it loses a bit or leaves the alphabet. The distance between two
positions is such a number. -/
theorem encode_within_words :
    (∀ v : Int, -2 ^ 63 < v → v < 2 ^ 63 →
      (∀ rest, read (encode (.ofInt v) ++ rest) = some (v, rest)) ∧
      (∀ front last, encode (.ofInt v) = front ++ [last] → digitValue? last = some 0 → front = []) ∧
      (∀ c ∈ encode (.ofInt v), (digitValue? c).isSome = true) ∧
      encode? (.ofInt v) = some (encode (.ofInt v))) ∧
    (∀ current previous : Nat, current < 2 ^ 63 → previous < 2 ^ 63 →
      (delta current previous).toInt = (current : Int) - previous ∧
      -2 ^ 63 < (delta current previous).toInt ∧ (delta current previous).toInt < 2 ^ 63) := by
  refine ⟨fun v above below => ?_, fun current previous now before => ?_⟩
  · have held : (Int64.ofInt v).toInt = v := Int64.toInt_ofInt_of_le (Int.le_of_lt above) below
    have other : Int64.ofInt v ≠ Int64.minValue := by
      rw [Ne, ← natAbs_eq_iff, held]
      omega
    refine ⟨fun rest => ?_, fun front last => eq_nil_of_encode_eq_concat, fun c => isSome_digitValue?, ?_⟩
    · rw [read_encode (by omega), held]
    · rw [encode?_eq, if_neg other]
  · have distance := toInt_delta now before
    rw [distance]
    exact ⟨rfl, by omega, by omega⟩

namespace Extreme

/-- The numbers of the greatest absolute value. -/
def least : Int := -(2 ^ 63 - 1)

def last : Nat := 2 ^ 63 - 1

end Extreme

open Extreme in
/-- The least number in range fills thirteen digits, zero is one digit, and the farthest steps between two columns are in
range. -/
theorem encode_within_words_extreme :
    (-2 ^ 63 < least ∧ least < 2 ^ 63 ∧ encode (.ofInt least) = "////////////P".toList ∧
      (∀ rest, read ("////////////P".toList ++ rest) = some (least, rest)) ∧
      ('P' ∈ encode (.ofInt least) ∧ (digitValue? 'P').isSome = true) ∧
      encode? (.ofInt least) = some "////////////P".toList) ∧
    (encode (.ofInt 0) = [] ++ ['A'] ∧ digitValue? 'A' = some 0 ∧ ([] : List Char) = []) ∧
    (0 < 2 ^ 63 ∧ last < 2 ^ 63 ∧ (delta 0 last).toInt = least ∧ (delta last 0).toInt = last) := by
  obtain ⟨texts, distances⟩ := encode_within_words
  have written : encode (.ofInt least) = "////////////P".toList := by decide +kernel
  have member : 'P' ∈ encode (.ofInt least) := by
    rw [written]
    decide
  obtain ⟨reads, -, digit, checked⟩ := texts least (by decide) (by decide)
  rw [written] at reads checked
  have zeroWritten : encode (.ofInt 0) = [] ++ ['A'] := by decide +kernel
  have zeroDigit : digitValue? 'A' = some 0 := by decide
  have single := (texts 0 (by decide) (by decide)).2.1 [] 'A' zeroWritten zeroDigit
  have zero : 0 < 2 ^ 63 := by decide
  have inside : last < 2 ^ 63 := by decide
  have back := (distances 0 last zero inside).1
  have forth := (distances last 0 inside zero).1
  exact ⟨⟨by decide, by decide, written, reads, ⟨member, digit 'P' member⟩, checked⟩, ⟨zeroWritten, zeroDigit, single⟩,
    zero, inside, back.trans (by decide), forth.trans (by decide)⟩

end Linkage.Vlq
