import Linkage.Text.Utf8
import Mathlib.Algebra.Group.Nat.Defs

/-!
# Decoding is the inverse of encoding

Every text has one encoding, and `decode` accepts that encoding alone.
-/
namespace Linkage.Text.Utf8

/-- The last `n` bytes of the encoding of the character number `v`, with six bits of it in each. -/
def trail : Nat → Nat → Bytes
  | 0, _ => []
  | n + 1, v => UInt8.ofNat (v / 64 ^ n % 64 + 0x80) :: trail n v

/-- The character number `v` begins with the bits read so far, and the next byte is one of those expected. -/
structure Pending.Begins (p : Pending) (v : Nat) : Prop where
  value : p.value = v / 64 ^ p.more
  low : p.low.toNat ≤ v / 64 ^ (p.more - 1) % 64 + 0x80
  high : v / 64 ^ (p.more - 1) % 64 + 0x80 ≤ p.high.toNat

def Pending.next (p : Pending) (b : UInt8) : Pending where
  more := p.more - 1
  low := 0x80
  high := 0xBF
  value := p.value * 64 + b.toNat % 64
  seen := p.seen + 1

theorem toNat_trail (n v : Nat) : (UInt8.ofNat (v / 64 ^ n % 64 + 0x80)).toNat = v / 64 ^ n % 64 + 0x80 := by
  rw [UInt8.toNat_ofNat']
  omega

theorem div_pow_succ (v n : Nat) : v / 64 ^ (n + 1) * 64 + v / 64 ^ n % 64 = v / 64 ^ n := by
  rw [Nat.pow_succ, ← Nat.div_div_eq_div_mul]
  omega

/-! ### The rest of a character -/

variable {index : Nat} {done : List Char} {bytes : Bytes} {s : String} {p : Pending}

/-- The range of a trail byte and the bits it adds say whether a value begins as pending and has that byte next. -/
theorem begins_iff {n v : Nat} {b : UInt8} (more : p.more = n + 1) (low : 0x80 ≤ p.low.toNat)
    (high : p.high.toNat ≤ 0xBF) :
    p.Begins v ∧ b = UInt8.ofNat (v / 64 ^ n % 64 + 0x80) ↔
      (p.low ≤ b ∧ b ≤ p.high) ∧ p.value * 64 + b.toNat % 64 = v / 64 ^ n := by
  have joined := div_pow_succ v n
  constructor
  · rintro ⟨begins, rfl⟩
    -- The six bits of the byte stand behind those read so far.
    have value := begins.value
    have fromLow := begins.low
    have toHigh := begins.high
    rw [more] at value fromLow toHigh
    rw [UInt8.le_iff_toNat_le, UInt8.le_iff_toNat_le, toNat_trail, value]
    refine ⟨⟨fromLow, toHigh⟩, ?_⟩
    omega
  · rintro ⟨⟨fromLow, toHigh⟩, value⟩
    rw [UInt8.le_iff_toNat_le] at fromLow toHigh
    -- The byte carries six bits, and its two highest ones are those of every byte of a trail.
    have bits : v / 64 ^ n % 64 + 0x80 = b.toNat := by omega
    refine ⟨⟨?_, ?_, ?_⟩, ?_⟩
    · rw [more]
      omega
    · rw [more, Nat.add_sub_cancel, bits]
      exact fromLow
    · rw [more, Nat.add_sub_cancel, bits]
      exact toHigh
    · rw [bits, UInt8.ofNat_toNat]

theorem decodeFrom_pending (index : Nat) (done : List Char) (p : Pending) (b : UInt8) (rest : Bytes) :
    decodeFrom index done (some p) (b :: rest) =
      if p.low ≤ b ∧ b ≤ p.high then
        if p.more ≤ 1 then
          decodeFrom (index + p.seen + 1) (Char.ofNat (p.value * 64 + b.toNat % 64) :: done) none rest
        else
          decodeFrom index done (some (p.next b)) rest
      else .error (.invalid p.seen index) := by
  rw [decodeFrom.eq_def]
  rfl

/-- A pending character is completed by the trail of a value that begins with its bits, and by nothing else. -/
theorem decodeFrom_some_iff {n : Nat} (more : p.more = n + 1) (low : 0x80 ≤ p.low.toNat) (high : p.high.toNat ≤ 0xBF) :
    decodeFrom index done (some p) bytes = .ok s ↔
      ∃ v rest, p.Begins v ∧ bytes = trail (n + 1) v ++ rest ∧
        decodeFrom (index + p.seen + (n + 1)) (Char.ofNat v :: done) none rest = .ok s := by
  -- Induction on how many bytes are still to come; each of them is the first of what remains of the trail.
  induction n generalizing p bytes with
  | zero =>
    constructor
    · intro decoded
      cases bytes with
      | nil => exact absurd decoded (by simp [decodeFrom])
      | cons b rest =>
        rw [decodeFrom_pending, more, if_pos (Nat.le_refl 1)] at decoded
        split at decoded
        next range =>
          obtain ⟨begins, byte⟩ := (begins_iff (b := b) (v := p.value * 64 + b.toNat % 64) more low high).mpr
            ⟨range, (Nat.div_one _).symm⟩
          exact ⟨_, rest, begins, congrArg (· :: rest) byte, decoded⟩
        next => exact absurd decoded (by simp)
    · rintro ⟨v, rest, begins, rfl, decoded⟩
      obtain ⟨range, value⟩ := (begins_iff more low high).mp ⟨begins, rfl⟩
      rw [trail, List.cons_append, decodeFrom_pending, if_pos range, more, if_pos (Nat.le_refl 1), value,
        Nat.pow_zero, Nat.div_one]
      exact decoded
  | succ n ih =>
    have several : ¬ p.more ≤ 1 := by omega
    have fewer : p.more - 1 = n + 1 := by omega
    have passed (b : UInt8) : index + (p.next b).seen + (n + 1) = index + p.seen + (n + 1 + 1) := by
      simp only [Pending.next]
      omega
    constructor
    · intro decoded
      cases bytes with
      | nil => exact absurd decoded (by simp [decodeFrom])
      | cons b rest =>
        rw [decodeFrom_pending, if_neg several] at decoded
        split at decoded
        next range =>
          obtain ⟨v, rest, continues, rfl, completed⟩ :=
            (ih (p := p.next b) fewer (Nat.le_refl 0x80) (Nat.le_refl 0xBF)).mp decoded
          have value : p.value * 64 + b.toNat % 64 = v / 64 ^ (p.more - 1) := continues.value
          rw [fewer] at value
          obtain ⟨begins, byte⟩ := (begins_iff more low high).mpr ⟨range, value⟩
          rw [passed] at completed
          exact ⟨v, rest, begins, congrArg (· :: (trail (n + 1) v ++ rest)) byte, completed⟩
        next => exact absurd decoded (by simp)
    · rintro ⟨v, rest, begins, rfl, decoded⟩
      obtain ⟨range, value⟩ := (begins_iff more low high).mp ⟨begins, rfl⟩
      rw [trail, List.cons_append, decodeFrom_pending, if_pos range, if_neg several]
      refine (ih (p := p.next _) fewer (Nat.le_refl 0x80) (Nat.le_refl 0xBF)).mpr ⟨v, rest, ⟨?_, ?_, ?_⟩, rfl, ?_⟩
      · simp only [Pending.next]
        rw [fewer]
        exact value
      · exact Nat.le_add_left _ _
      · have six := Nat.mod_lt (v / 64 ^ (p.more - 1 - 1)) (show 0 < 64 by decide)
        exact Nat.add_le_add_right (Nat.le_of_lt_succ six) 0x80
      · rw [passed]
        exact decoded

/-! ### First bytes -/

/-- The first bytes of the characters that take two, three or four, and what each of them announces. -/
inductive Form : UInt8 → Pending → Prop
  | two (x : Nat) (least : 2 ≤ x) (most : x < 32) : Form (UInt8.ofNat (x + 0xC0)) ⟨1, 0x80, 0xBF, x, 1⟩
  | three (x : Nat) (most : x < 16) :
    Form (UInt8.ofNat (x + 0xE0)) ⟨2, if x = 0 then 0xA0 else 0x80, if x = 13 then 0x9F else 0xBF, x, 1⟩
  | four (x : Nat) (most : x < 5) :
    Form (UInt8.ofNat (x + 0xF0)) ⟨3, if x = 0 then 0x90 else 0x80, if x = 4 then 0x8F else 0xBF, x, 1⟩

/-- Each form of a first byte is announced as the decoder announces it. -/
theorem lead_of_form {b : UInt8} (form : Form b p) : lead b = some p := by
  -- There are 51 such bytes.
  have two : ∀ x < 32, 2 ≤ x → lead (UInt8.ofNat (x + 0xC0)) = some ⟨1, 0x80, 0xBF, x, 1⟩ := by decide
  have three : ∀ x < 16, lead (UInt8.ofNat (x + 0xE0)) =
      some ⟨2, if x = 0 then 0xA0 else 0x80, if x = 13 then 0x9F else 0xBF, x, 1⟩ := by decide
  have four : ∀ x < 5, lead (UInt8.ofNat (x + 0xF0)) =
      some ⟨3, if x = 0 then 0x90 else 0x80, if x = 4 then 0x8F else 0xBF, x, 1⟩ := by decide
  cases form with
  | two x least most => exact two x most least
  | three x most => exact three x most
  | four x most => exact four x most

theorem bounds_of_lead {b : UInt8} (announced : lead b = some p) : 0xC2 ≤ b.toNat ∧ b.toNat ≤ 0xF4 := by
  unfold lead at announced
  simp only [UInt8.le_iff_toNat_le, ← UInt8.toNat_inj, UInt8.reduceToNat] at announced
  repeat' split at announced
  all_goals first
    | omega
    | contradiction

/-- The first bytes the decoder accepts are those of the three forms, so no other byte begins a long character. -/
theorem lead_iff {b : UInt8} : lead b = some p ↔ Form b p := by
  refine ⟨fun announced => ?_, lead_of_form⟩
  -- Some form has the byte, and what it announces is what `lead` answers.
  have only {b : UInt8} {q : Pending} (announced : lead b = some p) (form : Form b q) : Form b p := by
    rw [lead_of_form form] at announced
    exact Option.some.inj announced ▸ form
  obtain ⟨least, most⟩ := bounds_of_lead announced
  have base {k : Nat} (above : k ≤ b.toNat) : b = UInt8.ofNat (b.toNat - k + k) := by
    rw [Nat.sub_add_cancel above, UInt8.ofNat_toNat]
  rcases (by omega : b.toNat < 0xE0 ∨ 0xE0 ≤ b.toNat ∧ b.toNat < 0xF0 ∨ 0xF0 ≤ b.toNat) with two | three | four
  · rw [base (k := 0xC0) (by omega)] at announced ⊢
    exact only announced (.two _ (by omega) (by omega))
  · rw [base three.1] at announced ⊢
    exact only announced (.three _ (by omega))
  · rw [base four] at announced ⊢
    exact only announced (.four _ (by omega))

namespace Form

variable {b : UInt8}

theorem not_lt (form : Form b p) : ¬ b < 0x80 := by
  rw [UInt8.lt_iff_toNat_lt]
  cases form <;> simp only [UInt8.toNat_ofNat', UInt8.reduceToNat] <;> omega

theorem more (form : Form b p) : p.more = p.more - 1 + 1 := by
  cases form <;> rfl

theorem seen (form : Form b p) : p.seen = 1 := by
  cases form <;> rfl

theorem low (form : Form b p) : 0x80 ≤ p.low.toNat := by
  cases form with
  | two => exact Nat.le_refl 0x80
  | three | four => dsimp only; split <;> decide

theorem high (form : Form b p) : p.high.toNat ≤ 0xBF := by
  cases form with
  | two => exact Nat.le_refl 0xBF
  | three | four => dsimp only; split <;> decide

end Form

theorem toNat_ofNat {v : Nat} (valid : v.isValidChar) : (Char.ofNat v).val.toNat = v := by
  rw [Char.ofNat, dif_pos valid]
  rfl

/-- A value that begins as a form says is a character, and its encoding is the first byte and its trail. -/
theorem Form.encode {b : UInt8} {v : Nat} (form : Form b p) (begins : p.Begins v) :
    v.isValidChar ∧ String.utf8EncodeChar (Char.ofNat v) = b :: trail p.more v := by
  -- The range of the second byte leaves only numbers of characters that need this many bytes.
  obtain ⟨value, low, high⟩ := begins
  unfold Nat.isValidChar
  cases form with
  | two x least most =>
    simp only [Nat.reducePow] at value
    have valid : v < 0xD800 ∨ 0xDFFF < v ∧ v < 0x110000 := by omega
    have range : ¬ v ≤ 0x7F ∧ v ≤ 0x7FF := by omega
    refine ⟨valid, ?_⟩
    have first : v / 64 % 0x20 = x := by omega
    simp only [String.utf8EncodeChar, toNat_ofNat valid, range, ite_false, ite_true, first, trail, Nat.reducePow,
      Nat.div_one]
  | three x most =>
    simp only [Nat.reducePow, Nat.reduceSub] at value low high
    -- Numbers below 0x800 have a shorter form, and those from 0xD800 to 0xDFFF are no characters.
    have above : 0x20 ≤ v / 64 := by
      split at low
      next none => simp only [UInt8.reduceToNat] at low; omega
      next some_ => omega
    have apart : v / 64 < 0x360 ∨ 0x37F < v / 64 := by
      split at high
      next surrogate => simp only [UInt8.reduceToNat] at high; omega
      next other => omega
    have valid : v < 0xD800 ∨ 0xDFFF < v ∧ v < 0x110000 := by omega
    have range : ¬ v ≤ 0x7F ∧ ¬ v ≤ 0x7FF ∧ v ≤ 0xFFFF := by omega
    have first : v / 4096 % 0x10 = x := by omega
    refine ⟨valid, ?_⟩
    simp only [String.utf8EncodeChar, toNat_ofNat valid, range, ite_false, ite_true, first, trail, Nat.reducePow,
      Nat.div_one]
  | four x most =>
    simp only [Nat.reducePow, Nat.reduceSub] at value low high
    -- Numbers below 0x10000 have a shorter form, and 0x10FFFF is the last character.
    have above : 0x10 ≤ v / 4096 := by
      split at low
      next none => simp only [UInt8.reduceToNat] at low; omega
      next some_ => omega
    have below : v / 4096 < 0x110 := by
      split at high
      next last => simp only [UInt8.reduceToNat] at high; omega
      next other => omega
    have valid : v < 0xD800 ∨ 0xDFFF < v ∧ v < 0x110000 := by omega
    have range : ¬ v ≤ 0x7F ∧ ¬ v ≤ 0x7FF ∧ ¬ v ≤ 0xFFFF := by omega
    have first : v / 262144 % 0x08 = x := by omega
    refine ⟨valid, ?_⟩
    simp only [String.utf8EncodeChar, toNat_ofNat valid, range, ite_false, first, trail, Nat.reducePow, Nat.div_one]

/-- Every character beyond ASCII has one of the three forms. -/
theorem exists_form {c : Char} (long : 0x7F < c.toNat) : ∃ b p, Form b p ∧ p.Begins c.toNat := by
  have valid : c.toNat < 0xD800 ∨ 0xDFFF < c.toNat ∧ c.toNat < 0x110000 := c.valid
  generalize c.toNat = v at long valid
  rcases (by omega : v ≤ 0x7FF ∨ 0x7FF < v ∧ v ≤ 0xFFFF ∨ 0xFFFF < v) with two | three | four
  · refine ⟨_, _, .two (v / 64) (by omega) (by omega), rfl, ?_, ?_⟩
    · exact Nat.le_add_left _ _
    · simp only [Nat.reduceSub, UInt8.reduceToNat, Nat.reducePow]
      omega
  · refine ⟨_, _, .three (v / 4096) (by omega), rfl, ?_, ?_⟩
    · simp only [Nat.reduceSub, Nat.reducePow]
      split <;> simp only [UInt8.reduceToNat] <;> omega
    · simp only [Nat.reduceSub, Nat.reducePow]
      split <;> simp only [UInt8.reduceToNat] <;> omega
  · refine ⟨_, _, .four (v / 262144) (by omega), rfl, ?_, ?_⟩
    · simp only [Nat.reduceSub, Nat.reducePow]
      split <;> simp only [UInt8.reduceToNat] <;> omega
    · simp only [Nat.reduceSub, Nat.reducePow]
      split <;> simp only [UInt8.reduceToNat] <;> omega

/-! ### Whole texts -/

theorem length_trail (n v : Nat) : (trail n v).length = n := by
  induction n with
  | zero => rfl
  | succ n ih => rw [trail, List.length_cons, ih]

theorem encode_short {v : Nat} (short : v ≤ 0x7F) : String.utf8EncodeChar (Char.ofNat v) = [UInt8.ofNat v] := by
  have valid : v.isValidChar := .inl (by omega)
  simp only [String.utf8EncodeChar, toNat_ofNat valid, short, ite_true]

theorem decodeFrom_byte (index : Nat) (done : List Char) {b : UInt8} (short : b < 0x80) (rest : Bytes) :
    decodeFrom index done none (b :: rest) = decodeFrom (index + 1) (Char.ofNat b.toNat :: done) none rest := by
  rw [decodeFrom.eq_def]
  exact if_pos short

theorem decodeFrom_lead (index : Nat) (done : List Char) {b : UInt8} (long : ¬ b < 0x80) (rest : Bytes) :
    decodeFrom index done none (b :: rest) =
      match lead b with
      | some p => decodeFrom index done (some p) rest
      | none => .error (.invalid 1 index) := by
  rw [decodeFrom.eq_def]
  exact if_neg long

/-- A decoder at a character boundary reads the encoding of a character as that character. -/
theorem decodeFrom_char (c : Char) (rest : Bytes)
    (decoded : decodeFrom (index + (String.utf8EncodeChar c).length) (c :: done) none rest = .ok s) :
    decodeFrom index done none (String.utf8EncodeChar c ++ rest) = .ok s := by
  rcases Nat.lt_or_ge 0x7F c.toNat with long | short
  · obtain ⟨b, p, form, begins⟩ := exists_form long
    have encoded := (form.encode begins).2
    rw [Char.ofNat_toNat] at encoded
    rw [encoded, List.length_cons, length_trail] at decoded
    rw [encoded, List.cons_append, decodeFrom_lead index done form.not_lt, lead_of_form form]
    refine (decodeFrom_some_iff form.more form.low form.high).mpr ⟨c.toNat, rest, begins, ?_, ?_⟩
    · rw [← form.more]
    · rw [Char.ofNat_toNat, ← form.more, form.seen, Nat.add_assoc, Nat.add_comm 1]
      exact decoded
  · have encoded := encode_short short
    have byte : (UInt8.ofNat c.toNat).toNat = c.toNat := by
      rw [UInt8.toNat_ofNat']
      omega
    rw [Char.ofNat_toNat] at encoded
    rw [encoded] at decoded ⊢
    rw [List.singleton_append, decodeFrom_byte, byte, Char.ofNat_toNat]
    · exact decoded
    · rw [UInt8.lt_iff_toNat_lt, byte]
      exact Nat.lt_succ_of_le short

/-- What a decoder at a character boundary accepts begins with the encoding of a character. -/
theorem exists_char_of_decodeFrom {b : UInt8} {rest : Bytes}
    (decoded : decodeFrom index done none (b :: rest) = .ok s) :
    ∃ c behind, b :: rest = String.utf8EncodeChar c ++ behind ∧
      decodeFrom (index + (String.utf8EncodeChar c).length) (c :: done) none behind = .ok s := by
  by_cases short : b < 0x80
  · rw [decodeFrom_byte index done short] at decoded
    have encoded := encode_short (Nat.le_of_lt_succ (UInt8.lt_iff_toNat_lt.mp short))
    rw [UInt8.ofNat_toNat] at encoded
    exact ⟨Char.ofNat b.toNat, rest, by rw [encoded]; rfl, by rw [encoded]; exact decoded⟩
  · rw [decodeFrom_lead index done short] at decoded
    split at decoded
    next p announced =>
      have form := lead_iff.mp announced
      obtain ⟨v, behind, begins, rfl, completed⟩ := (decodeFrom_some_iff form.more form.low form.high).mp decoded
      have encoded := (form.encode begins).2
      rw [← form.more] at completed ⊢
      refine ⟨Char.ofNat v, behind, by rw [encoded]; rfl, ?_⟩
      rw [encoded, List.length_cons, length_trail, Nat.add_comm _ 1, ← Nat.add_assoc, ← form.seen]
      exact completed
    next => exact absurd decoded (by simp)

/-- The encoding of a list of characters decodes to them. -/
theorem decodeFrom_encode (chars : List Char) :
    decodeFrom index done none (chars.flatMap String.utf8EncodeChar) = .ok (String.ofList (done.reverse ++ chars)) := by
  induction chars generalizing index done with
  | nil => rw [List.append_nil]; rfl
  | cons c rest ih =>
    rw [List.flatMap_cons]
    apply decodeFrom_char
    rw [ih, List.reverse_cons, List.append_assoc, List.singleton_append]

/-- Bytes that decode are the encoding of what they decode to, so no character has two encodings. -/
theorem encode_of_decodeFrom (decoded : decodeFrom index done none bytes = .ok s) :
    ∃ chars, s = String.ofList (done.reverse ++ chars) ∧ bytes = chars.flatMap String.utf8EncodeChar := by
  -- A character takes up to four bytes, so the induction is on how many bytes there are.
  induction length : bytes.length using Nat.strongRecOn generalizing index done bytes with
  | ind size ih =>
    cases bytes with
    | nil =>
      refine ⟨[], ?_, rfl⟩
      rw [List.append_nil]
      exact (Except.ok.inj decoded).symm
    | cons b rest =>
      obtain ⟨c, behind, split, decoded⟩ := exists_char_of_decodeFrom decoded
      have shorter : behind.length < size := by
        have positive := List.length_pos_iff.mpr (String.utf8EncodeChar_ne_nil (c := c))
        rw [← length, split, List.length_append]
        omega
      obtain ⟨chars, rfl, rfl⟩ := ih behind.length shorter decoded rfl
      refine ⟨c :: chars, ?_, ?_⟩
      · rw [List.reverse_cons, List.append_assoc, List.singleton_append]
      · rw [split, List.flatMap_cons]

/-- Decoding gives a text from the encoding of that text, and from nothing else. -/
theorem decode_eq_ok_iff : decode bytes = .ok s ↔ bytes = encode s := by
  constructor
  · intro decoded
    obtain ⟨chars, rfl, rfl⟩ := encode_of_decodeFrom decoded
    rw [encode, List.reverse_nil, List.nil_append, String.toList_ofList]
  · rintro rfl
    rw [decode, encode, decodeFrom_encode, List.reverse_nil, List.nil_append, String.ofList_toList]

end Linkage.Text.Utf8
