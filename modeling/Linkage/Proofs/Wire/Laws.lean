import Linkage.Wire
import Linkage.Proofs.Text.Utf8
import Mathlib.Algebra.Group.Nat.Defs

/-!
# Laws of the wire format

A format restores a value from what it has written of it, and a canonical format reads nothing else. Both laws hold
of each basic format, and every way to build formats keeps them.
-/
namespace Linkage

namespace Bytes

/-- A number read back from its bytes is cut to their width. -/
theorem toNatLE_ofNatLE (width n : Nat) : toNatLE (ofNatLE width n) = n % 256 ^ width := by
  induction width generalizing n with
  | zero => simp [ofNatLE, toNatLE, Nat.mod_one]
  | succ width ih =>
    rw [ofNatLE, toNatLE, ih, Nat.pow_succ, Nat.mul_comm (256 ^ width), Nat.mod_mul]
    simp

theorem toNatLE_lt (bytes : Bytes) : toNatLE bytes < 256 ^ bytes.length := by
  induction bytes with
  | nil => exact Nat.one_pos
  | cons b rest ih =>
    have byte := b.toNat_lt
    rw [toNatLE, List.length_cons, Nat.pow_succ]
    omega

theorem ofNatLE_toNatLE (bytes : Bytes) : ofNatLE bytes.length (toNatLE bytes) = bytes := by
  induction bytes with
  | nil => rfl
  | cons b rest ih =>
    have byte := b.toNat_lt
    have lowest : UInt8.ofNat (b.toNat + 256 * toNatLE rest) = b := by
      apply UInt8.toNat_inj.mp
      rw [UInt8.toNat_ofNat']
      omega
    have others : (b.toNat + 256 * toNatLE rest) / 256 = toNatLE rest := by omega
    rw [toNatLE, List.length_cons, ofNatLE, lowest, others, ih]

end Bytes

namespace Wire

variable {α β τ : Type} {data rest : Bytes} {n : Nat} {e : Error}

/-! ### Readers -/

/-- A step and the next succeed when the first leaves what the second accepts. -/
theorem bind_eq_ok {first : Reader α} {next : α → Reader β} {b : β} :
    (first >>= next) data = .ok (b, rest) ↔
      ∃ a middle, first data = .ok (a, middle) ∧ next a middle = .ok (b, rest) := by
  change (first data >>= fun (a, middle) => next a middle) = _ ↔ _
  cases first data with
  | error cause => simp [bind, Except.bind]
  | ok found =>
    obtain ⟨a, middle⟩ := found
    constructor
    · intro later
      exact ⟨a, middle, rfl, later⟩
    · rintro ⟨_, _, same, later⟩
      cases same
      exact later

theorem pure_eq_ok {a b : α} : (pure a : Reader α) data = .ok (b, rest) ↔ a = b ∧ data = rest := by
  change Except.ok (a, data) = _ ↔ _
  rw [Except.ok.injEq, Prod.mk.injEq]

/-- To take bytes succeeds when that many stand in front. -/
theorem take_eq_ok {front : Bytes} : take n e data = .ok (front, rest) ↔ data = front ++ rest ∧ front.length = n := by
  simp only [take]
  split
  next enough =>
    rw [Except.ok.injEq, Prod.mk.injEq]
    constructor
    · rintro ⟨rfl, rfl⟩
      exact ⟨(List.take_append_drop n data).symm, enough⟩
    · rintro ⟨rfl, rfl⟩
      exact ⟨List.take_left .., List.drop_left ..⟩
  next short =>
    constructor
    · intro failed
      exact absurd failed (by simp)
    · rintro ⟨rfl, rfl⟩
      exact absurd (by rw [List.take_left]) short

theorem throw_ne_ok {a : α} : (throw e : Reader α) data ≠ .ok (a, rest) := by
  intro failed
  cases failed

namespace Format

/-- What was written of a value is read as that value, whatever comes after it. A value that takes `2 ^ 64` bytes may
have more items than a count can tell. -/
structure Restoring (f : Format α) : Prop where
  positive : ∀ a, 0 < (f.write a).length
  read_write : ∀ a rest, (f.write a).length < 2 ^ 64 → f.read (f.write a ++ rest) = .ok (a, rest)

/-- A value is read from nothing but what is written of it. -/
def Canonical (f : Format α) : Prop :=
  ∀ ⦃data a rest⦄, f.read data = .ok (a, rest) → data = f.write a ++ rest

/-! ### Numbers and flags -/

theorem word_restoring : word.Restoring where
  positive n := by simp [word]
  read_write n rest _ := by
    refine bind_eq_ok.mpr ⟨word.write n, rest, take_eq_ok.mpr ⟨rfl, Bytes.length_ofNatLE ..⟩, ?_⟩
    refine pure_eq_ok.mpr ⟨?_, rfl⟩
    have small : n.toNat % 256 ^ 4 = n.toNat := Nat.mod_eq_of_lt n.toNat_lt
    simp only [word, Bytes.toNatLE_ofNatLE]
    rw [small, UInt32.ofNat_toNat]

theorem word_canonical : word.Canonical := by
  intro data n rest found
  obtain ⟨front, middle, taken, rfl, rfl⟩ := by simpa only [word, bind_eq_ok, pure_eq_ok] using found
  obtain ⟨rfl, four⟩ := take_eq_ok.mp taken
  have small := Bytes.toNatLE_lt front
  have whole := Bytes.ofNatLE_toNatLE front
  rw [four] at small whole
  have value : (UInt32.ofNat (Bytes.toNatLE front)).toNat = Bytes.toNatLE front := by
    rw [UInt32.toNat_ofNat']
    exact Nat.mod_eq_of_lt small
  simp only [word, value, whole]

/-- A count below 2 ^ 64 reads back from the front of any bytes. -/
theorem read_count (small : n < 2 ^ 64) (rest : Bytes) : count.read (count.write n ++ rest) = .ok (n, rest) := by
  refine bind_eq_ok.mpr ⟨count.write n, rest, take_eq_ok.mpr ⟨rfl, Bytes.length_ofNatLE ..⟩, ?_⟩
  refine pure_eq_ok.mpr ⟨?_, rfl⟩
  simp only [count, Bytes.toNatLE_ofNatLE]
  exact Nat.mod_eq_of_lt small

theorem count_canonical : count.Canonical := by
  intro data n rest found
  obtain ⟨front, middle, taken, rfl, rfl⟩ := by simpa only [count, bind_eq_ok, pure_eq_ok] using found
  obtain ⟨rfl, eight⟩ := take_eq_ok.mp taken
  have whole := Bytes.ofNatLE_toNatLE front
  rw [eight] at whole
  simp only [count, whole]

theorem length_count (n : Nat) : (count.write n).length = 8 := Bytes.length_ofNatLE ..

theorem flag_restoring : flag.Restoring where
  positive b := Nat.one_pos
  read_write b rest _ := by
    cases b <;> rfl

theorem flag_canonical : flag.Canonical := by
  intro data b rest read
  obtain ⟨front, middle, taken, found⟩ := bind_eq_ok.mp read
  obtain ⟨rfl, one⟩ := take_eq_ok.mp taken
  split at found
  next =>
    obtain ⟨rfl, rfl⟩ := pure_eq_ok.mp found
    rfl
  next =>
    obtain ⟨rfl, rfl⟩ := pure_eq_ok.mp found
    rfl
  next => exact absurd found throw_ne_ok

/-! ### Variants -/

/-- A tag is read when it names one of the variants, and from its own four bytes only. -/
theorem readVariant_eq_ok {variants tag : Nat} (few : variants ≤ 256 ^ 4) :
    readVariant variants data = .ok (tag, rest) ↔ tag < variants ∧ data = writeVariant tag ++ rest := by
  constructor
  · intro read
    obtain ⟨front, middle, taken, found⟩ := bind_eq_ok.mp read
    obtain ⟨rfl, four⟩ := take_eq_ok.mp taken
    have whole := Bytes.ofNatLE_toNatLE front
    rw [four] at whole
    split at found
    next known =>
      obtain ⟨rfl, rfl⟩ := pure_eq_ok.mp found
      exact ⟨known, by rw [writeVariant, whole]⟩
    next => exact absurd found throw_ne_ok
  · rintro ⟨known, rfl⟩
    have number : Bytes.toNatLE (writeVariant tag) = tag := by
      rw [writeVariant, Bytes.toNatLE_ofNatLE]
      exact Nat.mod_eq_of_lt (Nat.lt_of_lt_of_le known few)
    refine bind_eq_ok.mpr ⟨writeVariant tag, rest, take_eq_ok.mpr ⟨rfl, Bytes.length_ofNatLE ..⟩, ?_⟩
    rw [number, if_pos known]
    rfl

theorem length_variant (tag : Nat) : (writeVariant tag).length = 4 := Bytes.length_ofNatLE ..

/-! ### Texts and raw bytes -/

/-- Bytes behind their length read back whole, whatever follows. -/
theorem read_counted (bytes rest : Bytes) (small : (count.write bytes.length ++ bytes).length < 2 ^ 64) :
    (count.read >>= fun n => take n e) (count.write bytes.length ++ bytes ++ rest) = .ok (bytes, rest) := by
  have fits : bytes.length < 2 ^ 64 := by
    rw [List.length_append] at small
    omega
  rw [List.append_assoc]
  exact bind_eq_ok.mpr ⟨bytes.length, bytes ++ rest, read_count fits _, take_eq_ok.mpr ⟨rfl, rfl⟩⟩

theorem eq_of_read_counted {bytes : Bytes} (found : (count.read >>= fun n => take n e) data = .ok (bytes, rest)) :
    data = count.write bytes.length ++ bytes ++ rest := by
  obtain ⟨n, middle, counted, taken⟩ := bind_eq_ok.mp found
  obtain ⟨rfl, rfl⟩ := take_eq_ok.mp taken
  rw [count_canonical counted, List.append_assoc]

theorem blob_restoring : blob.Restoring where
  positive bytes := by simp only [blob, List.length_append, length_count]; omega
  read_write bytes rest small := read_counted bytes rest small

theorem blob_canonical : blob.Canonical := fun _ _ _ found => eq_of_read_counted found

theorem text_restoring : text.Restoring where
  positive s := by simp only [text, List.length_append, length_count]; omega
  read_write s rest small := by
    have bytes := read_counted (e := .shortText) (Text.Utf8.encode s) rest small
    obtain ⟨n, middle, counted, taken⟩ := bind_eq_ok.mp bytes
    refine bind_eq_ok.mpr ⟨n, middle, counted, bind_eq_ok.mpr ⟨_, rest, taken, ?_⟩⟩
    rw [Text.Utf8.decode_eq_ok_iff.mpr rfl]
    rfl

theorem text_canonical : text.Canonical := by
  intro data s rest read
  obtain ⟨n, middle, counted, read⟩ := bind_eq_ok.mp read
  obtain ⟨bytes, behind, taken, found⟩ := bind_eq_ok.mp read
  -- Only the encoding of a text is decoded to it.
  cases decoded : Text.Utf8.decode bytes with
  | error cause =>
    rw [decoded] at found
    exact absurd found throw_ne_ok
  | ok t =>
    rw [decoded] at found
    obtain ⟨rfl, rfl⟩ := pure_eq_ok.mp found
    obtain rfl := Text.Utf8.decode_eq_ok_iff.mp decoded
    exact eq_of_read_counted (bind_eq_ok.mpr ⟨n, middle, counted, taken⟩)

/-! ### Lists -/

/-- Items written in a row are read back in a row, behind those already read. -/
theorem readMany_write {item : Format α} {items : List α} (done : List α) (rest : Bytes)
    (reads : ∀ a ∈ items, ∀ rest, item.read (item.write a ++ rest) = .ok (a, rest)) :
    readMany item.read items.length done (items.flatMap item.write ++ rest) = .ok (done.reverse ++ items, rest) := by
  induction items generalizing done with
  | nil => exact pure_eq_ok.mpr ⟨(List.append_nil _).symm, rfl⟩
  | cons a items ih =>
    obtain ⟨here, later⟩ := List.forall_mem_cons.mp reads
    -- What follows the first item is the encoding of the others and the rest.
    have first := here (items.flatMap item.write ++ rest)
    have others := ih (a :: done) later
    rw [List.reverse_cons, List.append_assoc, List.singleton_append] at others
    rw [List.flatMap_cons, List.append_assoc]
    exact bind_eq_ok.mpr ⟨a, _, first, others⟩

/-- Canonical items stand in the bytes they were read from as they are written. -/
theorem eq_of_readMany {item : Format α} (canonical : item.Canonical) {done all : List α}
    (found : readMany item.read n done data = .ok (all, rest)) :
    ∃ items, items.length = n ∧ all = done.reverse ++ items ∧ data = items.flatMap item.write ++ rest := by
  induction n generalizing done data with
  | zero =>
    obtain ⟨rfl, rfl⟩ := pure_eq_ok.mp found
    exact ⟨[], rfl, (List.append_nil _).symm, rfl⟩
  | succ n ih =>
    obtain ⟨a, middle, first, others⟩ := bind_eq_ok.mp found
    obtain ⟨items, rfl, rfl, rfl⟩ := ih others
    refine ⟨a :: items, rfl, ?_, ?_⟩
    · rw [List.reverse_cons, List.append_assoc, List.singleton_append]
    · rw [canonical first, List.flatMap_cons, List.append_assoc]

/-- A list has no more items than bytes, since each takes at least one. -/
theorem length_le_flatMap_write {item : Format α} (positive : ∀ a, 0 < (item.write a).length) (items : List α) :
    items.length ≤ (items.flatMap item.write).length := by
  induction items with
  | nil => exact Nat.le_refl 0
  | cons a items ih =>
    have first := positive a
    rw [List.flatMap_cons, List.length_append, List.length_cons]
    omega

theorem length_write_le_flatMap (item : Format α) {items : List α} {a : α} (member : a ∈ items) :
    (item.write a).length ≤ (items.flatMap item.write).length := by
  obtain ⟨front, back, rfl⟩ := List.append_of_mem member
  simp only [List.flatMap_append, List.flatMap_cons, List.length_append]
  omega

/-- The list form of the law for items that are themselves short enough to be counted. -/
theorem read_list {item : Format α} (positive : ∀ a, 0 < (item.write a).length) {items : List α} (rest : Bytes)
    (reads : ∀ a ∈ items, ∀ rest, item.read (item.write a ++ rest) = .ok (a, rest))
    (small : (item.list.write items).length < 2 ^ 64) :
    item.list.read (item.list.write items ++ rest) = .ok (items, rest) := by
  have counted := length_le_flatMap_write positive items
  simp only [list, List.length_append] at small ⊢
  -- Each item takes a byte at least, so the count fits if the items do.
  have fits : items.length < 2 ^ 64 := by omega
  rw [List.append_assoc]
  exact bind_eq_ok.mpr ⟨items.length, _, read_count fits _, readMany_write [] rest reads⟩

theorem list_restoring {item : Format α} (restoring : item.Restoring) : item.list.Restoring where
  positive items := by simp only [list, List.length_append, length_count]; omega
  read_write items rest small := by
    refine read_list restoring.positive rest (fun a member rest => restoring.read_write a rest ?_) small
    have short : (item.write a).length ≤ (items.flatMap item.write).length := length_write_le_flatMap item member
    simp only [list, List.length_append] at small
    omega

theorem list_canonical {item : Format α} (canonical : item.Canonical) : item.list.Canonical := by
  intro data all rest found
  obtain ⟨n, middle, counted, found⟩ := bind_eq_ok.mp found
  obtain ⟨items, rfl, rfl, rfl⟩ := eq_of_readMany canonical found
  rw [count_canonical counted, ← List.append_assoc]
  rfl

/-! ### Optional values, pairs and structures -/

theorem optional_restoring {item : Format α} (restoring : item.Restoring) : item.optional.Restoring where
  positive
    | none => Nat.one_pos
    | some a => Nat.succ_pos _
  read_write
    | none, rest, _ => rfl
    | some a, rest, small => by
      refine bind_eq_ok.mpr ⟨[1], item.write a ++ rest, take_eq_ok.mpr ⟨rfl, rfl⟩, ?_⟩
      exact bind_eq_ok.mpr ⟨a, rest, restoring.read_write a rest (Nat.lt_of_succ_lt small), rfl⟩

theorem optional_canonical {item : Format α} (canonical : item.Canonical) : item.optional.Canonical := by
  intro data a rest read
  obtain ⟨front, middle, taken, found⟩ := bind_eq_ok.mp read
  obtain ⟨rfl, one⟩ := take_eq_ok.mp taken
  split at found
  next =>
    obtain ⟨rfl, rfl⟩ := pure_eq_ok.mp found
    rfl
  next =>
    obtain ⟨value, behind, inner, built⟩ := bind_eq_ok.mp found
    obtain ⟨rfl, rfl⟩ := pure_eq_ok.mp built
    rw [canonical inner]
    rfl
  next => exact absurd found throw_ne_ok

theorem pair_restoring {first : Format α} {second : Format β} (one : first.Restoring) (other : second.Restoring) :
    (first.pair second).Restoring where
  positive value := by
    have positive := one.positive value.1
    simp only [pair, List.length_append]
    omega
  read_write value rest small := by
    simp only [pair, List.length_append] at small ⊢
    rw [List.append_assoc]
    refine bind_eq_ok.mpr ⟨value.1, _, one.read_write _ _ (by omega), ?_⟩
    exact bind_eq_ok.mpr ⟨value.2, rest, other.read_write _ _ (by omega), rfl⟩

/-- A pair read is the first part as it is written and the second read from behind it. -/
theorem read_pair {first : Format α} {second : Format β} (canonical : first.Canonical) {value : α × β}
    (found : (first.pair second).read data = .ok (value, rest)) :
    ∃ behind, data = first.write value.1 ++ behind ∧ second.read behind = .ok (value.2, rest) := by
  obtain ⟨a, middle, one, found⟩ := bind_eq_ok.mp found
  obtain ⟨b, behind, other, found⟩ := bind_eq_ok.mp found
  obtain ⟨rfl, rfl⟩ := pure_eq_ok.mp found
  exact ⟨middle, canonical one, other⟩

theorem pair_canonical {first : Format α} {second : Format β} (one : first.Canonical) (other : second.Canonical) :
    (first.pair second).Canonical := by
  intro data value rest read
  obtain ⟨behind, rfl, found⟩ := read_pair one read
  rw [other found, ← List.append_assoc]
  rfl

theorem imap_restoring {f : Format α} {build : α → β} {parts : β → α} (restoring : f.Restoring)
    (rebuild : ∀ b, build (parts b) = b) : (f.imap build parts).Restoring where
  positive b := restoring.positive (parts b)
  read_write b rest small := by
    refine bind_eq_ok.mpr ⟨parts b, rest, restoring.read_write _ _ small, ?_⟩
    rw [rebuild]
    rfl

/-- A value built from parts was read as its parts. -/
theorem read_imap {f : Format α} {build : α → β} {parts : β → α} {b : β}
    (found : (f.imap build parts).read data = .ok (b, rest)) : ∃ a, b = build a ∧ f.read data = .ok (a, rest) := by
  obtain ⟨a, middle, inner, found⟩ := bind_eq_ok.mp found
  obtain ⟨rfl, rfl⟩ := pure_eq_ok.mp found
  exact ⟨a, rfl, inner⟩

theorem imap_canonical {f : Format α} {build : α → β} {parts : β → α} (canonical : f.Canonical)
    (divide : ∀ a, parts (build a) = a) : (f.imap build parts).Canonical := by
  intro data b rest found
  obtain ⟨a, rfl, inner⟩ := read_imap found
  simp only [imap, divide]
  exact canonical inner

/-! ### Beginnings -/

/-- Both laws together: what is written of a value has no other reading, so nothing is read from a part of it. -/
theorem Restoring.read_of_isPrefix {f : Format α} (restoring : f.Restoring) (canonical : f.Canonical) {a : α}
    (small : (f.write a).length < 2 ^ 64) {short : Bytes} (begins : short <+: f.write a) (proper : short ≠ f.write a) :
    ∃ cause, f.read short = .error cause := by
  cases read : f.read short with
  | error cause => exact ⟨cause, rfl⟩
  | ok found =>
    obtain ⟨b, rest⟩ := found
    obtain ⟨tail, whole⟩ := begins
    have written := canonical read
    have length := congrArg List.length whole
    rw [written] at whole length
    simp only [List.length_append] at length
    have other := restoring.read_write b (rest ++ tail) (by omega)
    have own := restoring.read_write a [] small
    rw [List.append_nil, ← whole, List.append_assoc, other] at own
    obtain ⟨rfl, none⟩ := Prod.mk.inj (Except.ok.inj own)
    rw [List.append_eq_nil_iff] at none
    exact absurd (by rw [written, none.1, List.append_nil]) proper

/-! ### Formats that end in another one -/

/-- A value is written as bytes of its own and then its last part, and it is read from the same bytes and then
whatever its last part is read from. -/
structure EndsIn (f : Format α) (last : Format τ) (part : α → τ) (front : α → Bytes) : Prop where
  write_eq : ∀ a, f.write a = front a ++ last.write (part a)
  read_eq : ∀ ⦃data a rest⦄, f.read data = .ok (a, rest) →
    ∃ behind, data = front a ++ behind ∧ last.read behind = .ok (part a, rest)

theorem endsIn_self (f : Format α) : f.EndsIn f id fun _ => [] where
  write_eq _ := rfl
  read_eq data _ _ found := ⟨data, rfl, found⟩

/-- Behind a canonical part, a format ends in what its second part ends in. -/
theorem EndsIn.pair {first : Format β} {f : Format α} {last : Format τ} {part : α → τ} {front : α → Bytes}
    (canonical : first.Canonical) (ends : f.EndsIn last part front) :
    (first.pair f).EndsIn last (part ·.2) fun value => first.write value.1 ++ front value.2 where
  write_eq value := by
    rw [List.append_assoc, ← ends.write_eq]
    rfl
  read_eq data value rest read := by
    obtain ⟨middle, rfl, found⟩ := read_pair canonical read
    obtain ⟨behind, rfl, tail⟩ := ends.read_eq found
    exact ⟨behind, (List.append_assoc ..).symm, tail⟩

theorem EndsIn.imap {f : Format α} {last : Format τ} {part : α → τ} {front : α → Bytes} {build : α → β} {parts : β → α}
    {part' : β → τ} (ends : f.EndsIn last part front) (divide : ∀ a, parts (build a) = a)
    (same : ∀ b, part (parts b) = part' b) :
    (f.imap build parts).EndsIn last part' fun b => front (parts b) where
  write_eq b := by
    rw [← same]
    exact ends.write_eq (parts b)
  read_eq data b rest read := by
    obtain ⟨a, rfl, found⟩ := read_imap read
    rw [← same, divide]
    exact ends.read_eq found

end Format
end Wire
end Linkage
