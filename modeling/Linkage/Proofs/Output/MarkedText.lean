import Linkage.Proofs.Output.ByteMachine
import Linkage.Proofs.Wire.Laws

/-!
# Text with markers in it

The text that is left without its markers, and the place in it where each of them stood. An emitter that maps passes
on the rest of all it is given and reports these places, wherever the writes were cut and whatever table was in force.
-/
namespace Linkage

/-- A marker of a text: how many bytes of the rest stand before it, and its handle. -/
structure Mark where
  offset : Nat
  handle : UInt32
  deriving DecidableEq, Repr

namespace MarkedText

/-- The text without its markers. A sentinel with fewer than four bytes after it is none. -/
def strip : Bytes → Bytes
  | Marker.sentinel :: _ :: _ :: _ :: _ :: rest => strip rest
  | b :: rest => b :: strip rest
  | [] => []

/-- The markers of a text that follows `offset` bytes. -/
def marksFrom (offset : Nat) : Bytes → List Mark
  | Marker.sentinel :: h₁ :: h₂ :: h₃ :: h₄ :: rest =>
    ⟨offset, Marker.bigEndian h₁ h₂ h₃ h₄⟩ :: marksFrom offset rest
  | _ :: rest => marksFrom (offset + 1) rest
  | [] => []

def marks (text : Bytes) : List Mark := marksFrom 0 text

def handles (text : Bytes) : List UInt32 := (marks text).map (·.handle)

/-- The line where a text ends, counted from one, and the bytes of it after the last newline. -/
def ending (text : Bytes) : Nat × Nat :=
  (1 + text.count Emitter.newline, (text.reverse.takeWhile (· ≠ Emitter.newline)).length)

/-- The line, counted from one, and the column, counted from zero, of the byte at `offset`. -/
def placeAt (text : Bytes) (offset : Nat) : Nat × Nat := ending (text.take offset)

/-- Every sentinel begins a whole marker. -/
inductive Complete : Bytes → Prop
  | nil : Complete []
  | byte {b : UInt8} {rest : Bytes} (plain : b ≠ Marker.sentinel) (complete : Complete rest) : Complete (b :: rest)
  | marker {rest : Bytes} (handle : UInt32) (complete : Complete rest) : Complete (Marker.encode handle ++ rest)

end MarkedText

open MarkedText

/-! ### Handles of markers -/

namespace Marker

/-- The four bytes behind the sentinel of a marker spell its handle. -/
theorem exists_bytes_of_handle (handle : UInt32) :
    ∃ h₁ h₂ h₃ h₄, encode handle = [sentinel, h₁, h₂, h₃, h₄] ∧ Marker.handle h₁ h₂ h₃ h₄ = handle := by
  have four : (Bytes.ofNatBE 4 handle.toNat).length = 4 := by simp [Bytes.ofNatBE]
  obtain ⟨h₁, h₂, h₃, h₄, digits⟩ := List.length_eq_four.mp four
  have small : handle.toNat < 256 ^ 4 := handle.toNat_lt
  refine ⟨h₁, h₂, h₃, h₄, by rw [encode, digits], ?_⟩
  rw [Marker.handle, ← digits, Bytes.toNatBE, Bytes.ofNatBE, List.reverse_reverse, Bytes.toNatLE_ofNatLE,
    Nat.mod_eq_of_lt small, UInt32.ofNat_toNat]

theorem encode_handle (h₁ h₂ h₃ h₄ : UInt8) : encode (handle h₁ h₂ h₃ h₄) = [sentinel, h₁, h₂, h₃, h₄] := by
  have digits : Bytes.ofNatLE 4 (Bytes.toNatLE [h₄, h₃, h₂, h₁]) = [h₄, h₃, h₂, h₁] :=
    Bytes.ofNatLE_toNatLE [h₄, h₃, h₂, h₁]
  have small : Bytes.toNatLE [h₄, h₃, h₂, h₁] < 256 ^ 4 := Bytes.toNatLE_lt [h₄, h₃, h₂, h₁]
  have value : (handle h₁ h₂ h₃ h₄).toNat = Bytes.toNatLE [h₄, h₃, h₂, h₁] := UInt32.toNat_ofNat_of_lt' small
  rw [encode, Bytes.ofNatBE, value, digits]
  rfl

end Marker

/-! ### The rest of a text and its markers -/

namespace MarkedText

@[simp] theorem strip_nil : strip [] = [] := rfl

@[simp] theorem marksFrom_nil (offset : Nat) : marksFrom offset [] = [] := rfl

theorem strip_byte {b : UInt8} (plain : b ≠ Marker.sentinel) (rest : Bytes) : strip (b :: rest) = b :: strip rest := by
  rw [strip]
  exact fun _ _ _ _ _ first => absurd first plain

theorem marksFrom_byte {b : UInt8} (plain : b ≠ Marker.sentinel) (offset : Nat) (rest : Bytes) :
    marksFrom offset (b :: rest) = marksFrom (offset + 1) rest := by
  rw [marksFrom]
  exact fun _ _ _ _ _ first => absurd first plain

@[simp] theorem strip_marker (handle : UInt32) (rest : Bytes) : strip (Marker.encode handle ++ rest) = strip rest := by
  obtain ⟨h₁, h₂, h₃, h₄, bytes, -⟩ := Marker.exists_bytes_of_handle handle
  rw [bytes]
  rfl

@[simp] theorem marksFrom_marker (offset : Nat) (handle : UInt32) (rest : Bytes) :
    marksFrom offset (Marker.encode handle ++ rest) = ⟨offset, handle⟩ :: marksFrom offset rest := by
  obtain ⟨h₁, h₂, h₃, h₄, bytes, rfl⟩ := Marker.exists_bytes_of_handle handle
  rw [bytes, Marker.handle_eq_bigEndian]
  rfl

/-- A text that is shorter than a marker has none. -/
theorem strip_of_short (text : Bytes) (short : text.length < Marker.length) : strip text = text := by
  fun_induction strip text with
  | case1 h₁ h₂ h₃ h₄ rest => simp only [Marker.length, List.length_cons] at short; omega
  | case2 b rest _ ih => rw [ih (Nat.lt_of_succ_lt short)]
  | case3 => rfl

theorem marksFrom_of_short (offset : Nat) (text : Bytes) (short : text.length < Marker.length) :
    marksFrom offset text = [] := by
  fun_induction marksFrom offset text with
  | case1 offset h₁ h₂ h₃ h₄ rest => simp only [Marker.length, List.length_cons] at short; omega
  | case2 offset b rest _ ih => exact ih (Nat.lt_of_succ_lt short)
  | case3 => rfl

/-- The offset is counted on from the bytes before the text. -/
theorem marksFrom_add (first offset : Nat) (text : Bytes) :
    marksFrom (first + offset) text = (marksFrom offset text).map fun mark => { mark with offset := first + mark.offset } := by
  fun_induction marksFrom offset text with
  | case1 offset h₁ h₂ h₃ h₄ rest ih => rw [marksFrom, ih, List.map_cons]
  | case2 offset b rest noMarker ih => rw [marksFrom.eq_2 _ _ _ noMarker, Nat.add_assoc, ih]
  | case3 => rfl

theorem map_handle_marksFrom (offset : Nat) (text : Bytes) : (marksFrom offset text).map (·.handle) = handles text := by
  rw [← Nat.add_zero offset, marksFrom_add, List.map_map]
  rfl

/-- A mark stands inside of what is left of the text, or at its end. -/
theorem offset_le_of_mem {offset : Nat} {text : Bytes} {mark : Mark} (member : mark ∈ marksFrom offset text) :
    mark.offset ≤ offset + (strip text).length := by
  fun_induction marksFrom offset text with
  | case1 offset h₁ h₂ h₃ h₄ rest ih =>
    rcases List.mem_cons.mp member with rfl | later
    · exact Nat.le_add_right ..
    · exact ih later
  | case2 offset b rest noMarker ih =>
    have before := ih member
    rw [strip.eq_2 _ _ noMarker, List.length_cons]
    omega
  | case3 => exact absurd member List.not_mem_nil

/-- A place does not depend on what comes behind it. -/
theorem placeAt_append {front : Bytes} {offset : Nat} (inside : offset ≤ front.length) (back : Bytes) :
    placeAt (front ++ back) offset = placeAt front offset := by
  rw [placeAt, placeAt, List.take_append_of_le_length inside]

theorem complete_of_not_mem {text : Bytes} (plain : Marker.sentinel ∉ text) : Complete text := by
  induction text with
  | nil => exact .nil
  | cons b rest ih =>
    rw [List.mem_cons, not_or] at plain
    exact .byte (Ne.symm plain.1) (ih plain.2)

theorem handles_of_not_mem {text : Bytes} (plain : Marker.sentinel ∉ text) : handles text = [] := by
  induction text with
  | nil => rfl
  | cons b rest ih =>
    rw [List.mem_cons, not_or] at plain
    rw [handles, marks, marksFrom_byte (Ne.symm plain.1), map_handle_marksFrom, ih plain.2]

namespace Complete

variable {front back : Bytes}

/-- Complete texts in a row are complete: no marker runs from one into the next. -/
theorem append (complete : Complete front) (other : Complete back) : Complete (front ++ back) := by
  induction complete with
  | nil => exact other
  | byte plain _ ih => exact .byte plain ih
  | marker handle _ ih => rw [List.append_assoc]; exact .marker handle ih

/-- Behind a complete text, markers are found as if nothing was before them. -/
theorem strip_append (complete : Complete front) (back : Bytes) : strip (front ++ back) = strip front ++ strip back := by
  induction complete with
  | nil => rfl
  | byte plain _ ih => rw [List.cons_append, strip_byte plain, strip_byte plain, ih, List.cons_append]
  | marker handle _ ih => rw [List.append_assoc, strip_marker, strip_marker, ih]

theorem marksFrom_append (complete : Complete front) (offset : Nat) (back : Bytes) :
    marksFrom offset (front ++ back) = marksFrom offset front ++ marksFrom (offset + (strip front).length) back := by
  induction complete generalizing offset with
  | nil => rfl
  | byte plain _ ih =>
    rw [List.cons_append, marksFrom_byte plain, marksFrom_byte plain, ih, strip_byte plain, List.length_cons]
    simp only [Nat.add_assoc, Nat.add_comm 1]
  | marker handle _ ih => rw [List.append_assoc, marksFrom_marker, marksFrom_marker, strip_marker, ih, List.cons_append]

theorem handles_append (complete : Complete front) (back : Bytes) :
    handles (front ++ back) = handles front ++ handles back := by
  rw [handles, marks, complete.marksFrom_append, List.map_append, map_handle_marksFrom, map_handle_marksFrom]

/-- The handle of a marker is counted by the markers before it. -/
theorem handles_marker (complete : Complete front) (handle : UInt32) (back : Bytes) :
    handles (front ++ (Marker.encode handle ++ back)) = handles front ++ handle :: handles back := by
  have first : handles (Marker.encode handle ++ back) = handle :: handles back := by
    rw [handles, marks, marksFrom_marker, List.map_cons, map_handle_marksFrom]
  rw [complete.handles_append, first]

/-- Behind whole markers the next one has the number of those before it, and stands behind what is left of them. -/
theorem marks_marker (complete : Complete front) (handle : UInt32) (back : Bytes) :
    (marks (front ++ (Marker.encode handle ++ back)))[(handles front).length]? =
      some ⟨(strip front).length, handle⟩ := by
  rw [marks, complete.marksFrom_append, marksFrom_marker, Nat.zero_add, handles, List.length_map, marks,
    List.getElem?_append_right (Nat.le_refl _), Nat.sub_self, List.getElem?_cons_zero]

end Complete

/-- The places of the markers of a text stay what they are if the rest of it goes on. -/
theorem places_append (text more : Bytes) :
    (marks text).map (placeAt (strip text ++ more) ·.offset) = (marks text).map (placeAt (strip text) ·.offset) := by
  refine List.map_congr_left fun mark member => placeAt_append ?_ more
  simpa using offset_le_of_mem member

end MarkedText

/-! ### What a machine has read -/

def Mapping.place (m : Mapping) : Nat × Nat := (m.line, m.column)

/-- The bytes that an event writes. -/
def OutputEvent.bytes : OutputEvent → Bytes
  | .write bytes => bytes
  | .setTable _ | .flush => []

namespace ByteMachine

variable {s : ByteMachine} {done text : Bytes}

/-- All markers of `done` are reported, and the rest of it is passed on. -/
structure Scanned (done : Bytes) (s : ByteMachine) : Prop where
  complete : Complete done
  output : s.output = strip done
  places : s.mappings.map (·.place) = (marks done).map (placeAt (strip done) ·.offset)

/-- The machine has read `text` from its beginning on, and holds at most the beginning of one marker back. -/
def HasRead (text : Bytes) (s : ByteMachine) : Prop :=
  ∃ done, s.Scanned done ∧ text = done ++ s.held ∧
    (s.held = [] ∨ ∃ rest, s.held = Marker.sentinel :: rest ∧ rest.length < 4)

namespace Scanned

theorem hold (scanned : s.Scanned done) (held : Bytes) : { s with held }.Scanned done :=
  ⟨scanned.complete, scanned.output, scanned.places⟩

/-- A byte that is no sentinel passes, and becomes part of what is left. -/
theorem emit (scanned : s.Scanned done) {b : UInt8} (plain : b ≠ Marker.sentinel) :
    (s.emit [b]).Scanned (done ++ [b]) where
  complete := scanned.complete.append (.byte plain .nil)
  output := by
    rw [scanned.complete.strip_append, strip_byte plain, ← scanned.output]
    rfl
  places := by
    have noMore : marks (done ++ [b]) = marks done := by
      rw [marks, scanned.complete.marksFrom_append, marksFrom_byte plain, marksFrom_nil, List.append_nil]
      rfl
    rw [noMore, scanned.complete.strip_append, places_append, ← scanned.places]
    rfl

/-- A marker that is read adds a mapping for the place where it stood, and leaves nothing. -/
theorem report (scanned : s.Scanned done) (handle : UInt32) :
    (s.report handle).Scanned (done ++ Marker.encode handle) where
  complete := scanned.complete.append (by simpa using Complete.marker handle .nil)
  output := by
    have kept := strip_marker handle []
    rw [List.append_nil] at kept
    rw [scanned.complete.strip_append, kept, strip_nil, List.append_nil, ← scanned.output]
    rfl
  places := by
    have kept := strip_marker handle []
    have one := marksFrom_marker (0 + (strip done).length) handle []
    rw [List.append_nil] at kept one
    -- The new mapping stands where the rest of the text ends so far.
    have here : placeAt (strip done) (0 + (strip done).length) = (s.line, s.column) := by
      rw [Nat.zero_add, placeAt, List.take_length, ← scanned.output]
      rfl
    rw [scanned.complete.strip_append, kept, strip_nil, List.append_nil, marks, scanned.complete.marksFrom_append, one,
      marksFrom_nil, List.map_append, List.map_singleton, here]
    exact (List.map_append ..).trans (congrArg (· ++ [(s.line, s.column)]) scanned.places)

end Scanned

namespace HasRead

/-- One byte more has been read, whether it passes, is held or completes a marker. -/
theorem read (hasRead : s.HasRead text) (b : UInt8) : (s.read b).HasRead (text ++ [b]) := by
  obtain ⟨done, scanned, rfl, front⟩ := hasRead
  unfold ByteMachine.read
  split
  next closed =>
    rw [closed, List.append_nil]
    split
    next sentinel => exact ⟨done, scanned.hold [b], rfl, .inr ⟨[], by rw [sentinel]; rfl, by decide⟩⟩
    next plain => exact ⟨done ++ [b], scanned.emit plain, by simp [closed], .inl closed⟩
  next first h₁ h₂ h₃ full =>
    obtain ⟨rest, opened, -⟩ := front.resolve_left (by simp [full])
    obtain ⟨rfl, rfl⟩ := List.cons.inj (full.symm.trans opened)
    rw [← Marker.handle_eq_bigEndian]
    refine ⟨done ++ Marker.encode (Marker.handle h₁ h₂ h₃ b), (scanned.hold []).report _, ?_, .inl rfl⟩
    rw [full, Marker.encode_handle]
    simp
  next opened notFull =>
    obtain ⟨rest, begun, short⟩ := front.resolve_left opened
    refine ⟨done, scanned.hold _, List.append_assoc .., .inr ⟨rest ++ [b], by rw [begun, List.cons_append], ?_⟩⟩
    -- With three bytes after the sentinel the marker would have been complete.
    have notThree : rest.length ≠ 3 := by
      intro three
      obtain ⟨h₁, h₂, h₃, rfl⟩ := List.length_eq_three.mp three
      exact notFull _ h₁ h₂ h₃ begun
    rw [List.length_append, List.length_singleton]
    omega

theorem write (hasRead : s.HasRead text) (bytes : Bytes) : (bytes.foldl ByteMachine.read s).HasRead (text ++ bytes) := by
  induction bytes generalizing s text with
  | nil => simpa using hasRead
  | cons b rest ih => simpa using ih (hasRead.read b)

theorem setTable (hasRead : s.HasRead text) (table : Option PositionTable) : { s with table }.HasRead text := by
  obtain ⟨done, scanned, rest⟩ := hasRead
  exact ⟨done, ⟨scanned.complete, scanned.output, scanned.places⟩, rest⟩

/-- In the end, what was held is passed on, since its marker has no end. -/
theorem flush (hasRead : s.HasRead text) :
    s.flush.output = strip text ∧ s.flush.mappings.map (·.place) = (marks text).map (placeAt (strip text) ·.offset) := by
  obtain ⟨done, scanned, rfl, front⟩ := hasRead
  have short : s.held.length < Marker.length := by
    rcases front with closed | ⟨rest, begun, short⟩
    · rw [closed]
      exact Nat.succ_pos 4
    · rw [begun, List.length_cons]
      exact Nat.succ_lt_succ short
  -- What is held is no marker, so it belongs to the rest of the text.
  have rest : strip (done ++ s.held) = strip done ++ s.held := by
    rw [scanned.complete.strip_append, strip_of_short s.held short]
  have noMore : marks (done ++ s.held) = marks done := by
    rw [marks, scanned.complete.marksFrom_append, marksFrom_of_short _ s.held short, List.append_nil]
    rfl
  rw [rest, noMore, places_append, ← scanned.places, ← scanned.output]
  exact ⟨rfl, rfl⟩

-- The second marker lacks its last two bytes and stays.
example : strip [0x41, 8, 0, 0, 0, 5, 0x0A, 8, 0, 7] = [0x41, 0x0A, 8, 0, 7] ∧
    marks [0x41, 8, 0, 0, 0, 5, 0x0A, 8, 0, 7] = [⟨1, 5⟩] := by decide

end HasRead

theorem hasRead_nil : HasRead [] {} := ⟨[], ⟨.nil, rfl, rfl⟩, rfl, .inl rfl⟩

end ByteMachine
end Linkage
