import Linkage.Archive.Encoding
import Linkage.Proofs.Wire.Laws

/-!
# Encoded archives are read back

An archive is read from its encoding. Other data can hold the same archive, but it differs in the table of symbol
sources only, whose entries need not ascend there.
-/
namespace Linkage

open Wire

namespace SymbolSources

variable {entries : List (String × String)}

/-- A symbol behind all others is put at the end. -/
theorem insertEntry_of_last {symbol : String} (text : String) (last : ∀ e ∈ entries, e.1 < symbol) :
    insertEntry symbol text entries = entries ++ [(symbol, text)] := by
  induction entries with
  | nil => rfl
  | cons head rest ih =>
    obtain ⟨s, t⟩ := head
    have before : s < symbol := last (s, t) List.mem_cons_self
    have notBehind : ¬ symbol < s := String.lt_asymm before
    have different : symbol ≠ s := fun same => String.lt_irrefl s (same ▸ before)
    rw [insertEntry, if_neg notBehind, if_neg different, ih fun e member => last e (List.mem_cons_of_mem _ member)]
    rfl

theorem entries_foldl (t : SymbolSources) (ascending : (t.entries ++ entries).Pairwise (·.1 < ·.1)) :
    (entries.foldl (fun t (symbol, text) => t.insert symbol text) t).entries = t.entries ++ entries := by
  induction entries generalizing t with
  | nil => exact (List.append_nil _).symm
  | cons head rest ih =>
    obtain ⟨symbol, text⟩ := head
    -- All symbols of the table come before this one, so it is put last.
    have last : ∀ e ∈ t.entries, e.1 < symbol := fun e member =>
      (List.pairwise_append.mp ascending).2.2 e member (symbol, text) List.mem_cons_self
    have inserted : (t.insert symbol text).entries = t.entries ++ [(symbol, text)] := insertEntry_of_last text last
    have assoc : t.entries ++ (symbol, text) :: rest = (t.insert symbol text).entries ++ rest := by
      rw [inserted, List.append_assoc, List.singleton_append]
    rw [assoc] at ascending ⊢
    exact ih (t.insert symbol text) ascending

/-- Entries in ascending order are kept as they are. -/
theorem entries_ofList (ascending : entries.Pairwise (·.1 < ·.1)) : (ofList entries).entries = entries := by
  rw [ofList, entries_foldl empty ascending]
  rfl

theorem eq_of_entries {t u : SymbolSources} (same : t.entries = u.entries) : t = u := by
  cases t
  cases u
  cases same
  rfl

/-- The entries of a listing are in order, so it can be built from them again. -/
theorem ofList_entries (t : SymbolSources) : ofList t.entries = t := eq_of_entries (entries_ofList t.ascending)

/-- Texts by symbol as they stand in data, where symbols need not ascend and may repeat. -/
def listing : Format (List (String × String)) := (Format.text.pair Format.text).list

theorem listing_canonical : listing.Canonical :=
  Format.list_canonical (Format.pair_canonical Format.text_canonical Format.text_canonical)

theorem format_restoring : format.Restoring :=
  Format.imap_restoring (Format.list_restoring (Format.pair_restoring Format.text_restoring Format.text_restoring))
    ofList_entries

/-- What is read as symbol sources may be out of order, or have a symbol twice. -/
theorem read_format {data rest : Bytes} {t : SymbolSources} (found : format.read data = .ok (t, rest)) :
    ∃ entries, t = ofList entries ∧ data = listing.write entries ++ rest := by
  obtain ⟨entries, rfl, inner⟩ := Format.read_imap found
  exact ⟨entries, rfl, listing_canonical inner⟩

/-- Entries in order are written as they were read, which is the exception to canonical form. -/
theorem write_format_of_ascending {entries : List (String × String)} (ascending : entries.Pairwise (·.1 < ·.1)) :
    format.write (ofList entries) = listing.write entries := by
  change listing.write (ofList entries).entries = _
  rw [entries_ofList ascending]

end SymbolSources

open Format

/-- Each format of a part is put together from formats with the same two laws. -/
theorem SourceFile.format_restoring : SourceFile.format.Restoring :=
  imap_restoring
    (pair_restoring text_restoring <| pair_restoring word_restoring <|
      pair_restoring word_restoring (list_restoring word_restoring))
    fun _ => rfl

theorem SourceFile.format_canonical : SourceFile.format.Canonical :=
  imap_canonical
    (pair_canonical text_canonical <| pair_canonical word_canonical <|
      pair_canonical word_canonical (list_canonical word_canonical))
    fun _ => rfl

theorem PositionTable.format_restoring : PositionTable.format.Restoring :=
  imap_restoring (list_restoring SourceFile.format_restoring) fun _ => rfl

theorem PositionTable.format_canonical : PositionTable.format.Canonical :=
  imap_canonical (list_canonical SourceFile.format_canonical) fun _ => rfl

theorem Declaration.format_restoring : Declaration.format.Restoring :=
  imap_restoring
    (pair_restoring text_restoring <| pair_restoring (list_restoring text_restoring) <|
      pair_restoring blob_restoring <| pair_restoring blob_restoring <|
      pair_restoring blob_restoring <| pair_restoring blob_restoring <|
      pair_restoring (optional_restoring text_restoring) <| pair_restoring (optional_restoring text_restoring) <|
      pair_restoring (list_restoring text_restoring) flag_restoring)
    fun _ => rfl

theorem Declaration.format_canonical : Declaration.format.Canonical :=
  imap_canonical
    (pair_canonical text_canonical <| pair_canonical (list_canonical text_canonical) <|
      pair_canonical blob_canonical <| pair_canonical blob_canonical <|
      pair_canonical blob_canonical <| pair_canonical blob_canonical <|
      pair_canonical (optional_canonical text_canonical) <| pair_canonical (optional_canonical text_canonical) <|
      pair_canonical (list_canonical text_canonical) flag_canonical)
    fun _ => rfl

namespace Archive

/-- An archive is read back from what is written of it, with anything behind it. -/
theorem format_restoring : format.Restoring :=
  imap_restoring
    (pair_restoring text_restoring <| pair_restoring text_restoring <| pair_restoring (list_restoring text_restoring) <|
      pair_restoring blob_restoring <| pair_restoring (list_restoring Declaration.format_restoring) <|
      pair_restoring blob_restoring <| pair_restoring (optional_restoring PositionTable.format_restoring) <|
      pair_restoring flag_restoring <| pair_restoring (list_restoring blob_restoring) SymbolSources.format_restoring)
    fun _ => rfl

/-- The symbol sources come last, and nothing before them can be written in two ways. -/
theorem format_endsIn : ∃ front, format.EndsIn SymbolSources.format (·.symbolSources) front :=
  ⟨_, (EndsIn.pair text_canonical <| EndsIn.pair text_canonical <| EndsIn.pair (list_canonical text_canonical) <|
    EndsIn.pair blob_canonical <| EndsIn.pair (list_canonical Declaration.format_canonical) <|
    EndsIn.pair blob_canonical <| EndsIn.pair (optional_canonical PositionTable.format_canonical) <|
    EndsIn.pair flag_canonical <| EndsIn.pair (list_canonical blob_canonical) (endsIn_self _)).imap
      (fun _ => rfl) fun _ => rfl⟩

theorem checkPositions_eq_ok {a : Archive} : a.checkPositions = .ok () ↔ ∀ t ∈ a.positions, t.check = .ok () := by
  unfold checkPositions
  cases a.positions <;> simp

def header : Bytes := signature ++ Bytes.ofNatLE 4 version

variable {path : String} {data : Bytes} {failure : Option ReadFailure} {a : Archive}

/-- A successful read has seen the header that `encode` writes. -/
theorem eq_header_of_read (found : read path ⟨data, failure⟩ = .ok a) :
    data = header ++ data.drop 12 ∧ readFields path ⟨data, failure⟩ = .ok a := by
  unfold read at found
  dsimp only at found
  split at found
  next short => split at found <;> exact absurd found (by simp)
  next long =>
    split at found
    next => exact absurd found (by simp)
    next signed =>
      split at found
      next => exact absurd found (by simp)
      next known =>
        simp only [Decidable.not_not] at signed known
        -- The version is the number in the last four bytes, and no other four bytes hold it.
        have four : ((data.take 12).drop 8).length = 4 := by
          rw [List.length_drop]
          rw [List.length_take] at long ⊢
          omega
        have number := Bytes.ofNatLE_toNatLE ((data.take 12).drop 8)
        rw [four, known] at number
        have twelve : data.take 12 = header := by
          rw [header, ← signed, number, List.take_append_drop]
        rw [← twelve, List.take_append_drop]
        exact ⟨rfl, found⟩

theorem read_header (body : Bytes) :
    read path ⟨header ++ body, failure⟩ = readFields path ⟨header ++ body, failure⟩ := rfl

/-- An archive is accepted if its fields can be read and its table is in order. -/
theorem readFields_eq_ok :
    readFields path ⟨data, failure⟩ = .ok a ↔
      (∃ rest, format.read (data.drop 12) = .ok (a, rest)) ∧ ∀ t ∈ a.positions, t.check = .ok () := by
  unfold readFields
  dsimp only
  cases fields : format.read (data.drop 12) with
  | error cause => simp
  | ok found =>
    obtain ⟨b, rest⟩ := found
    constructor
    · intro accepted
      cases checked : b.checkPositions with
      | error cause => simp [checked] at accepted
      | ok =>
        simp only [checked, Except.ok.injEq] at accepted
        subst accepted
        exact ⟨⟨rest, rfl⟩, checkPositions_eq_ok.mp checked⟩
    · rintro ⟨⟨_, same⟩, inOrder⟩
      cases same
      simp only [checkPositions_eq_ok.mpr inOrder]

theorem encode_eq (a : Archive) : a.encode = header ++ format.write a := (List.append_assoc ..).symm

/-- Reading does not depend on the path, on the rest of the data or on how the stream ends. -/
theorem read_encode {a : Archive} (inOrder : ∀ t ∈ a.positions, t.check = .ok ()) (small : a.encode.length < 2 ^ 64)
    (path : String) (rest : Bytes) (failure : Option ReadFailure) : read path ⟨a.encode ++ rest, failure⟩ = .ok a := by
  rw [encode_eq, List.length_append] at small
  rw [encode_eq, List.append_assoc, read_header]
  refine readFields_eq_ok.mpr ⟨⟨rest, ?_⟩, inOrder⟩
  exact format_restoring.read_write a rest (by omega)

end Archive

/-- An archive whose position table, if there is one, keeps the layout rules is read from its encoding, whatever comes
after it. Data that an archive is read from begins with the encoding, except for the entries of the symbol sources:
in data they can come in any order. An encoding of `2 ^ 64` bytes does not fit into memory. -/
theorem archive_roundTrip :
    (∀ a : Archive, (∀ t ∈ a.positions, t.check = .ok ()) → a.encode.length < 2 ^ 64 →
      ∀ path rest failure, Archive.read path ⟨a.encode ++ rest, failure⟩ = .ok a) ∧
    ∀ path data failure a, Archive.read path ⟨data, failure⟩ = .ok a →
      (∀ t ∈ a.positions, t.check = .ok ()) ∧
      ∃ front entries rest, data = front ++ SymbolSources.listing.write entries ++ rest ∧
        a.encode = front ++ SymbolSources.format.write a.symbolSources ∧
        a.symbolSources = .ofList entries ∧
        (entries.Pairwise (·.1 < ·.1) → a.encode <+: data) := by
  constructor
  · intro a inOrder small path rest failure
    exact Archive.read_encode inOrder small path rest failure
  -- The header and all fields but the last one can be written in one way only.
  · intro path data failure a found
    obtain ⟨header, fields⟩ := Archive.eq_header_of_read found
    obtain ⟨⟨rest, read⟩, inOrder⟩ := Archive.readFields_eq_ok.mp fields
    obtain ⟨front, endsIn⟩ := Archive.format_endsIn
    obtain ⟨behind, split, last⟩ := endsIn.read_eq read
    obtain ⟨entries, sources, rfl⟩ := SymbolSources.read_format last
    have whole : data = Archive.header ++ front a ++ SymbolSources.listing.write entries ++ rest := by
      rw [header, split]
      simp only [List.append_assoc]
    have encoded : a.encode = Archive.header ++ front a ++ SymbolSources.format.write a.symbolSources := by
      rw [Archive.encode_eq, endsIn.write_eq, List.append_assoc]
    refine ⟨inOrder, Archive.header ++ front a, entries, rest, whole, encoded, sources, fun ascending => ⟨rest, ?_⟩⟩
    rw [encoded, sources, SymbolSources.write_format_of_ascending ascending, whole]

namespace Archive

def sample : Archive where
  importPath := "lib/é"
  name := "é"
  imports := ["rt"]
  declarations := [{ fullName := "é.F", objectFilter := some "F", deps := ["rt.G"] }]
  positions := some ⟨#[⟨"f.src", 1, 5, #[0, 3]⟩]⟩
  symbolSources := .ofList [("b", "2"), ("a", "1")]

/-- The encoding of the sample, but for its symbol sources, which descend. -/
def shuffled : Bytes :=
  sample.encode.take (sample.encode.length - 44) ++ SymbolSources.listing.write [("b", "2"), ("a", "1")]

end Archive

/-- A listing of two symbols in the wrong order is read, and written in the right one. -/
theorem archive_roundTrip_shuffled :
    Archive.read "p" ⟨Archive.sample.encode ++ [0xFF], none⟩ = .ok Archive.sample ∧
    Archive.read "p" ⟨Archive.shuffled, none⟩ = .ok Archive.sample ∧
    (∀ t ∈ Archive.sample.positions, t.check = .ok ()) ∧
    ∃ front entries rest, Archive.shuffled = front ++ SymbolSources.listing.write entries ++ rest ∧
      Archive.sample.encode = front ++ SymbolSources.format.write Archive.sample.symbolSources := by
  have inOrder := Archive.checkPositions_eq_ok.mp (show Archive.sample.checkPositions = .ok () from rfl)
  have small : Archive.sample.encode.length < 2 ^ 64 := by decide +kernel
  have found : Archive.read "p" ⟨Archive.shuffled, none⟩ = .ok Archive.sample := by
    have value : (Archive.read "p" ⟨Archive.shuffled, none⟩).toOption = some Archive.sample := by decide +kernel
    cases read : Archive.read "p" ⟨Archive.shuffled, none⟩ with
    | error fault =>
      rw [read] at value
      exact absurd value (by simp [Except.toOption])
    | ok a =>
      rw [read] at value
      exact congrArg _ (Option.some.inj value)
  obtain ⟨checked, front, entries, rest, split, encoded, -⟩ := archive_roundTrip.2 _ _ _ _ found
  exact ⟨archive_roundTrip.1 _ inOrder small "p" [0xFF] none, found, checked, front, entries, rest, split, encoded⟩

end Linkage
