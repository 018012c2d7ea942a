import Linkage.Proofs.Position.Lookup
import Mathlib.Data.List.Nodup
import Mathlib.Data.List.Perm.Subperm

/-!
# Handles and places

In a table that keeps the layout rules, each handle that a file owns stands for a place, and handles of one file come in
the order of their places. In any other table, a handle that has a position still lies in a file of that name, and the
line and column lead back to it, wherever the searches for the file and the line have ended.
-/
namespace Linkage

namespace Position

variable {α : Type} {l : List α} {p : α → Bool}

theorem takeWhile_eq_filter (sorted : l.Pairwise fun a b => p b = true → p a = true) : l.takeWhile p = l.filter p := by
  induction l with
  | nil => rfl
  | cons a rest ih =>
    obtain ⟨first, sorted⟩ := List.pairwise_cons.mp sorted
    by_cases low : p a = true
    · rw [List.takeWhile_cons_of_pos low, List.filter_cons_of_pos low, ih sorted]
    · rw [List.takeWhile_cons_of_neg low, List.filter_cons_of_neg low]
      exact (List.filter_eq_nil_iff.mpr fun b member later => low (first b member later)).symm

/-- The index a binary search answers passes its test, also when the array is not sorted. -/
theorem low_of_lastLow? {low : Nat → Bool} {size i : Nat} (found : lastLow? low size = some i) : low i = true := by
  unfold lastLow? at found
  split at found
  · cases found
  · dsimp only at found
    split at found
    next lowest =>
      cases found
      exact lowest
    next => cases found

end Position

namespace SourceFile

variable {f : SourceFile} {handle : UInt32} {line column line' column' : UInt32} {offset offset' : Nat}

/-! ### Places in a file -/

/-- The handles from the first byte of the file to its end. -/
def Owns (f : SourceFile) (handle : UInt32) : Prop :=
  f.base.toNat ≤ handle.toNat ∧ handle.toNat ≤ f.base.toNat + f.size.toNat

/-- The offset of an owned handle does not wrap. -/
theorem Owns.toNat_sub (owned : f.Owns handle) : (handle - f.base).toNat = handle.toNat - f.base.toNat :=
  UInt32.toNat_sub_of_le _ _ (UInt32.le_iff_toNat_le.mpr owned.1)

/-- The line starts that do not lie behind an offset. -/
def startsUpTo (f : SourceFile) (offset : Nat) : List UInt32 := f.lineStarts.toList.filter (·.toNat ≤ offset)

/-- The line counts the line starts up to the offset, and the column the bytes from the last of them to the offset. -/
structure PlaceOf (f : SourceFile) (offset : Nat) (line column : UInt32) : Prop where
  line : line.toNat = (f.startsUpTo offset).length
  column : ∃ start, (f.startsUpTo offset).getLast? = some start ∧ column.toNat = offset - start.toNat + 1

theorem le_of_mem_startsUpTo {start : UInt32} (member : start ∈ f.startsUpTo offset) : start.toNat ≤ offset := by
  simpa using (List.mem_filter.mp member).2

theorem startsUpTo_sublist (further : offset ≤ offset') : (f.startsUpTo offset).Sublist (f.startsUpTo offset') := by
  refine List.monotone_filter_right _ fun start early => ?_
  rw [decide_eq_true_eq] at early ⊢
  omega

/-- A place further on is on a later line, or on the same line in a later column. -/
theorem PlaceOf.lt (place : f.PlaceOf offset line column) (place' : f.PlaceOf offset' line' column')
    (further : offset < offset') : line < line' ∨ line = line' ∧ column < column' := by
  have inside := f.startsUpTo_sublist (Nat.le_of_lt further)
  rw [UInt32.lt_iff_toNat_lt, UInt32.lt_iff_toNat_lt, ← UInt32.toNat_inj, place.line, place'.line]
  rcases Nat.lt_or_eq_of_le inside.length_le with more | same
  · exact .inl more
  · -- No line starts in between, so that both columns count from the same start.
    obtain ⟨start, last, counted⟩ := place.column
    obtain ⟨start', last', counted'⟩ := place'.column
    have before := le_of_mem_startsUpTo (List.mem_of_getLast? last)
    rw [inside.eq_of_length same, last', Option.some.injEq] at last
    subst last
    exact .inr ⟨same, by omega⟩

namespace WellFormed

theorem length_lineStarts (rules : f.WellFormed) : f.lineStarts.toList.length ≤ f.size.toNat + 1 := by
  have distinct : (f.lineStarts.toList.map UInt32.toNat).Nodup := by
    refine List.pairwise_map.mpr (rules.ascending.imp fun before same => ?_)
    exact absurd (UInt32.lt_iff_toNat_lt.mp before) (by omega)
  have inside : f.lineStarts.toList.map UInt32.toNat ⊆ List.range (f.size.toNat + 1) := by
    intro n member
    obtain ⟨start, listed, rfl⟩ := List.mem_map.mp member
    exact List.mem_range.mpr (Nat.lt_succ_of_le (UInt32.le_iff_toNat_le.mp (rules.inRange start listed)))
  have counted := (List.subperm_of_subset distinct inside).length_le
  rwa [List.length_map, List.length_range] at counted

theorem takeWhile_lineStarts (rules : f.WellFormed) (offset : UInt32) :
    f.lineStarts.toList.takeWhile (· ≤ offset) = f.startsUpTo offset.toNat := by
  rw [Position.takeWhile_eq_filter]
  · exact List.filter_congr fun start _ => decide_eq_decide.mpr UInt32.le_iff_toNat_le
  · refine rules.ascending.imp fun before => ?_
    simp only [decide_eq_true_eq]
    exact fun later => UInt32.le_trans (UInt32.le_of_lt before) later

/-- Each offset of a file has a place. -/
theorem exists_placeOf (rules : f.WellFormed) {offset : UInt32} (inside : offset ≤ f.size) :
    ∃ line column, f.lineColumn? offset = some (line, column) ∧ f.PlaceOf offset.toNat line column := by
  have fits := rules.fits
  have reached := UInt32.le_iff_toNat_le.mp inside
  have early : (0 : UInt32) ∈ f.startsUpTo offset.toNat := by
    refine List.mem_filter.mpr ⟨?_, by simp⟩
    have first := rules.first
    rw [← Array.getElem?_toList] at first
    exact List.mem_of_getElem? first
  obtain ⟨front, start, split⟩ : ∃ front start, f.startsUpTo offset.toNat = front ++ [start] := by
    rcases List.eq_nil_or_concat (f.startsUpTo offset.toNat) with none | ⟨front, start, split⟩
    · exact absurd (none ▸ early) List.not_mem_nil
    · exact ⟨front, start, by rw [split, List.concat_eq_append]⟩
  have before : start.toNat ≤ offset.toNat := le_of_mem_startsUpTo (split ▸ List.mem_concat_self)
  have number : (UInt32.ofNat (front.length + 1)).toNat = front.length + 1 := by
    have some_starts : (f.startsUpTo offset.toNat).length ≤ f.lineStarts.toList.length := List.length_filter_le ..
    rw [split, List.length_append, List.length_singleton] at some_starts
    have lines := rules.length_lineStarts
    exact UInt32.toNat_ofNat_of_lt' (by simp only [UInt32.size]; omega)
  have column : (UInt32.ofNat (offset.toNat - start.toNat + 1)).toNat = offset.toNat - start.toNat + 1 :=
    UInt32.toNat_ofNat_of_lt' (by simp only [UInt32.size]; omega)
  refine ⟨.ofNat (front.length + 1), .ofNat (offset.toNat - start.toNat + 1), ?_, ?_, start, ?_, column⟩
  · have added : checkedAdd (offset - start) 1 = some (.ofNat (offset.toNat - start.toNat + 1)) := by
      rw [checkedAdd_eq_some_iff, column, UInt32.toNat_sub_of_le _ _ (UInt32.le_iff_toNat_le.mpr before)]
      rfl
    rw [lineColumn?_of_split rules.ascending (split ▸ rules.takeWhile_lineStarts offset), added]
    rfl
  · rw [number, split, List.length_append, List.length_singleton]
  · rw [split, List.getLast?_concat]

end WellFormed

/-! ### Lines that were searched for -/

/-- The line and column of an offset if the line that covers it is taken to be the one at index `i`. -/
def lineColumnAt? (f : SourceFile) (offset : UInt32) (i : Nat) : Option (UInt32 × UInt32) := do
  let start ← f.lineStarts[i]?
  if offset < start then none
  let column ← checkedAdd (offset - start) 1
  return (UInt32.ofNat (i + 1), column)

/-- Wherever the search for the line ends, it is at one that starts up to the offset. -/
theorem exists_lineColumnAt? {offset : UInt32} (found : f.lineColumn? offset = some (line, column)) :
    ∃ i, f.lineColumnAt? offset i = some (line, column) := by
  simp only [lineColumn?, Option.bind_eq_bind, Option.bind_eq_some_iff] at found
  obtain ⟨i, ended, start, listed, rest⟩ := found
  have early := Position.low_of_lastLow? ended
  rw [startsBy, listed] at early
  have before : ¬ offset < start := UInt32.not_lt.mpr (by simpa using early)
  refine ⟨i, ?_⟩
  simp only [lineColumnAt?, listed, Option.bind_eq_bind, Option.bind_some, if_neg before]
  exact Option.bind_eq_some_iff.mpr rest

/-- The line and column lead back to the offset. -/
theorem eq_of_lineColumnAt? {offset : UInt32} {i : Nat} (few : f.lineStarts.size < 2 ^ 32)
    (found : f.lineColumnAt? offset i = some (line, column)) :
    0 < line.toNat ∧ ∃ start, f.lineStarts[line.toNat - 1]? = some start ∧
      start.toNat + column.toNat - 1 = offset.toNat := by
  simp only [lineColumnAt?, Option.bind_eq_bind, Option.bind_eq_some_iff] at found
  obtain ⟨start, listed, rest⟩ := found
  split at rest
  next => cases rest
  next before =>
    obtain ⟨column', added, same⟩ := Option.bind_eq_some_iff.mp rest
    cases same
    have inside : i < f.lineStarts.size := (Array.getElem?_eq_some_iff.mp listed).1
    have number : (UInt32.ofNat (i + 1)).toNat = i + 1 :=
      UInt32.toNat_ofNat_of_lt' (by simp only [UInt32.size]; omega)
    have early := UInt32.not_lt.mp before
    rw [checkedAdd_eq_some_iff, UInt32.toNat_sub_of_le _ _ early, UInt32.toNat_one] at added
    rw [UInt32.le_iff_toNat_le] at early
    rw [number]
    exact ⟨Nat.succ_pos i, start, listed, by omega⟩

end SourceFile

namespace PositionTable

variable {t : PositionTable} {f : SourceFile} {handle handle' : UInt32} {p p' : Position}

/-! ### Tables that keep the rules -/

/-- In a well-formed table no handle has two owners. -/
theorem WellFormed.owner_unique (rules : t.WellFormed) {i j : Nat} (inside : i < t.files.size)
    (inside' : j < t.files.size) (owned : t.files[i].Owns handle) (owned' : t.files[j].Owns handle) : i = j := by
  have apart : ∀ {i j : Nat} (_ : i < j) (inside' : j < t.files.size),
      ¬ (t.files[i].Owns handle ∧ t.files[j].Owns handle) := by
    rintro i j before inside' ⟨⟨_, ends⟩, ⟨begins, _⟩⟩
    have gap := List.pairwise_iff_getElem.mp rules.disjoint i j (Nat.lt_trans before inside') inside' before
    rw [Array.getElem_toList, Array.getElem_toList] at gap
    omega
  rcases Nat.lt_trichotomy i j with before | same | behind
  · exact absurd ⟨owned, owned'⟩ (apart before inside')
  · exact same
  · exact absurd ⟨owned', owned⟩ (apart behind inside)

/-- A handle that a file owns stands for a place in the file. -/
theorem WellFormed.exists_position? (rules : t.WellFormed) (member : f ∈ t.files.toList) (owned : f.Owns handle) :
    ∃ p, t.position? handle = some p ∧ p.file = f.name ∧
      f.PlaceOf (handle.toNat - f.base.toNat) p.line p.column := by
  have inside : handle - f.base ≤ f.size := by
    rw [UInt32.le_iff_toNat_le, owned.toNat_sub]
    have ends := owned.2
    omega
  obtain ⟨line, column, found, place⟩ := (rules.files f member).exists_placeOf inside
  rw [owned.toNat_sub] at place
  exact ⟨⟨f.name, line, column⟩,
    (position?_eq_some_iff rules).mpr ⟨f, member, SourceFile.contains_iff.mpr owned, rfl, found⟩, rfl, place⟩

/-- Only a handle some file owns has a position. -/
theorem WellFormed.exists_owner (rules : t.WellFormed) (found : t.position? handle = some p) :
    ∃ f ∈ t.files.toList, f.Owns handle := by
  obtain ⟨f, member, owned, -⟩ := (position?_eq_some_iff rules).mp found
  exact ⟨f, member, SourceFile.contains_iff.mp owned⟩

/-- What a position says of a handle that a file owns. -/
theorem WellFormed.placeOf (rules : t.WellFormed) (member : f ∈ t.files.toList) (owned : f.Owns handle)
    (found : t.position? handle = some p) :
    p.file = f.name ∧ f.PlaceOf (handle.toNat - f.base.toNat) p.line p.column := by
  obtain ⟨p', found', place⟩ := rules.exists_position? member owned
  obtain rfl := Option.some.inj (found.symm.trans found')
  exact place

/-- Inside one file a later handle has a later place. -/
theorem WellFormed.lt_of_lt (rules : t.WellFormed) (member : f ∈ t.files.toList) (owned : f.Owns handle)
    (owned' : f.Owns handle') (found : t.position? handle = some p) (found' : t.position? handle' = some p')
    (further : handle < handle') : p.line < p'.line ∨ p.line = p'.line ∧ p.column < p'.column := by
  obtain ⟨-, place⟩ := rules.placeOf member owned found
  obtain ⟨-, place'⟩ := rules.placeOf member owned' found'
  rw [UInt32.lt_iff_toNat_lt] at further
  have begins := owned.1
  exact place.lt place' (by omega)

/-- With file names of their own, no two handles stand for the same place. -/
theorem WellFormed.eq_of_position?_eq (rules : t.WellFormed) (distinct : (t.files.toList.map (·.name)).Nodup)
    (found : t.position? handle = some p) (found' : t.position? handle' = some p) : handle = handle' := by
  obtain ⟨f, member, owned⟩ := rules.exists_owner found
  obtain ⟨g, member', owned'⟩ := rules.exists_owner found'
  obtain ⟨name, -⟩ := rules.placeOf member owned found
  obtain ⟨name', -⟩ := rules.placeOf member' owned' found'
  obtain rfl := List.inj_on_of_nodup_map distinct member member' (name.symm.trans name')
  rcases Nat.lt_trichotomy handle.toNat handle'.toNat with before | same | behind
  · exact absurd (rules.lt_of_lt member owned owned' found found' (UInt32.lt_iff_toNat_lt.mpr before)) (by simp)
  · exact UInt32.toNat_inj.mp same
  · exact absurd (rules.lt_of_lt member owned' owned found' found (UInt32.lt_iff_toNat_lt.mpr behind)) (by simp)

/-! ### Tables that nothing is known of -/

/-- What a handle stands for if the file that owns it is taken to be the one at index `i`, and the line that covers it
the one at index `j` of that file. -/
def positionAt? (t : PositionTable) (handle : UInt32) (i j : Nat) : Option Position := do
  let f ← t.files[i]?
  if !f.contains handle then none
  let (line, column) ← f.lineColumnAt? (handle - f.base) j
  return ⟨f.name, line, column⟩

/-- A position found is the one two indices give, one into the files and one into the line starts. -/
theorem exists_positionAt? (found : t.position? handle = some p) : ∃ i j, t.positionAt? handle i j = some p := by
  simp only [position?, Option.bind_eq_bind] at found
  split at found
  · cases found
  obtain ⟨i, -, rest⟩ := Option.bind_eq_some_iff.mp found
  obtain ⟨f, listed, rest⟩ := Option.bind_eq_some_iff.mp rest
  split at rest
  · cases rest
  next owned =>
    obtain ⟨⟨line, column⟩, place, same⟩ := Option.bind_eq_some_iff.mp rest
    obtain ⟨j, place⟩ := f.exists_lineColumnAt? place
    refine ⟨i, j, ?_⟩
    simp only [positionAt?, listed, Option.bind_eq_bind, Option.bind_some, if_neg owned, place]
    exact same

/-- The file holds the handle, and the line and column lead back to it. -/
structure LeadsBack (t : PositionTable) (handle : UInt32) (p : Position) : Prop where
  line_pos : 0 < p.line.toNat
  file : ∃ f ∈ t.files.toList, p.file = f.name ∧ f.Owns handle ∧
    ∃ start, f.lineStarts[p.line.toNat - 1]? = some start ∧
      start.toNat + p.column.toNat - 1 = handle.toNat - f.base.toNat

/-- Whatever indices were used, a position found leads back to its handle. -/
theorem leadsBack_of_positionAt? (few : ∀ f ∈ t.files.toList, f.lineStarts.size < 2 ^ 32) {i j : Nat}
    (found : t.positionAt? handle i j = some p) : t.LeadsBack handle p := by
  simp only [positionAt?, Option.bind_eq_bind] at found
  obtain ⟨f, listed, rest⟩ := Option.bind_eq_some_iff.mp found
  split at rest
  · cases rest
  next owned =>
    obtain ⟨⟨line, column⟩, place, same⟩ := Option.bind_eq_some_iff.mp rest
    cases same
    have member : f ∈ t.files.toList := Array.mem_toList_iff.mpr (Array.mem_of_getElem? listed)
    have owned : f.Owns handle := SourceFile.contains_iff.mp (by simpa using owned)
    obtain ⟨positive, start, first, total⟩ := f.eq_of_lineColumnAt? (few f member) place
    rw [owned.toNat_sub] at total
    exact ⟨positive, f, member, rfl, owned, start, first, total⟩

end PositionTable

open PositionTable

/-- In a table that passes the check, a handle stands for a place exactly if a file owns it. There is one such file at
most, the line counts its line starts up to the handle, and the column begins at the last of them. Further handles of
the file stand for places further on, and if no two files have one name, then no two handles stand for one place. In
any table, a handle that stands for a place lies in a file of that name, and the place leads back to it, whichever file
and line the searches end at. -/
theorem position?_places (t : PositionTable) :
    (t.check = .ok () →
      (∀ handle, (t.position? handle).isSome ↔ ∃ f ∈ t.files.toList, f.Owns handle) ∧
      (∀ handle i j, (inside : i < t.files.size) → (inside' : j < t.files.size) →
        t.files[i].Owns handle → t.files[j].Owns handle → i = j) ∧
      (∀ f ∈ t.files.toList, ∀ handle p, f.Owns handle → t.position? handle = some p →
        p.file = f.name ∧ f.PlaceOf (handle.toNat - f.base.toNat) p.line p.column) ∧
      (∀ f ∈ t.files.toList, ∀ handle handle' p p', f.Owns handle → f.Owns handle' → handle < handle' →
        t.position? handle = some p → t.position? handle' = some p' →
        p.line < p'.line ∨ p.line = p'.line ∧ p.column < p'.column) ∧
      ((t.files.toList.map (·.name)).Nodup → ∀ handle handle' p,
        t.position? handle = some p → t.position? handle' = some p → handle = handle')) ∧
    ((∀ f ∈ t.files.toList, f.lineStarts.size < 2 ^ 32) → ∀ handle p,
      (t.position? handle = some p → t.LeadsBack handle p) ∧
      ∀ i j, t.positionAt? handle i j = some p → t.LeadsBack handle p) := by
  refine ⟨fun checked => ?_, fun few handle p => ⟨fun found => ?_, fun i j => leadsBack_of_positionAt? few⟩⟩
  · have rules := check_eq_ok_iff.mp checked
    refine ⟨fun handle => ⟨fun answered => ?_, ?_⟩, fun _ _ _ => rules.owner_unique,
      fun _ member _ _ => rules.placeOf member, ?_, fun distinct _ _ _ => rules.eq_of_position?_eq distinct⟩
    · obtain ⟨p, found⟩ := Option.isSome_iff_exists.mp answered
      exact rules.exists_owner found
    · rintro ⟨f, member, owned⟩
      obtain ⟨p, found, -⟩ := rules.exists_position? member owned
      exact Option.isSome_of_eq_some found
    · intro f member handle handle' p p' owned owned' further found found'
      exact rules.lt_of_lt member owned owned' found found' further
  · obtain ⟨i, j, read⟩ := exists_positionAt? found
    exact leadsBack_of_positionAt? few read

namespace PositionTable

/-- The second file begins with an empty line. -/
def ordered : PositionTable := ⟨#[⟨"a", 1, 5, #[0, 3]⟩, ⟨"b", 9, 2, #[0, 1]⟩]⟩

/-- Files that overlap, with line starts out of order. -/
def disordered : PositionTable := ⟨#[⟨"a", 10, 5, #[]⟩, ⟨"b", 1, 20, #[5, 0, 7]⟩]⟩

theorem position?_ordered : ordered.position? 9 = some ⟨"b", 1, 1⟩ ∧ ordered.position? 11 = some ⟨"b", 2, 2⟩ ∧
    ordered.position? 7 = none := by decide +kernel

theorem position?_disordered : disordered.position? 12 = some ⟨"b", 3, 5⟩ := by decide +kernel

end PositionTable

/-- A table in order gives distinct places to its handles, and a disordered one still answers places that lead
back. -/
theorem position?_places_ordered :
    ordered.check = .ok () ∧ (∃ f ∈ ordered.files.toList, f.Owns 9) ∧ ¬ (∃ f ∈ ordered.files.toList, f.Owns 7) ∧
    (SourceFile.mk "b" 9 2 #[0, 1]).PlaceOf 2 2 2 ∧ (ordered.files.toList.map (·.name)).Nodup ∧
    (∀ handle handle' p, ordered.position? handle = some p → ordered.position? handle' = some p → handle = handle') ∧
    (∀ f ∈ disordered.files.toList, f.lineStarts.size < 2 ^ 32) ∧ disordered.LeadsBack 12 ⟨"b", 3, 5⟩ := by
  have checked : ordered.check = .ok () := by decide
  have distinct : (ordered.files.toList.map (·.name)).Nodup := by decide
  have few : ∀ f ∈ disordered.files.toList, f.lineStarts.size < 2 ^ 32 := by decide
  have second : SourceFile.mk "b" 9 2 #[0, 1] ∈ ordered.files.toList := by decide
  have owned : (SourceFile.mk "b" 9 2 #[0, 1]).Owns 11 := by unfold SourceFile.Owns; decide
  obtain ⟨begins, ends, unowned⟩ := position?_ordered
  obtain ⟨owner, -, place, -, injective⟩ := (position?_places ordered).1 checked
  obtain ⟨back, -⟩ := (position?_places disordered).2 few 12 ⟨"b", 3, 5⟩
  refine ⟨checked, (owner 9).mp (by rw [begins]; rfl), fun found => ?_, (place _ second 11 _ owned ends).2, distinct,
    injective distinct, few, back position?_disordered⟩
  have answered := (owner 7).mpr found
  rw [unowned] at answered
  cases answered

end Linkage
