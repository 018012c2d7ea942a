import Linkage.Disk.Basic

/-!
# Paths of names in a directory

A name that is joined to the path of a directory is found where the path leads to, whatever slashes and dots the path
is made of.
-/
namespace Linkage

/-- A name of an entry, and not of a directory around it. -/
structure Path.ProperName (name : String) : Prop where
  noSlash : '/' ∉ name.toList
  notEmpty : name ≠ ""
  notDot : name ≠ "."
  notDots : name ≠ ".."

namespace Disk

variable {d : Disk} {place around : Location} {path dir name : String} {e : Entry}

/-- A walk along a path is one along its front, then along its back. -/
theorem walk_append (place : Location) (front back : List String) :
    d.walk place (front ++ back) = d.walk place front >>= (d.walk · back) := List.foldlM_append ..

theorem walk_singleton (place : Location) (name : String) : d.walk place [name] = d.enter place name := by
  cases entered : d.enter place name <;> simp [walk, entered, bind, Except.bind, pure, Except.pure]

/-- An empty component asks for no more than the name after it does. -/
theorem enter_empty (place : Location) (name : String) :
    (d.enter place "" >>= (d.enter · name)) = d.enter place name := by
  cases found : d.entryAt place with
  | none => simp [enter, found, bind, Except.bind]
  | some e => cases e <;> simp [enter, found, bind, Except.bind]

theorem exists_of_endsInSlash (ends : Path.endsInSlash dir = true) : ∃ front, dir = front ++ "/" := by
  simp only [Path.endsInSlash, decide_eq_true_eq] at ends
  obtain ⟨front, split⟩ := List.getLast?_eq_some_iff.mp ends
  refine ⟨String.ofList front, ?_⟩
  rw [← String.toList_inj, split]
  simp

/-- To follow a joined path is to follow the directory and then to enter the name, also if the directory ends in
slashes. -/
theorem walk_join (plain : '/' ∉ name.toList) (place : Location) :
    d.walk place (Path.components (Path.join dir name)) =
      d.walk place (Path.components dir) >>= (d.enter · name) := by
  have last : Path.components name = [name] := Path.components_of_not_mem plain
  unfold Path.join
  split
  next direct =>
    rcases Bool.or_eq_true_iff.mp direct with empty | ends
    · obtain rfl : dir = "" := by simpa using empty
      have blank : Path.components "" = [""] := rfl
      rw [String.empty_append, last, blank, walk_singleton, walk_singleton, enter_empty]
    · obtain ⟨front, rfl⟩ := exists_of_endsInSlash ends
      have open_end : Path.components (front ++ "/") = Path.components front ++ [""] := by
        have split := Path.components_slash front ""
        rwa [String.append_empty] at split
      rw [Path.components_slash, last, open_end, walk_append, walk_append, bind_assoc]
      simp only [walk_singleton, enter_empty]
  next => rw [Path.components_slash, last, walk_append]; simp only [walk_singleton]

theorem exists_join (dir name : String) : ∃ rest, Path.join dir name = dir ++ rest := by
  unfold Path.join
  split
  · exact ⟨name, rfl⟩
  · exact ⟨"/" ++ name, String.append_assoc ..⟩

theorem join_ne_empty (nonempty : name ≠ "") : Path.join dir name ≠ "" := by
  unfold Path.join
  split
  · exact fun empty => nonempty (String.append_eq_empty_iff.mp empty).2
  · exact fun empty => nonempty (String.append_eq_empty_iff.mp empty).2

/-- A joined path begins where the directory does. -/
theorem origin_join (plain : '/' ∉ name.toList) : d.origin (Path.join dir name) = d.origin dir := by
  suffices same : Path.isAbsolute (Path.join dir name) = Path.isAbsolute dir by rw [origin, origin, same]
  by_cases empty : dir = ""
  · subst empty
    have relative : name.toList.head? ≠ some '/' := fun head => plain (List.mem_of_head? head)
    simp [Path.join, Path.isAbsolute, relative]
  · obtain ⟨rest, joined⟩ := exists_join dir name
    obtain ⟨first, others, chars⟩ := List.exists_cons_of_ne_nil (mt String.toList_eq_nil_iff.mp empty)
    simp [joined, Path.isAbsolute, chars]

/-- The disk refuses a path that has a zero in it, is empty or is too long. -/
theorem flaw?_eq_none_iff :
    flaw? path = none ↔ '\x00' ∉ path.toList ∧ path ≠ "" ∧ path.utf8ByteSize ≤ longestPath := by
  by_cases zero : '\x00' ∈ path.toList
  · simp [flaw?, zero]
  · by_cases empty : path = ""
    · simp [flaw?, empty]
    · by_cases long : longestPath < path.utf8ByteSize
      · simp [flaw?, zero, empty, long]
      · simp [flaw?, zero, empty, long, Nat.le_of_not_lt long]

/-- The path of a directory has no flaw that the path of a name in it does not have. -/
theorem flaw?_of_join (nonempty : dir ≠ "") (sound : flaw? (Path.join dir name) = none) : flaw? dir = none := by
  obtain ⟨rest, joined⟩ := exists_join dir name
  rw [joined, flaw?_eq_none_iff, String.toList_append, String.utf8ByteSize_append, List.mem_append, not_or] at sound
  exact flaw?_eq_none_iff.mpr ⟨sound.1.1, nonempty, Nat.le_trans (Nat.le_add_right ..) sound.2.2⟩

theorem locate_eq_ok_iff :
    d.locate path = .ok place ↔ flaw? path = none ∧ d.walk (d.origin path) (Path.components path) = .ok place := by
  unfold locate
  cases flaw? path <;> simp

/-- A proper name is entered below a directory, and leads neither back nor nowhere. -/
theorem enter_eq_ok_iff (proper : Path.ProperName name) :
    d.enter around name = .ok place ↔
      d.entryAt around = some .directory ∧ name.utf8ByteSize ≤ longestName ∧ place = name :: around := by
  unfold enter
  cases found : d.entryAt around with
  | none => simp
  | some e =>
    cases e with
    | file bytes => simp
    | directory =>
      simp only [proper.notEmpty, proper.notDot, proper.notDots, or_self, if_false, true_and]
      split
      next long => simpa using fun short => absurd short (Nat.not_le.mpr long)
      next short => simp [Nat.le_of_not_lt short, eq_comm]

/-- The location of a name in a directory, where the path leads to the directory. -/
theorem locate_join_eq_ok_iff (proper : Path.ProperName name) (nonempty : dir ≠ "") :
    d.locate (Path.join dir name) = .ok place ↔
      ∃ around, flaw? (Path.join dir name) = none ∧ d.locate dir = .ok around ∧
        d.entryAt around = some .directory ∧ name.utf8ByteSize ≤ longestName ∧ place = name :: around := by
  rw [locate_eq_ok_iff, origin_join proper.noSlash, walk_join proper.noSlash]
  constructor
  · rintro ⟨sound, walked⟩
    cases first : d.walk (d.origin dir) (Path.components dir) with
    | error cause => simp [first, bind, Except.bind] at walked
    | ok around =>
      rw [first] at walked
      have located := locate_eq_ok_iff.mpr ⟨flaw?_of_join nonempty sound, first⟩
      exact ⟨around, sound, located, (enter_eq_ok_iff proper).mp walked⟩
  · rintro ⟨around, sound, located, entered⟩
    rw [(locate_eq_ok_iff.mp located).2]
    exact ⟨sound, (enter_eq_ok_iff proper).mpr entered⟩

theorem lookup_eq_ok_iff :
    d.lookup path = .ok e ↔ ∃ place, d.locate path = .ok place ∧ d.entryAt place = some e := by
  unfold lookup
  cases d.locate path with
  | error cause => simp [bind, Except.bind]
  | ok place =>
    cases found : d.entryAt place <;>
      simp [bind, Except.bind, found, pure, Except.pure, throw, throwThe, MonadExceptOf.throw]

theorem lookup_eq_ok_iff_entryAt (located : d.locate path = .ok place) :
    d.lookup path = .ok e ↔ d.entryAt place = some e := by
  rw [lookup_eq_ok_iff, located]
  simp

/-- A path that leads somewhere has something exactly if there is an entry. -/
theorem has_eq_isSome (located : d.locate path = .ok place) : d.has path = (d.entryAt place).isSome := by
  have lookup (e : Entry) := lookup_eq_ok_iff_entryAt (e := e) located
  rw [has]
  cases found : d.entryAt place with
  | some e =>
    rw [(lookup e).mpr found]
    rfl
  | none =>
    cases looked : d.lookup path with
    | error cause => rfl
    | ok e => exact absurd ((lookup e).mp looked) (by simp [found])

/-- The entry of a name in a directory, where the path leads to the directory. -/
theorem lookup_join_eq_ok (proper : Path.ProperName name) (nonempty : dir ≠ "")
    (found : d.lookup (Path.join dir name) = .ok e) :
    ∃ around, d.locate dir = .ok around ∧ d.entryAt around = some .directory ∧
      d.entryAt (name :: around) = some e := by
  obtain ⟨place, located, entry⟩ := lookup_eq_ok_iff.mp found
  obtain ⟨around, -, first, directory, -, rfl⟩ := (locate_join_eq_ok_iff proper nonempty).mp located
  exact ⟨around, first, directory, entry⟩

end Disk
end Linkage
