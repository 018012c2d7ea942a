import Linkage.Proofs.Disk.Contents

/-!
# What a change changes

A change of an entry is seen at its location only, and the removal of a directory at the locations below it. The
operations on a name in a directory come to one change each.
-/
namespace Linkage

namespace Path

theorem exists_components_join {name : String} (plain : '/' ∉ name.toList) (dir : String) :
    ∃ before, components (join dir name) = before ++ [name] := by
  have last : components name = [name] := components_of_not_mem plain
  unfold join
  split
  next direct =>
    rcases Bool.or_eq_true_iff.mp direct with empty | ends
    · obtain rfl : dir = "" := by simpa using empty
      exact ⟨[], by rw [String.empty_append, last, List.nil_append]⟩
    · obtain ⟨front, rfl⟩ := Disk.exists_of_endsInSlash ends
      exact ⟨components front, by rw [components_slash, last]⟩
  next => exact ⟨components dir, by rw [components_slash, last]⟩

/-- A joined path is split again at the name that was joined to it, however the directory was spelled. -/
theorem splitLast?_join {name : String} (proper : ProperName name) (dir : String) :
    ∃ before, components (join dir name) = before ++ [name] ∧ splitLast? (join dir name) = some (before, name) := by
  obtain ⟨before, split⟩ := exists_components_join proper.noSlash dir
  have nonempty : name.isEmpty = false := by simpa using proper.notEmpty
  refine ⟨before, split, ?_⟩
  rw [splitLast?, split, List.reverse_append, List.reverse_singleton, List.singleton_append, List.dropWhile_cons,
    nonempty]
  simp

theorem endsInSlash_join {name : String} (proper : ProperName name) (dir : String) :
    endsInSlash (join dir name) = false := by
  have last : ∀ front : String, (front ++ name).toList.getLast? ≠ some '/' := by
    intro front ends
    have nonempty : name.toList ≠ [] := mt String.toList_eq_nil_iff.mp proper.notEmpty
    rw [String.toList_append, List.getLast?_append_of_ne_nil _ nonempty] at ends
    exact proper.noSlash (List.mem_of_getLast? ends)
  unfold endsInSlash join
  split
  · exact decide_eq_false (last dir)
  · exact decide_eq_false (last (dir ++ "/"))

end Path

namespace Disk

variable {d d' : Disk} {place around other stop : Location} {path dir name : String} {e : Entry} {bytes : Bytes}

/-- To filter entries by their places is to forget those of all other places. -/
theorem lookup_filter (entries : List (Location × Entry)) (kept : Location → Bool) (stop : Location) :
    (entries.filter fun entry => kept entry.1).lookup stop = if kept stop then entries.lookup stop else none := by
  induction entries with
  | nil => simp
  | cons first rest ih =>
    obtain ⟨location, e⟩ := first
    by_cases here : stop = location
    · subst here
      by_cases stays : kept stop = true
      · simp [stays]
      · rw [List.filter_cons, if_neg stays, ih, if_neg stays, if_neg stays]
    · have passed : (stop == location) = false := beq_eq_false_iff_ne.mpr here
      by_cases stays : kept location = true
      · rw [List.filter_cons, if_pos stays, List.lookup_cons, List.lookup_cons, passed, ih]
      · rw [List.filter_cons, if_neg stays, List.lookup_cons, passed, ih]

/-- Putting an entry changes what is at its place, and at no other one. -/
theorem entryAt_put (name : String) (around stop : Location) (e : Entry) :
    (d.put (name :: around) e).entryAt stop = if stop = name :: around then some e else d.entryAt stop := by
  cases stop with
  | nil => rfl
  | cons first rest =>
    by_cases here : first :: rest = name :: around
    · rw [here, if_pos rfl]
      exact List.lookup_cons_self
    · have passed : (first :: rest == name :: around) = false := beq_eq_false_iff_ne.mpr here
      change ((name :: around, e) :: _).lookup (first :: rest) = _
      rw [List.lookup_cons, passed, if_neg here]
      exact (lookup_filter d.entries (fun place => decide (place ≠ name :: around)) _).trans
        (if_pos (decide_eq_true here))

/-- Removing an entry leaves all other places as they are. -/
theorem entryAt_remove (name : String) (around stop : Location) :
    (d.remove (name :: around)).entryAt stop = if stop = name :: around then none else d.entryAt stop := by
  cases stop with
  | nil => rfl
  | cons first rest =>
    refine (lookup_filter d.entries (fun place => decide (place ≠ name :: around)) _).trans ?_
    by_cases here : first :: rest = name :: around
    · rw [if_pos here, if_neg (by simpa using here)]
    · rw [if_neg here, if_pos (decide_eq_true here)]
      rfl

theorem entryAt_writeFile (name : String) (around stop : Location) (bytes : Bytes) :
    (d.change (.writeFile (name :: around) bytes)).entryAt stop =
      if stop = name :: around then some (.file bytes) else d.entryAt stop := entryAt_put ..

theorem entryAt_makeDirectory (name : String) (around stop : Location) :
    (d.change (.makeDirectory (name :: around))).entryAt stop =
      if stop = name :: around then some .directory else d.entryAt stop := entryAt_put ..

theorem entryAt_removeFile (name : String) (around stop : Location) :
    (d.change (.removeFile (name :: around))).entryAt stop =
      if stop = name :: around then none else d.entryAt stop := entryAt_remove ..

/-- Removing a tree removes all that is below its root, and the root. -/
theorem entryAt_removeTree (name : String) (around stop : Location) :
    (d.change (.removeTree (name :: around))).entryAt stop =
      if name :: around <:+ stop then none else d.entryAt stop := by
  have kept (stop : Location) : (decide (stop ≠ name :: around) &&
      (!(name :: around).isSuffixOf stop || decide (stop = name :: around))) = true ↔ ¬ name :: around <:+ stop := by
    have below : (name :: around).isSuffixOf stop = decide (name :: around <:+ stop) := by
      rw [Bool.eq_iff_iff, List.isSuffixOf_iff_suffix, decide_eq_true_iff]
    rw [below]
    by_cases here : stop = name :: around
    · simp [here]
    · simp [here]
  cases stop with
  | nil =>
    have outside : ¬ name :: around <:+ [] := fun below => absurd (List.suffix_nil.mp below) (List.cons_ne_nil _ _)
    rw [if_neg outside]
    rfl
  | cons first rest =>
    have entries : (d.change (.removeTree (name :: around))).entries = d.entries.filter fun entry =>
        (decide (entry.1 ≠ name :: around) &&
          (!(name :: around).isSuffixOf entry.1 || decide (entry.1 = name :: around))) := List.filter_filter
    rw [show (d.change (.removeTree (name :: around))).entryAt (first :: rest) =
      (d.change (.removeTree (name :: around))).entries.lookup (first :: rest) from rfl, entries]
    refine (lookup_filter d.entries (fun stop => decide (stop ≠ name :: around) &&
      (!(name :: around).isSuffixOf stop || decide (stop = name :: around))) _).trans ?_
    by_cases below : name :: around <:+ first :: rest
    · rw [if_pos below, if_neg fun stays => (kept _).mp stays below]
    · rw [if_neg below, if_pos ((kept _).mpr below)]
      rfl

/-! ### The names in a directory -/

/-- The listing of a directory without one place is its listing without one name. -/
theorem inside_filter_names (name : String) (around : Location) :
    (d.entries.filter (·.1 ≠ name :: around)).filterMap (nameIn around) = (d.inside around).filter (·.1 ≠ name) := by
  rw [inside, List.filter_filterMap, List.filterMap_filter]
  refine List.filterMap_congr fun entry _ => ?_
  obtain ⟨location, e⟩ := entry
  cases location with
  | nil => simp [nameIn]
  | cons other place =>
    by_cases same : place = around
    · by_cases named : other = name <;> simp [nameIn, same, named, Option.filter]
    · simp [nameIn, same]

/-- A new entry comes first in the listing, and replaces the one of its name. -/
theorem inside_put (name : String) (around : Location) (e : Entry) :
    (d.put (name :: around) e).inside around = (name, e) :: (d.inside around).filter (·.1 ≠ name) := by
  have own : nameIn around (name :: around, e) = some (name, e) := nameIn_eq_some_iff.mpr rfl
  rw [← inside_filter_names]
  exact List.filterMap_cons_some own

theorem inside_remove (name : String) (around : Location) :
    (d.remove (name :: around)).inside around = (d.inside around).filter (·.1 ≠ name) := inside_filter_names name around

theorem nameIn_eq_none {entry : Location × Entry} (outside : entry.1.tail ≠ around) : nameIn around entry = none := by
  obtain ⟨location, e⟩ := entry
  cases location with
  | nil => simp [nameIn]
  | cons name place => simpa [nameIn] using outside

/-- A change at a location is not seen in a directory that the location is not in. -/
theorem inside_put_of_ne (elsewhere : other ≠ around) (name : String) (e : Entry) :
    (d.put (name :: other) e).inside around = d.inside around := by
  have own : nameIn around (name :: other, e) = none := nameIn_eq_none elsewhere
  refine (List.filterMap_cons_none own).trans ?_
  rw [inside, List.filterMap_filter]
  refine List.filterMap_congr fun entry _ => ?_
  by_cases here : entry.1 = name :: other
  · rw [if_neg (by simpa using here), nameIn_eq_none (by rwa [here])]
  · rw [if_pos (decide_eq_true here)]

/-- The names listed of a directory are those that something can be found under. -/
theorem mem_names_iff : name ∈ (d.inside around).map (·.1) ↔ ∃ e, d.entryAt (name :: around) = some e := by
  rw [entryAt_cons]
  constructor
  · intro member
    cases found : (d.inside around).lookup name with
    | some e => exact ⟨e, rfl⟩
    | none =>
      obtain ⟨⟨other, e⟩, listed, rfl⟩ := List.mem_map.mp member
      exact absurd (List.lookup_eq_none_iff.mp found _ listed) (by simp)
  · rintro ⟨e, found⟩
    obtain ⟨front, back, split, -⟩ := List.lookup_eq_some_iff.mp found
    rw [split, List.map_append]
    exact List.mem_append_right _ List.mem_cons_self

/-- A listing has each name once, also after something is put there. -/
theorem nodup_names_put {e : Entry} (distinct : ((d.inside around).map (·.1)).Nodup) :
    (((d.put (name :: around) e).inside around).map (·.1)).Nodup := by
  rw [inside_put, List.map_cons, List.nodup_cons]
  refine ⟨?_, distinct.sublist (List.filter_sublist.map _)⟩
  intro member
  obtain ⟨named, kept, same⟩ := List.mem_map.mp member
  exact absurd same (by simpa using (List.mem_filter.mp kept).2)

theorem nodup_names_remove (distinct : ((d.inside around).map (·.1)).Nodup) :
    (((d.remove (name :: around)).inside around).map (·.1)).Nodup := by
  rw [inside_remove]
  exact distinct.sublist (List.filter_sublist.map _)

/-! ### Operations on a name in a directory -/

theorem run_ask {α : Type} {question : Disk → Except DiskError α} {answer : α} (answered : question d = .ok answer) :
    (ask question).run d = .ok answer d := by
  simp only [ask, EStateM.run_bind, EStateM.run_get, answered, EStateM.run_pure]

theorem run_ask_error {α : Type} {question : Disk → Except DiskError α} {cause : DiskError}
    (failed : question d = .error cause) : (ask question).run d = .error cause d := by
  simp only [ask, EStateM.run_bind, EStateM.run_get, failed]
  rfl

/-- Writing and reading look for a proper name in the same place. -/
theorem locateTarget_join (proper : Path.ProperName name) (dir : String) :
    d.locateTarget (Path.join dir name) = d.locate (Path.join dir name) := by
  obtain ⟨before, split, last⟩ := Path.splitLast?_join proper dir
  have ends : Path.endsInSlash (Path.join dir name) = false := Path.endsInSlash_join proper dir
  unfold locateTarget locate
  cases flaw? (Path.join dir name) with
  | some flaw => rfl
  | none =>
    simp only [last, ends, split, walk_append, walk_singleton]
    rfl

theorem run_ask_eq_ok_iff {α : Type} {question : Disk → Except DiskError α} {answer : α} :
    (ask question).run d = .ok answer d' ↔ question d = .ok answer ∧ d' = d := by
  cases asked : question d with
  | ok found => simp [run_ask asked, eq_comm]
  | error cause => simp [run_ask_error asked]

/-- All that writing a file needs and does. -/
theorem run_writeFile_eq_ok_iff :
    (writeFile path bytes).run d = .ok () d' ↔
      ∃ place, d.locateTarget path = .ok place ∧ d.entryAt place ≠ some .directory ∧
        d' = d.change (.writeFile place bytes) := by
  cases located : d.locateTarget path with
  | error cause =>
    have asked : (ask (·.locateTarget path)).run d = .error cause d := run_ask_error located
    simp [writeFile, EStateM.run_bind, asked]
  | ok place =>
    have asked : (ask (·.locateTarget path)).run d = .ok place d := run_ask located
    by_cases directory : d.entryAt place = some .directory
    · simp [writeFile, EStateM.run_bind, asked, directory]
    · simp [writeFile, EStateM.run_bind, asked, directory]
      exact eq_comm

/-- A directory cannot be removed as a file. -/
theorem run_removeFile_eq_ok_iff :
    (removeFile path).run d = .ok () d' ↔
      ∃ place bytes, d.locate path = .ok place ∧ d.entryAt place = some (.file bytes) ∧
        d' = d.change (.removeFile place) := by
  cases located : d.locate path with
  | error cause =>
    have asked : (ask (·.locate path)).run d = .error cause d := run_ask_error located
    simp [removeFile, EStateM.run_bind, asked]
  | ok place =>
    have asked : (ask (·.locate path)).run d = .ok place d := run_ask located
    cases found : d.entryAt place with
    | none => simp [removeFile, EStateM.run_bind, asked, found]
    | some e => cases e <;> simp [removeFile, EStateM.run_bind, asked, found, eq_comm]

/-- A tree is removed if it is one; the last component of the path is not followed further. -/
theorem run_removeTree_eq_ok_iff (proper : Path.ProperName name) :
    (removeTree (Path.join dir name)).run d = .ok () d' ↔
      ∃ place, d.locate (Path.join dir name) = .ok place ∧ d.entryAt place = some .directory ∧
        d' = d.change (.removeTree place) := by
  obtain ⟨before, -, last⟩ := Path.splitLast?_join proper dir
  have named : ¬ (name = "." ∨ name = "..") := not_or.mpr ⟨proper.notDot, proper.notDots⟩
  cases located : d.locate (Path.join dir name) with
  | error cause =>
    have asked : (ask (·.locate (Path.join dir name))).run d = .error cause d := run_ask_error located
    simp [removeTree, EStateM.run_bind, asked]
  | ok place =>
    have asked : (ask (·.locate (Path.join dir name))).run d = .ok place d := run_ask located
    cases found : d.entryAt place with
    | none => simp [removeTree, EStateM.run_bind, asked, found]
    | some e => cases e <;> simp [removeTree, EStateM.run_bind, asked, found, last, named, eq_comm]

end Disk
end Linkage
