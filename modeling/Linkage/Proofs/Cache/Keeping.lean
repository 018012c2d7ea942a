import Linkage.Proofs.Cache.Directory
import Linkage.Proofs.Cache.Shelf

/-!
# What the directory of a cache holds

The directory of archives holds the encoding of each archive on the shelf under the name of its path, and nothing else;
the version stands beside it. Each change that a cache makes keeps it that way.
-/
namespace Linkage
namespace Cache

variable {c : Cache} {d d' : Disk} {root : Location} {s : Shelf} {used : List String} {path : String}

/-- Naming the path in an error does not change a success. -/
theorem run_atPath_eq_ok_iff {α : Type} {action : String → Disk.Action α} {a : α} :
    (atPath path action).run d = .ok a d' ↔ (action path).run d = .ok a d' := by
  simp only [atPath, EStateM.run]
  cases action path d <;> simp

/-! ### The version -/

theorem readText_eq_ok_iff {file text : String} :
    d.readText file = .ok text ↔ d.lookup file = .ok (.file (Text.Utf8.encode text)) := by
  cases looked : d.lookup file with
  | error cause => simp [Disk.readText, Disk.contents, looked, bind, Except.bind]
  | ok e =>
    cases e with
    | directory =>
      simp [Disk.readText, Disk.contents, looked, bind, Except.bind, throw, throwThe, MonadExceptOf.throw]
    | file bytes =>
      have decoded : Text.Utf8.decode bytes = .ok text ↔ bytes = Text.Utf8.encode text := Text.Utf8.decode_eq_ok_iff
      simp only [Disk.readText, Disk.contents, looked, bind, Except.bind, pure, Except.pure, Except.ok.injEq,
        Entry.file.injEq, ← decoded]
      cases Text.Utf8.decode bytes <;> simp [throw, throwThe, MonadExceptOf.throw]

namespace Arrives

theorem has_archives (arrives : c.Arrives root d) : d.has c.archives = true := by
  rw [Disk.has_eq_isSome arrives.located, arrives.directory]
  rfl

/-- Without a version file a directory is not current, and no archive in it is trusted. -/
theorem run_isCurrent_of_missing (arrives : c.Arrives root d) (missing : d.entryAt ("version" :: root) = none) :
    c.isCurrent.run d = .ok false d := by
  have there := Disk.has_eq_isSome arrives.locate_stamp
  rw [missing] at there
  simp [isCurrent, EStateM.run_bind, there]

/-- The text is compared without the blanks around it, the version of the cache as it is. -/
theorem run_isCurrent_of_text (arrives : c.Arrives root d) {text : String}
    (written : d.entryAt ("version" :: root) = some (.file (Text.Utf8.encode text))) :
    c.isCurrent.run d = .ok (decide (Text.trim text = c.version)) d := by
  have there := Disk.has_eq_isSome arrives.locate_stamp
  have read := readText_eq_ok_iff.mpr ((Disk.lookup_eq_ok_iff_entryAt arrives.locate_stamp).mpr written)
  have asked : (atPath c.stamp fun path => Disk.ask (·.readText path)).run d = .ok text d :=
    run_atPath_eq_ok_iff.mpr (Disk.run_ask read)
  rw [written] at there
  simp only [isCurrent, EStateM.run_bind, EStateM.run_get, there, Option.isSome_some, Bool.not_true, Bool.false_eq_true,
    if_false, asked, EStateM.run_pure]

end Arrives

/-- The directory of archives is there, and the version is beside it, blanks at its ends apart. -/
structure Opened (c : Cache) (root : Location) (d : Disk) : Prop where
  arrives : c.Arrives root d
  written : ∃ text, d.entryAt ("version" :: root) = some (.file (Text.Utf8.encode text)) ∧
    Text.trim text = Text.trim c.version

namespace Opened

/-- A version is read back trimmed, so a padded version never finds its own directory. -/
theorem run_isCurrent (opened : c.Opened root d) :
    c.isCurrent.run d = .ok (decide (Text.trim c.version = c.version)) d := by
  obtain ⟨text, found, alike⟩ := opened.written
  rw [opened.arrives.run_isCurrent_of_text found, alike]

/-- Opening a current directory changes nothing at all. -/
theorem run_prepare (opened : c.Opened root d) (trimmed : Text.trim c.version = c.version) :
    c.prepare.run d = .ok () d := by
  have made : (atPath c.archives Disk.makeDirectories).run d = .ok () d :=
    run_atPath_eq_ok_iff.mpr opened.arrives.run_makeDirectories
  simp only [prepare, EStateM.run_bind, made, opened.run_isCurrent, decide_eq_true trimmed, Bool.not_true,
    Bool.false_eq_true, if_false, EStateM.run_pure]

end Opened

/-! ### Archives -/

theorem mem_keys_iff {archives : Std.TreeMap String Archive} :
    path ∈ archives.keys ↔ ∃ a, archives[path]? = some a := by
  rw [Std.TreeMap.mem_keys, Std.TreeMap.mem_iff_isSome_getElem?, Option.isSome_iff_exists]

/-- The directory of archives holds what is on the shelf, and the version is written beside it. -/
structure Keeps (c : Cache) (root : Location) (s : Shelf) (d : Disk) : Prop where
  stands : c.StandsIn root d
  stamped : d.entryAt ("version" :: root) = s.version.map fun version => .file (Text.Utf8.encode version)
  entry_iff : ∀ name e, d.entryAt (name :: "archives" :: root) = some e ↔
    ∃ path a, s.archives[path]? = some a ∧ fileName path = name ∧ e = .file a.encode
  distinct : ((d.inside ("archives" :: root)).map (·.1)).Nodup

/-- No two of the paths have the same digest, and all that is on the shelf is under one of them. -/
structure Tells (used : List String) (s : Shelf) : Prop where
  distinct : ∀ p ∈ used, ∀ q ∈ used, Digest.sha256 (Text.Utf8.encode p) = Digest.sha256 (Text.Utf8.encode q) → p = q
  used : ∀ path a, s.archives[path]? = some a → path ∈ used

/-- File names tell the paths apart that are used. -/
theorem Tells.eq_of_fileName (tells : Tells used s) {p q : String} (member : p ∈ used) (member' : q ∈ used)
    (same : fileName p = fileName q) : p = q :=
  tells.distinct p member q member' (sha256_eq_of_fileName same)

namespace Keeps

/-- The entry of a path is the encoding of what the shelf has under it. -/
theorem entryAt_fileName (keeps : c.Keeps root s d) (tells : Tells used s) (member : path ∈ used) :
    d.entryAt (fileName path :: "archives" :: root) = s.archives[path]?.map fun a => .file a.encode := by
  cases stored : s.archives[path]? with
  | some a => exact (keeps.entry_iff _ _).mpr ⟨path, a, stored, rfl, rfl⟩
  | none =>
    cases found : d.entryAt (fileName path :: "archives" :: root) with
    | none => rfl
    | some e =>
      obtain ⟨other, a, stored', name, -⟩ := (keeps.entry_iff _ _).mp found
      rw [tells.eq_of_fileName (tells.used other a stored') member name, stored] at stored'
      cases stored'

theorem lookup_fileOf (keeps : c.Keeps root s d) (roomy : c.Roomy) (path : String) (e : Entry) :
    d.lookup (c.fileOf path) = .ok e ↔ d.entryAt (fileName path :: "archives" :: root) = some e := by
  have located := keeps.stands.arrives.locate_fileOf (flaw?_fileOf roomy keeps.stands.arrives.flawless path)
  exact Disk.lookup_eq_ok_iff_entryAt located

theorem has_eq (keeps : c.Keeps root s d) (roomy : c.Roomy) (tells : Tells used s) (member : path ∈ used) :
    c.has d path = s.archives.contains path := by
  have located := keeps.stands.arrives.locate_fileOf (flaw?_fileOf roomy keeps.stands.arrives.flawless path)
  rw [has, Disk.has_eq_isSome located, keeps.entryAt_fileName tells member, Option.isSome_map,
    Std.TreeMap.contains_eq_isSome_getElem?]

/-- A load sees the encodings of the archives on the shelf. -/
theorem stream?_eq (keeps : c.Keeps root s d) (roomy : c.Roomy) (tells : Tells used s) (member : path ∈ used) :
    c.stream? d path = s.archives[path]?.map fun a => { data := a.encode } := by
  have stored := keeps.entryAt_fileName tells member
  have lookup := keeps.lookup_fileOf roomy path
  rw [stored] at lookup
  unfold stream?
  cases found : s.archives[path]? with
  | some a =>
    rw [found] at lookup
    rw [(lookup _).mpr rfl]
    rfl
  | none =>
    rw [found] at lookup
    cases looked : d.lookup (c.fileOf path) with
    | error cause => rfl
    | ok e => exact absurd ((lookup e).mp looked) (by simp)

/-- As many names as archives. -/
theorem names_perm (keeps : c.Keeps root s d) (tells : Tells used s) :
    ((d.inside ("archives" :: root)).map (·.1)).Perm (s.archives.keys.map fileName) := by
  refine (List.perm_ext_iff_of_nodup keeps.distinct ?_).mpr fun name => ?_
  · refine List.Nodup.map_on (fun p member q member' same => ?_) Std.TreeMap.nodup_keys
    have key {p : String} (member : p ∈ s.archives.keys) : p ∈ used := by
      obtain ⟨a, found⟩ := mem_keys_iff.mp member
      exact tells.used p a found
    exact tells.eq_of_fileName (key member) (key member') same
  · rw [Disk.mem_names_iff, List.mem_map]
    constructor
    · rintro ⟨e, found⟩
      obtain ⟨path, a, stored, same, -⟩ := (keeps.entry_iff name e).mp found
      exact ⟨path, mem_keys_iff.mpr ⟨a, stored⟩, same⟩
    · rintro ⟨path, member, same⟩
      obtain ⟨a, stored⟩ := mem_keys_iff.mp member
      exact ⟨_, (keeps.entry_iff name _).mpr ⟨path, a, stored, same, rfl⟩⟩

theorem list_archives (keeps : c.Keeps root s d) :
    d.list c.archives = .ok ((d.inside ("archives" :: root)).map (·.1)) :=
  Disk.list_eq keeps.stands.located keeps.stands.directory

/-- Counting files with the extension counts the archives on the shelf. -/
theorem capacity_eq (keeps : c.Keeps root s d) (tells : Tells used s) : c.capacity d = s.archives.size := by
  have count := (keeps.names_perm tells).length_eq
  rw [List.length_map (f := fileName), Std.TreeMap.length_keys] at count
  rw [capacity, keeps.list_archives]
  exact count

/-- Each of the names has the extension of archives. -/
theorem run_count (keeps : c.Keeps root s d) (tells : Tells used s) : c.count.run d = .ok s.archives.size d := by
  have run : (atPath c.archives fun path => Disk.ask (·.list path)).run d =
      .ok ((d.inside ("archives" :: root)).map (·.1)) d := run_atPath_eq_ok_iff.mpr (Disk.run_ask keeps.list_archives)
  have all : ((d.inside ("archives" :: root)).map (·.1)).countP (Path.hasExtension · "a") = s.archives.size := by
    have extended : ∀ name ∈ s.archives.keys.map fileName, Path.hasExtension name "a" = true := by
      intro name member
      obtain ⟨path, -, same⟩ := List.mem_map.mp member
      rw [← same]
      exact hasExtension_fileName path
    rw [(keeps.names_perm tells).countP_eq, List.countP_eq_length.mpr extended, List.length_map,
      Std.TreeMap.length_keys]
  simp only [count, EStateM.run_bind, run, all, EStateM.run_pure]

end Keeps

/-! ### Changes -/

namespace Keeps

theorem of_dir (keeps : c.Keeps root s d) (version : String) : { c with version }.Keeps root s d where
  stands := ⟨keeps.stands.located, keeps.stands.directory, keeps.stands.begins, keeps.stands.apart⟩
  stamped := keeps.stamped
  entry_iff := keeps.entry_iff
  distinct := keeps.distinct

theorem stamp_ne (name : String) (root : Location) : "version" :: root ≠ name :: "archives" :: root := by
  intro same
  exact absurd (congrArg List.length same) (by simp)

/-- No archive is hidden by a directory of its name. -/
theorem not_directory (keeps : c.Keeps root s d) (name : String) :
    d.entryAt (name :: "archives" :: root) ≠ some .directory := by
  intro found
  obtain ⟨path, a, -, -, file⟩ := (keeps.entry_iff name _).mp found
  cases file

/-- Putting an archive writes one file, and fails for no import path. -/
theorem run_put (keeps : c.Keeps root s d) (roomy : c.Roomy) (a : Archive) :
    (c.put a).run d = .ok (c.fileOf a.importPath)
      (d.change (.writeFile (fileName a.importPath :: "archives" :: root) a.encode)) := by
  have located := keeps.stands.arrives.locate_fileOf (flaw?_fileOf roomy keeps.stands.arrives.flawless a.importPath)
  rw [fileOf_eq, ← Disk.locateTarget_join (fileName_proper _), ← fileOf_eq] at located
  have written : (atPath (c.fileOf a.importPath) (Disk.writeFile · a.encode)).run d =
      .ok () (d.change (.writeFile (fileName a.importPath :: "archives" :: root) a.encode)) :=
    run_atPath_eq_ok_iff.mpr (Disk.run_writeFile_eq_ok_iff.mpr ⟨_, located, keeps.not_directory _, rfl⟩)
  simp only [put, EStateM.run_bind, written, EStateM.run_pure]

/-- A change under one path, on the shelf and in the directory. -/
theorem entry_iff_of_change (keeps : c.Keeps root s d) (tells : Tells used s) (member : path ∈ used)
    (stored : Option Archive) {s' : Shelf}
    (archives : ∀ other, s'.archives[other]? = if path = other then stored else s.archives[other]?)
    (entries : ∀ name, d'.entryAt (name :: "archives" :: root) =
      if name = fileName path then stored.map fun a => .file a.encode else d.entryAt (name :: "archives" :: root))
    (name : String) (e : Entry) :
    d'.entryAt (name :: "archives" :: root) = some e ↔
      ∃ path a, s'.archives[path]? = some a ∧ fileName path = name ∧ e = .file a.encode := by
  rw [entries]
  by_cases here : name = fileName path
  · rw [if_pos here, Option.map_eq_some_iff]
    constructor
    · rintro ⟨a, found, same⟩
      refine ⟨path, a, ?_, here.symm, same.symm⟩
      rw [archives, if_pos rfl, found]
    · rintro ⟨other, a, found, named, same⟩
      rw [archives] at found
      by_cases own : path = other
      · rw [if_pos own] at found
        exact ⟨a, found, same.symm⟩
      · rw [if_neg own] at found
        exact absurd (tells.eq_of_fileName member (tells.used other a found) (here.symm.trans named.symm)) own
  · rw [if_neg here, keeps.entry_iff]
    -- The archives with this name are under other paths.
    have elsewhere {other : String} (named : fileName other = name) : s'.archives[other]? = s.archives[other]? := by
      rw [archives, if_neg]
      rintro rfl
      exact here named.symm
    constructor
    · rintro ⟨other, a, found, named, same⟩
      exact ⟨other, a, (elsewhere named).trans found, named, same⟩
    · rintro ⟨other, a, found, named, same⟩
      exact ⟨other, a, (elsewhere named).symm.trans found, named, same⟩

/-- The shelf has the archive now, whatever it had under that path before. -/
theorem put (keeps : c.Keeps root s d) (tells : Tells used s) {a : Archive} (member : a.importPath ∈ used) :
    c.Keeps root { s with archives := s.archives.insert a.importPath a }
      (d.change (.writeFile (fileName a.importPath :: "archives" :: root) a.encode)) where
  stands := keeps.stands.of_change (Disk.home_change d _) fun stop passed =>
    (Disk.entryAt_writeFile _ _ stop _).trans (if_neg (keeps.stands.ne_of_mem_trail passed _))
  stamped := (Disk.entryAt_writeFile _ _ _ _).trans ((if_neg (stamp_ne _ root)).trans keeps.stamped)
  entry_iff := by
    apply keeps.entry_iff_of_change tells member (some a)
    · intro other
      simp only [Std.TreeMap.getElem?_insert, Std.LawfulEqOrd.compare_eq_iff_eq]
    · intro name
      simp only [Disk.entryAt_writeFile, List.cons.injEq, and_true, Option.map_some]
  distinct := Disk.nodup_names_put keeps.distinct

/-- The shelf loses the archive and nothing else. -/
theorem erase (keeps : c.Keeps root s d) (tells : Tells used s) (member : path ∈ used) :
    c.Keeps root { s with archives := s.archives.erase path }
      (d.change (.removeFile (fileName path :: "archives" :: root))) where
  stands := keeps.stands.of_change (Disk.home_change d _) fun stop passed =>
    (Disk.entryAt_removeFile _ _ stop).trans (if_neg (keeps.stands.ne_of_mem_trail passed _))
  stamped := (Disk.entryAt_removeFile _ _ _).trans ((if_neg (stamp_ne _ root)).trans keeps.stamped)
  entry_iff := by
    apply keeps.entry_iff_of_change tells member none
    · intro other
      simp only [Std.TreeMap.getElem?_erase, Std.LawfulEqOrd.compare_eq_iff_eq]
    · intro name
      simp only [Disk.entryAt_removeFile, List.cons.injEq, and_true, Option.map_none]
  distinct := Disk.nodup_names_remove keeps.distinct

/-- Removing what is not there changes nothing. -/
theorem run_remove (keeps : c.Keeps root s d) (roomy : c.Roomy) (tells : Tells used s) (member : path ∈ used) :
    ∃ d', (c.remove path).run d = .ok () d' ∧ c.Keeps root { s with archives := s.archives.erase path } d' := by
  have present := keeps.has_eq roomy tells member
  rw [has, Std.TreeMap.contains_eq_isSome_getElem?] at present
  cases stored : s.archives[path]? with
  | none =>
    rw [stored] at present
    refine ⟨d, ?_, keeps.stands, keeps.stamped, ?_, keeps.distinct⟩
    · simp only [remove, EStateM.run_bind, EStateM.run_get, present, Option.isSome_none, Bool.false_eq_true, if_false,
        EStateM.run_pure]
    · apply keeps.entry_iff_of_change tells member none
      · intro other
        simp only [Std.TreeMap.getElem?_erase, Std.LawfulEqOrd.compare_eq_iff_eq]
      · intro name
        by_cases here : name = fileName path
        · rw [if_pos here, here, keeps.entryAt_fileName tells member, stored]
        · rw [if_neg here]
  | some a =>
    rw [stored] at present
    have located := keeps.stands.arrives.locate_fileOf (flaw?_fileOf roomy keeps.stands.arrives.flawless path)
    have file := keeps.entryAt_fileName tells member
    rw [stored] at file
    have removed : (atPath (c.fileOf path) Disk.removeFile).run d =
        .ok () (d.change (.removeFile (fileName path :: "archives" :: root))) :=
      run_atPath_eq_ok_iff.mpr (Disk.run_removeFile_eq_ok_iff.mpr ⟨_, _, located, file, rfl⟩)
    refine ⟨_, ?_, keeps.erase tells member⟩
    simp only [remove, EStateM.run_bind, EStateM.run_get, present, Option.isSome_some, if_true, removed]

/-! ### Emptying -/

/-- A disk with a new directory of archives. -/
def cleared (d : Disk) (root : Location) : Disk :=
  (d.change (.removeTree ("archives" :: root))).change (.makeDirectory ("archives" :: root))

/-- After clearing, the directory of archives is there and empty. -/
theorem entryAt_cleared (root stop : Location) :
    (cleared d root).entryAt stop =
      if stop = "archives" :: root then some .directory
      else if "archives" :: root <:+ stop then none else d.entryAt stop := by
  rw [cleared, Disk.entryAt_makeDirectory, Disk.entryAt_removeTree]

theorem run_clear (keeps : c.Keeps root s d) :
    c.clear.run d = .ok () (cleared d root) := by
  have removed : (atPath c.archives Disk.removeTree).run d = .ok () (d.change (.removeTree ("archives" :: root))) :=
    run_atPath_eq_ok_iff.mpr ((Disk.run_removeTree_eq_ok_iff archives_proper).mpr
      ⟨_, keeps.stands.located, keeps.stands.directory, rfl⟩)
  have missing : (d.change (.removeTree ("archives" :: root))).entryAt ("archives" :: root) = none := by
    rw [Disk.entryAt_removeTree, if_pos (List.suffix_refl _)]
  have stops : ∀ stop ∈ c.trail d, stop ≠ "archives" :: root →
      (d.change (.removeTree ("archives" :: root))).entryAt stop = some .directory := by
    intro stop passed other
    rw [Disk.entryAt_removeTree, if_neg fun below => other (keeps.stands.apart stop passed below)]
    exact keeps.stands.arrives.walked.1 stop passed
  have made : (atPath c.archives Disk.makeDirectories).run (d.change (.removeTree ("archives" :: root))) =
      .ok () (cleared d root) :=
    run_atPath_eq_ok_iff.mpr (keeps.stands.run_makeDirectories_of_missing (Disk.home_change d _) missing stops)
  simp only [Cache.clear, EStateM.run_bind, EStateM.run_get, keeps.stands.arrives.has_archives, if_true, removed, made]

/-- Clearing empties the shelf. -/
theorem clear (keeps : c.Keeps root s d) :
    c.Keeps root { s with archives := ∅ } (cleared d root) where
  stands := by
    refine keeps.stands.of_stops ((Disk.home_change _ _).trans (Disk.home_change d _)) fun stop passed => ?_
    rw [entryAt_cleared]
    by_cases here : stop = "archives" :: root
    · rw [if_pos here]
    · rw [if_neg here, if_neg fun below => here (keeps.stands.apart stop passed below)]
      exact keeps.stands.arrives.walked.1 stop passed
  stamped := by
    have other : "version" :: root ≠ "archives" :: root := by simp
    have outside : ¬ "archives" :: root <:+ "version" :: root := by
      intro below
      exact other (below.eq_of_length rfl).symm
    rw [entryAt_cleared, if_neg other, if_neg outside]
    exact keeps.stamped
  entry_iff name e := by
    have other : name :: "archives" :: root ≠ "archives" :: root := by
      intro same
      exact absurd (congrArg List.length same) (by simp)
    rw [entryAt_cleared, if_neg other, if_pos (List.suffix_cons name _)]
    simp
  distinct := by
    have empty : ((cleared d root).inside ("archives" :: root)).map (·.1) = [] := by
      refine List.eq_nil_iff_forall_not_mem.mpr fun name member => ?_
      obtain ⟨e, found⟩ := Disk.mem_names_iff.mp member
      have other : name :: "archives" :: root ≠ "archives" :: root := by
        intro same
        exact absurd (congrArg List.length same) (by simp)
      rw [entryAt_cleared, if_neg other, if_pos (List.suffix_cons name _)] at found
      cases found
    rw [empty]
    exact List.nodup_nil

/-! ### Opening -/

/-- The cache is current exactly if the shelf has been opened under this version last. -/
theorem run_isCurrent (keeps : c.Keeps root s d)
    (trimmed : ∀ version, s.version = some version → Text.trim version = version) :
    c.isCurrent.run d = .ok (decide (s.version = some c.version)) d := by
  have stamped := keeps.stamped
  cases recorded : s.version with
  | none =>
    rw [recorded] at stamped
    rw [keeps.stands.arrives.run_isCurrent_of_missing stamped]
    rfl
  | some version =>
    rw [recorded] at stamped
    rw [keeps.stands.arrives.run_isCurrent_of_text stamped]
    simp only [trimmed version recorded, Option.some.injEq]

/-- Writing the version file stamps the shelf. -/
theorem stamp (keeps : c.Keeps root s d) (version : String) :
    c.Keeps root { s with version := some version }
      (d.change (.writeFile ("version" :: root) (Text.Utf8.encode version))) where
  stands := by
    refine keeps.stands.of_change (Disk.home_change d _) fun stop passed => ?_
    have other : stop ≠ "version" :: root := by
      rintro rfl
      have directory := keeps.stands.arrives.walked.1 _ passed
      rw [keeps.stamped] at directory
      cases recorded : s.version <;> simp [recorded] at directory
    rw [Disk.entryAt_writeFile, if_neg other]
  stamped := by
    rw [Disk.entryAt_writeFile, if_pos rfl]
    rfl
  entry_iff name e := by
    rw [Disk.entryAt_writeFile, if_neg (stamp_ne name root).symm]
    exact keeps.entry_iff name e
  distinct := by
    have elsewhere : root ≠ "archives" :: root := by
      intro same
      exact absurd (congrArg List.length same) (by simp)
    have same := Disk.inside_put_of_ne (d := d) elsewhere "version" (.file (Text.Utf8.encode version))
    have distinct := keeps.distinct
    rw [← same] at distinct
    exact distinct

/-- The invariant of a reopened cache holds for a kept one that is current. -/
theorem opened (keeps : c.Keeps root s d) (current : s.version = some c.version) : c.Opened root d where
  arrives := keeps.stands.arrives
  written := by
    have stamped := keeps.stamped
    rw [current] at stamped
    exact ⟨c.version, stamped, rfl⟩

theorem run_prepare_of_current (keeps : c.Keeps root s d) (current : s.version = some c.version)
    (trimmed : Text.trim c.version = c.version) : c.prepare.run d = .ok () d :=
  (keeps.opened current).run_prepare trimmed

/-- Opening under another version clears the directory, then stamps it. -/
theorem run_prepare_of_outdated (keeps : c.Keeps root s d) (outdated : c.isCurrent.run d = .ok false d) :
    ∃ d', c.prepare.run d = .ok () d' ∧ c.Keeps root { version := some c.version } d' := by
  have made : (atPath c.archives Disk.makeDirectories).run d = .ok () d :=
    run_atPath_eq_ok_iff.mpr keeps.stands.arrives.run_makeDirectories
  have emptied := keeps.clear
  have located := emptied.stands.arrives.locate_stamp
  rw [Cache.stamp, ← Disk.locateTarget_join stamp_proper, ← Cache.stamp] at located
  have free : (cleared d root).entryAt ("version" :: root) ≠ some .directory := by
    rw [emptied.stamped]
    cases s.version <;> simp
  have written : (atPath c.stamp (Disk.writeFile · (Text.Utf8.encode c.version))).run (cleared d root) =
      .ok () ((cleared d root).change (.writeFile ("version" :: root) (Text.Utf8.encode c.version))) :=
    run_atPath_eq_ok_iff.mpr (Disk.run_writeFile_eq_ok_iff.mpr ⟨_, located, free, rfl⟩)
  refine ⟨_, ?_, emptied.stamp c.version⟩
  simp only [prepare, EStateM.run_bind, made, outdated, Bool.not_false, if_true, keeps.run_clear, written]

/-- Opening keeps what is there if the version is the one recorded, and empties the shelf if not. -/
theorem run_prepare (keeps : c.Keeps root s d)
    (trimmed : ∀ version, s.version = some version → Text.trim version = version) :
    ∃ d', c.prepare.run d = .ok () d' ∧
      c.Keeps root (if s.version = some c.version then s else { version := some c.version }) d' := by
  by_cases same : s.version = some c.version
  · exact ⟨d, keeps.run_prepare_of_current same (trimmed _ same), by rwa [if_pos same]⟩
  · have outdated := keeps.run_isCurrent trimmed
    rw [decide_eq_false same] at outdated
    rw [if_neg same]
    exact keeps.run_prepare_of_outdated outdated

end Keeps
end Cache
end Linkage
