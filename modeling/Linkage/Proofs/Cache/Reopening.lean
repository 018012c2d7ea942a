import Linkage.Proofs.Cache.Answers
import Mathlib.Data.List.DropRight

/-!
# Opening a cache again

A cache that was opened has its directories, and a version file that comes to its own version once the blanks around
both are gone. Nothing that is done through a handle of that version changes this. The file is compared without the
blanks, though, with the version as it is: a version with blanks at an end is never found again, and each opening of the
cache empties it.
-/
namespace Linkage

theorem Text.trim_trim (text : String) : Text.trim (Text.trim text) = Text.trim text := by
  have trimmed (text : String) : (Text.trim text).toList = (text.toList.dropWhile isBlank).rdropWhile isBlank := by
    rw [Text.trim, String.toList_ofList, List.rdropWhile]
  apply String.toList_inj.mp
  rw [trimmed, trimmed]
  generalize chars : text.toList.dropWhile isBlank = front
  have begun : (front.rdropWhile isBlank).dropWhile isBlank = front.rdropWhile isBlank := by
    -- What begins the rest after the cut at the end began it before.
    rw [List.dropWhile_eq_self_iff]
    intro some_left
    have same := (List.rdropWhile_prefix isBlank (l := front)).getElem some_left
    have fixed : front.dropWhile isBlank = front := chars ▸ List.dropWhile_idempotent isBlank text.toList
    rw [same]
    exact List.dropWhile_eq_self_iff.mp fixed _
  rw [begun, List.rdropWhile_idempotent]

namespace Cache

variable {c : Cache} {d d' : Disk} {root root' : Location} {path : String} {a : Archive}

/-! ### Runs that succeed -/

/-- A sequence of actions succeeds exactly if each of them does, one after the other. -/
theorem run_bind_eq_ok_iff {ε σ α β : Type} {x : EStateM ε σ α} {f : α → EStateM ε σ β} {b : β} {s t : σ} :
    (x >>= f).run s = .ok b t ↔ ∃ a between, x.run s = .ok a between ∧ (f a).run between = .ok b t := by
  rw [EStateM.run_bind]
  cases x.run s <;> simp

namespace Arrives

/-- The path leads to one place as long as it begins at one. -/
theorem root_eq (arrives : c.Arrives root d) (later : c.Arrives root' d') (home : d'.home = d.home) : root' = root := by
  have origin : d'.origin c.archives = d.origin c.archives := by rw [Disk.origin, Disk.origin, home]
  have goal := later.walked.2.2
  rw [origin, ← arrives.walked.2.2] at goal
  exact (List.cons.inj goal).2

theorem place_eq (arrives : c.Arrives root d) {place : Location} (located : d.locate (c.fileOf path) = .ok place) :
    place = fileName path :: "archives" :: root := by
  have flawless := (Disk.locate_eq_ok_iff.mp located).1
  exact Except.ok.inj (located.symm.trans (arrives.locate_fileOf flawless))

/-- There are directories all the way, so that what is none can change. -/
theorem of_change_at (arrives : c.Arrives root d) {place : Location} (free : d.entryAt place ≠ some .directory)
    (home : d'.home = d.home) (same : ∀ stop ≠ place, d'.entryAt stop = d.entryAt stop) : c.Arrives root d' := by
  refine arrives.of_stops home fun stop passed => ?_
  have directory := arrives.walked.1 stop passed
  rw [same stop, directory]
  rintro rfl
  exact free directory

/-- Asking whether the cache is current changes nothing, and a yes means that the trimmed text is the version. -/
theorem written_of_isCurrent (arrives : c.Arrives root d) {current : Bool}
    (ran : c.isCurrent.run d = .ok current d') :
    d' = d ∧ (current = true → ∃ text, d.entryAt ("version" :: root) = some (.file (Text.Utf8.encode text)) ∧
      Text.trim text = c.version) := by
  simp only [isCurrent, run_bind_eq_ok_iff, EStateM.run_get, EStateM.Result.ok.injEq] at ran
  obtain ⟨_, _, ⟨rfl, rfl⟩, ran⟩ := ran
  split at ran
  · obtain ⟨rfl, rfl⟩ := EStateM.Result.ok.inj ran
    exact ⟨rfl, fun found => absurd found Bool.false_ne_true⟩
  · obtain ⟨text, between, read, answered⟩ := run_bind_eq_ok_iff.mp ran
    obtain ⟨read, rfl⟩ := Disk.run_ask_eq_ok_iff.mp (run_atPath_eq_ok_iff.mp read)
    have written := (Disk.lookup_eq_ok_iff_entryAt arrives.locate_stamp).mp (readText_eq_ok_iff.mp read)
    obtain ⟨rfl, rfl⟩ := EStateM.Result.ok.inj answered
    exact ⟨rfl, fun current => ⟨text, written, of_decide_eq_true current⟩⟩

/-- A put that succeeds has written the file of the archive and nothing else. -/
theorem of_put (arrives : c.Arrives root d) {file : String} (ran : (c.put a).run d = .ok file d') :
    Disk.flaw? (c.fileOf a.importPath) = none ∧
      d.entryAt (fileName a.importPath :: "archives" :: root) ≠ some .directory ∧
      d' = d.change (.writeFile (fileName a.importPath :: "archives" :: root) a.encode) := by
  obtain ⟨_, between, written, returned⟩ := run_bind_eq_ok_iff.mp ran
  obtain ⟨-, rfl⟩ := EStateM.Result.ok.inj returned
  obtain ⟨place, located, free, rfl⟩ := Disk.run_writeFile_eq_ok_iff.mp (run_atPath_eq_ok_iff.mp written)
  rw [fileOf_eq, Disk.locateTarget_join (fileName_proper _), ← fileOf_eq] at located
  cases arrives.place_eq located
  exact ⟨(Disk.locate_eq_ok_iff.mp located).1, free, rfl⟩

/-- The directory of archives is removed, and made again with those on the way to it that were lost with it. -/
theorem of_clear (arrives : c.Arrives root d) (ran : c.clear.run d = .ok () d') :
    Disk.Grows (d.change (.removeTree ("archives" :: root))) d' ∧ c.Arrives root d' := by
  simp only [Cache.clear, run_bind_eq_ok_iff, EStateM.run_get, EStateM.Result.ok.injEq] at ran
  obtain ⟨_, _, ⟨rfl, rfl⟩, ran⟩ := ran
  rw [if_pos arrives.has_archives] at ran
  obtain ⟨_, between, removed, made⟩ := run_bind_eq_ok_iff.mp ran
  obtain ⟨place, located, -, rfl⟩ :=
    (Disk.run_removeTree_eq_ok_iff archives_proper).mp (run_atPath_eq_ok_iff.mp removed)
  cases located.symm.trans arrives.located
  obtain ⟨grows, root', later⟩ := arrives_of_makeDirectories (run_atPath_eq_ok_iff.mp made)
  cases arrives.root_eq later (grows.home.trans (Disk.home_change d _))
  exact ⟨grows, later⟩

end Arrives

/-! ### An open cache -/

namespace Opened

/-- An archive that is written does not touch the version file. -/
theorem of_change_at (opened : c.Opened root d) {place : Location} (free : d.entryAt place ≠ some .directory)
    (elsewhere : place ≠ "version" :: root) (home : d'.home = d.home)
    (same : ∀ stop ≠ place, d'.entryAt stop = d.entryAt stop) : c.Opened root d' := by
  obtain ⟨text, found, alike⟩ := opened.written
  exact ⟨opened.arrives.of_change_at free home same, text, (same _ elsewhere.symm).trans found, alike⟩

theorem put (opened : c.Opened root d) {file : String} (ran : (c.put a).run d = .ok file d') : c.Opened root d' := by
  obtain ⟨-, free, rfl⟩ := opened.arrives.of_put ran
  refine opened.of_change_at free (Keeps.stamp_ne _ root).symm (Disk.home_change d _) fun stop other => ?_
  rw [Disk.entryAt_writeFile, if_neg other]

theorem remove (opened : c.Opened root d) (ran : (c.remove path).run d = .ok () d') : c.Opened root d' := by
  simp only [Cache.remove, run_bind_eq_ok_iff, EStateM.run_get, EStateM.Result.ok.injEq] at ran
  obtain ⟨_, _, ⟨rfl, rfl⟩, ran⟩ := ran
  split at ran
  · obtain ⟨place, bytes, located, file, rfl⟩ := Disk.run_removeFile_eq_ok_iff.mp (run_atPath_eq_ok_iff.mp ran)
    cases opened.arrives.place_eq located
    have free : d.entryAt (fileName path :: "archives" :: root) ≠ some .directory := by simp [file]
    refine opened.of_change_at free (Keeps.stamp_ne _ root).symm (Disk.home_change d _) fun stop other => ?_
    rw [Disk.entryAt_removeFile, if_neg other]
  · obtain ⟨-, rfl⟩ := EStateM.Result.ok.inj ran
    exact opened

theorem clear (opened : c.Opened root d) (ran : c.clear.run d = .ok () d') : c.Opened root d' := by
  obtain ⟨grows, arrives⟩ := opened.arrives.of_clear ran
  obtain ⟨text, found, alike⟩ := opened.written
  refine ⟨arrives, text, grows.kept ?_, alike⟩
  have outside : ¬ "archives" :: root <:+ "version" :: root := by
    intro below
    simpa using below.eq_of_length rfl
  rw [Disk.entryAt_removeTree, if_neg outside, found]

end Opened

theorem read_failed (path cause : String) : Archive.read path { data := [], failure := some cause } ≠ .ok a := nofun

/-- What holds an archive is a file. -/
theorem Arrives.file_of_holds (arrives : c.Arrives root d) (holds : c.Holds d path a) :
    ∃ bytes, d.entryAt (fileName path :: "archives" :: root) = some (.file bytes) := by
  obtain ⟨s, stored, decoded⟩ := holds
  unfold stream? at stored
  cases looked : d.lookup (c.fileOf path) with
  | error cause => simp [looked] at stored
  | ok e =>
    obtain ⟨place, located, found⟩ := Disk.lookup_eq_ok_iff.mp looked
    cases arrives.place_eq located
    cases e with
    | file bytes => exact ⟨bytes, found⟩
    | directory =>
      simp only [looked, Option.some.injEq] at stored
      subst stored
      exact absurd (decode_eq_ok_iff.mp decoded).1 (read_failed path _)

/-- A cache that is emptied and given its version is open, and holds nothing. -/
theorem Arrives.renewed (arrives : c.Arrives root d)
    (ran : (do c.clear; atPath c.stamp (Disk.writeFile · (Text.Utf8.encode c.version))).run d = .ok () d') :
    c.Opened root d' ∧ ∀ path a, ¬ c.Holds d' path a := by
  obtain ⟨_, between, cleared, stamped⟩ := run_bind_eq_ok_iff.mp ran
  obtain ⟨grows, arrives⟩ := arrives.of_clear cleared
  obtain ⟨place, located, free, rfl⟩ := Disk.run_writeFile_eq_ok_iff.mp (run_atPath_eq_ok_iff.mp stamped)
  rw [stamp, Disk.locateTarget_join stamp_proper, ← stamp] at located
  cases located.symm.trans arrives.locate_stamp
  have same (stop : Location) := Disk.entryAt_writeFile (d := between) "version" root stop (Text.Utf8.encode c.version)
  have arrives := arrives.of_change_at free (Disk.home_change between _) fun stop other =>
    (same stop).trans (if_neg other)
  refine ⟨⟨arrives, c.version, (same _).trans (if_pos rfl), rfl⟩, fun path a holds => ?_⟩
  obtain ⟨bytes, found⟩ := arrives.file_of_holds holds
  rw [same, if_neg (Keeps.stamp_ne _ root).symm] at found
  rcases grows.added found with before | directory
  · rw [Disk.entryAt_removeTree, if_pos (List.suffix_cons _ _)] at before
    cases before
  · cases directory

/-- Opening a cache, whether it clears or not, leaves the directory with the version in it. -/
theorem opened_of_prepare (ran : c.prepare.run d = .ok () d') : ∃ root, c.Opened root d' := by
  obtain ⟨_, between, made, ran⟩ := run_bind_eq_ok_iff.mp ran
  obtain ⟨-, root, arrives⟩ := arrives_of_makeDirectories (run_atPath_eq_ok_iff.mp made)
  obtain ⟨current, after, asked, ran⟩ := run_bind_eq_ok_iff.mp ran
  obtain ⟨rfl, written⟩ := arrives.written_of_isCurrent asked
  cases current with
  | false => exact ⟨root, (arrives.renewed ran).1⟩
  | true =>
    obtain ⟨-, rfl⟩ := EStateM.Result.ok.inj ran
    obtain ⟨text, found, same⟩ := written rfl
    exact ⟨root, arrives, text, found, by rw [← same, Text.trim_trim]⟩

namespace Opened

/-- What is put is there. -/
theorem holds_of_put (opened : c.Opened root d) (selfContained : a.SelfContained) {file : String}
    (ran : (c.put a).run d = .ok file d') : c.Holds d' a.importPath a := by
  obtain ⟨flawless, -, changed⟩ := opened.arrives.of_put ran
  have located := (opened.put ran).arrives.locate_fileOf flawless
  have stored : d'.entryAt (fileName a.importPath :: "archives" :: root) = some (.file a.encode) := by
    rw [changed, Disk.entryAt_writeFile, if_pos rfl]
  have looked := (Disk.lookup_eq_ok_iff_entryAt located).mpr stored
  have streamed : c.stream? d' a.importPath = some { data := a.encode } := by
    unfold stream?
    rw [looked]
  exact ⟨_, streamed, decode_eq_ok_iff.mpr ⟨selfContained.read_encode _, rfl⟩⟩

/-- A padded version is never found again, so opening clears the cache. -/
theorem not_holds_of_prepare (opened : c.Opened root d) (padded : Text.trim c.version ≠ c.version)
    (ran : c.prepare.run d = .ok () d') : ∀ path a, ¬ c.Holds d' path a := by
  obtain ⟨_, between, made, ran⟩ := run_bind_eq_ok_iff.mp ran
  cases made.symm.trans (run_atPath_eq_ok_iff.mpr opened.arrives.run_makeDirectories)
  obtain ⟨current, after, asked, ran⟩ := run_bind_eq_ok_iff.mp ran
  cases asked.symm.trans opened.run_isCurrent
  rw [decide_eq_false padded] at ran
  exact (opened.arrives.renewed ran).2

end Opened

/-! ### Calls through a handle -/

/-- Make calls one after another through the same handle, as long as none fails. -/
def Call.performAll (c : Cache) (calls : List Call) : Action Unit :=
  calls.forM fun call => do let _ ← call.perform c

/-- Openings by another version apart, an open cache stays open. -/
theorem Opened.perform (opened : c.Opened root d) {call : Call}
    (own : ∀ version, call = .openAs version → version = c.version) {result : Answer × Cache}
    (ran : (call.perform c).run d = .ok result d') : ∃ root', c.Opened root' d' := by
  cases call with
  | openAs version =>
    obtain ⟨_, between, prepared, ran⟩ := run_bind_eq_ok_iff.mp ran
    obtain ⟨-, rfl⟩ := EStateM.Result.ok.inj ran
    cases own version rfl
    exact opened_of_prepare prepared
  | put a =>
    obtain ⟨file, between, put, ran⟩ := run_bind_eq_ok_iff.mp ran
    obtain ⟨-, rfl⟩ := EStateM.Result.ok.inj ran
    exact ⟨root, opened.put put⟩
  | remove path =>
    obtain ⟨_, between, removed, ran⟩ := run_bind_eq_ok_iff.mp ran
    obtain ⟨-, rfl⟩ := EStateM.Result.ok.inj ran
    exact ⟨root, opened.remove removed⟩
  | clear =>
    obtain ⟨_, between, cleared, ran⟩ := run_bind_eq_ok_iff.mp ran
    obtain ⟨-, rfl⟩ := EStateM.Result.ok.inj ran
    exact ⟨root, opened.clear cleared⟩
  | has path =>
    obtain ⟨-, rfl⟩ := EStateM.Result.ok.inj ran
    exact ⟨root, opened⟩
  | count =>
    obtain ⟨number, between, counted, ran⟩ := run_bind_eq_ok_iff.mp ran
    obtain ⟨-, rfl⟩ := EStateM.Result.ok.inj ran
    obtain ⟨names, after, listed, ran⟩ := run_bind_eq_ok_iff.mp counted
    obtain ⟨-, rfl⟩ := EStateM.Result.ok.inj ran
    obtain ⟨-, rfl⟩ := Disk.run_ask_eq_ok_iff.mp (run_atPath_eq_ok_iff.mp listed)
    exact ⟨root, opened⟩
  | load path =>
    simp only [Call.perform, EStateM.run_bind, EStateM.run_get] at ran
    split at ran
    · obtain ⟨-, rfl⟩ := EStateM.Result.ok.inj ran
      exact ⟨root, opened⟩
    · cases ran

/-- By induction on the calls between two openings. -/
theorem Opened.performAll (opened : c.Opened root d) {calls : List Call}
    (own : ∀ version, .openAs version ∈ calls → version = c.version)
    (ran : (Call.performAll c calls).run d = .ok () d') : ∃ root', c.Opened root' d' := by
  induction calls generalizing d root with
  | nil =>
    obtain ⟨-, rfl⟩ := EStateM.Result.ok.inj ran
    exact ⟨root, opened⟩
  | cons call rest ih =>
    obtain ⟨_, between, first, later⟩ := run_bind_eq_ok_iff.mp ran
    obtain ⟨result, after, performed, ran⟩ := run_bind_eq_ok_iff.mp first
    obtain ⟨-, rfl⟩ := EStateM.Result.ok.inj ran
    have mine : ∀ version, call = .openAs version → version = c.version := fun version same =>
      own version (same ▸ List.mem_cons_self)
    obtain ⟨root', stays⟩ := opened.perform mine performed
    exact ih stays (fun version member => own version (List.mem_cons_of_mem call member)) later

/-- A cache that was opened finds its own version exactly if there are no blanks at the ends of it. Whatever is done
through the handle then, openings by the same version included, opening the cache once more leaves the disk as it is, or
leaves no archive at all, according to the same condition. -/
theorem reopening_keeps_iff_trimmed {d₁ : Disk} (prepared : c.prepare.run d = .ok () d₁) :
    c.isCurrent.run d₁ = .ok (decide (Text.trim c.version = c.version)) d₁ ∧
    ∀ (calls : List Call) (d₂ : Disk), (∀ version, .openAs version ∈ calls → version = c.version) →
      (Call.performAll c calls).run d₁ = .ok () d₂ →
        (Text.trim c.version = c.version → c.prepare.run d₂ = .ok () d₂) ∧
        (Text.trim c.version ≠ c.version →
          ∀ d₃, c.prepare.run d₂ = .ok () d₃ → ∀ path a, ¬ c.Holds d₃ path a) := by
  obtain ⟨root, opened⟩ := opened_of_prepare prepared
  refine ⟨opened.run_isCurrent, fun calls d₂ own performed => ?_⟩
  obtain ⟨root', stays⟩ := opened.performAll own performed
  exact ⟨stays.run_prepare, fun padded d₃ => stays.not_holds_of_prepare padded⟩

/-- In a cache that keeps what is on a shelf an archive can be put, and the cache opened again, by any version. -/
theorem Keeps.exists_reopened {s : Shelf} {used : List String} (keeps : c.Keeps root s d)
    (current : s.version = some c.version) (roomy : c.Roomy) (tells : Tells used s) (member : a.importPath ∈ used)
    (selfContained : a.SelfContained) :
    ∃ d₂ d₃, (Call.performAll c [.put a]).run d = .ok () d₂ ∧ c.Holds d₂ a.importPath a ∧
      c.prepare.run d₂ = .ok () d₃ := by
  have put := keeps.run_put roomy a
  have held := (keeps.opened current).holds_of_put selfContained put
  have kept := keeps.put tells member
  have performed : (Call.performAll c [.put a]).run d =
      .ok () (d.change (.writeFile (fileName a.importPath :: "archives" :: root) a.encode)) := by
    simp only [Call.performAll, List.forM_eq_forM, List.forM_cons, List.forM_nil, Call.perform, EStateM.run_bind, put,
      EStateM.run_pure]
  have found := (kept.opened current).run_isCurrent
  by_cases trimmed : Text.trim c.version = c.version
  · exact ⟨_, _, performed, held, (kept.opened current).run_prepare trimmed⟩
  · rw [decide_eq_false trimmed] at found
    obtain ⟨d₃, again, -⟩ := kept.run_prepare_of_outdated found
    exact ⟨_, d₃, performed, held, again⟩

namespace PutOnce

/-- The cache that is opened, with no archive in it before. -/
def cache (version : String) : Cache := { dir := "c", version }

def one : Archive where
  importPath := "a"
  name := "a"

theorem one_selfContained : one.SelfContained := ⟨.inl rfl, nofun, by decide⟩

theorem exists_opened (version : String) :
    ∃ d₁, (cache version).prepare.run Reopened.made = .ok () d₁ ∧
      (cache version).Keeps ["c"] { version := some version } d₁ := by
  have begun : (cache version).Keeps ["c"] {} Reopened.made := Reopened.begins.keeps.of_dir version
  exact begun.run_prepare_of_outdated (begun.stands.arrives.run_isCurrent_of_missing begun.stamped)

theorem tells (version : String) : Tells ["a"] { version := some version } where
  distinct p member q member' _ := (List.mem_singleton.mp member).trans (List.mem_singleton.mp member').symm
  used path a found := by simp at found

theorem exists_reopened (version : String) :
    ∃ d₁ d₂ d₃, (cache version).prepare.run Reopened.made = .ok () d₁ ∧
      (Call.performAll (cache version) [.put one]).run d₁ = .ok () d₂ ∧ (cache version).Holds d₂ one.importPath one ∧
      (cache version).prepare.run d₂ = .ok () d₃ := by
  obtain ⟨d₁, prepared, keeps⟩ := exists_opened version
  have roomy : (cache version).Roomy := by
    change (Path.join "c" "archives").utf8ByteSize + 67 ≤ Disk.longestPath
    decide
  obtain ⟨d₂, d₃, reopened⟩ := keeps.exists_reopened rfl roomy (tells version) (List.mem_singleton_self "a")
    one_selfContained
  exact ⟨d₁, d₂, d₃, prepared, reopened⟩

theorem trim_padded : Text.trim (cache "1.0.0\n").version ≠ (cache "1.0.0\n").version := by decide

theorem putting_opens_nothing {version : String} (other : String) :
    .openAs other ∈ [Call.put one] → other = (cache version).version := by simp

end PutOnce

open PutOnce in
/-- The same calls under a plain version and under one with a newline behind it. -/
theorem reopening_keeps_iff_trimmed_once :
    (∃ d₁ d₂, (cache "1.0.0").prepare.run Reopened.made = .ok () d₁ ∧ (cache "1.0.0").isCurrent.run d₁ = .ok true d₁ ∧
      (cache "1.0.0").Holds d₂ "a" one ∧ (cache "1.0.0").prepare.run d₂ = .ok () d₂) ∧
    ∃ d₁ d₂ d₃, (cache "1.0.0\n").prepare.run Reopened.made = .ok () d₁ ∧ (cache "1.0.0\n").isCurrent.run d₁ = .ok false d₁ ∧
      (cache "1.0.0\n").Holds d₂ "a" one ∧ (cache "1.0.0\n").prepare.run d₂ = .ok () d₃ ∧
      ¬ (cache "1.0.0\n").Holds d₃ "a" one := by
  constructor
  · obtain ⟨d₁, d₂, d₃, prepared, performed, holds, -⟩ := exists_reopened "1.0.0"
    have trimmed : Text.trim (cache "1.0.0").version = (cache "1.0.0").version := by decide
    obtain ⟨current, kept⟩ := reopening_keeps_iff_trimmed prepared
    rw [decide_eq_true trimmed] at current
    exact ⟨d₁, d₂, prepared, current, holds, (kept _ d₂ putting_opens_nothing performed).1 trimmed⟩
  · obtain ⟨d₁, d₂, d₃, prepared, performed, holds, again⟩ := exists_reopened "1.0.0\n"
    obtain ⟨current, kept⟩ := reopening_keeps_iff_trimmed prepared
    rw [decide_eq_false trim_padded] at current
    exact ⟨d₁, d₂, d₃, prepared, current, holds, again,
      (kept _ d₂ putting_opens_nothing performed).2 trim_padded d₃ again "a" one⟩

open PutOnce in
/-- Both parts fail for the padded version: it is not current, and what was put is gone. -/
theorem reopening_not_kept :
    (¬ ∀ (c : Cache) (d d₁ : Disk), c.prepare.run d = .ok () d₁ → c.isCurrent.run d₁ = .ok true d₁) ∧
    ¬ ∀ (c : Cache) (d d₁ d₂ d₃ : Disk) (calls : List Call),
      (∀ version, .openAs version ∈ calls → version = c.version) → c.prepare.run d = .ok () d₁ →
        (Call.performAll c calls).run d₁ = .ok () d₂ → c.prepare.run d₂ = .ok () d₃ →
          ∀ path a, c.Holds d₂ path a → c.Holds d₃ path a := by
  obtain ⟨d₁, d₂, d₃, prepared, performed, holds, again⟩ := exists_reopened "1.0.0\n"
  obtain ⟨root, opened⟩ := opened_of_prepare prepared
  constructor
  · intro current
    have found := current _ _ _ prepared
    rw [opened.run_isCurrent, decide_eq_false trim_padded] at found
    cases found
  · intro kept
    obtain ⟨root', stays⟩ := opened.performAll putting_opens_nothing performed
    have still := kept _ _ _ _ _ _ putting_opens_nothing prepared performed again "a" one holds
    exact stays.not_holds_of_prepare trim_padded again "a" one still

end Cache
end Linkage
