import Linkage.Proofs.Cache.Entries
import Linkage.Proofs.Disk.Trails

/-!
# The directory of a cache

The path of a cache arrives at the directory of archives once its directories are made. A cache stands on a disk if the
path leads there without passing through what is stored there. What is stored can change then, and the path leads there
still.
-/
namespace Linkage

namespace Disk

variable {d : Disk} {dir name name' : String}

/-- A name that is no longer makes no flaw. -/
theorem flaw?_join_of_le (sound : flaw? (Path.join dir name) = none) (nonempty : name' ≠ "")
    (plain : '\x00' ∉ name'.toList) (shorter : name'.utf8ByteSize ≤ name.utf8ByteSize) :
    flaw? (Path.join dir name') = none := by
  rw [flaw?_eq_none_iff] at sound ⊢
  obtain ⟨noZero, -, short⟩ := sound
  refine ⟨?_, join_ne_empty nonempty, ?_⟩
  · intro zero
    apply noZero
    unfold Path.join at zero ⊢
    split at zero <;> rename_i direct
    · rw [if_pos direct]
      rw [String.toList_append, List.mem_append] at zero ⊢
      exact .inl (zero.resolve_right plain)
    · rw [if_neg direct]
      rw [String.toList_append, List.mem_append] at zero ⊢
      exact .inl (zero.resolve_right plain)
  · unfold Path.join at short ⊢
    split at short <;> rename_i direct
    · rw [if_pos direct]
      rw [String.utf8ByteSize_append] at short ⊢
      omega
    · rw [if_neg direct]
      rw [String.utf8ByteSize_append] at short ⊢
      omega

theorem run_makeDirectories {path : String} (sound : flaw? path = none) :
    (makeDirectories path).run d = (makeFrom false (d.origin path) (Path.components path)).run d := by
  simp only [makeDirectories, sound, EStateM.run_bind, EStateM.run_get]

/-- A proper name is not among the dots, so a path that ends in it leads somewhere. -/
theorem areDots_of_ends {components : List String} (proper : Path.ProperName name)
    (ends : components = [] ∨ name ∈ components) : areDots components = false := by
  rcases ends with rfl | member
  · rfl
  · have some_name : ¬ components.all (fun c => c = "" || c = ".") = true := by
      intro dots
      have dot := List.all_eq_true.mp dots name member
      simp [proper.notEmpty, proper.notDot] at dot
    rw [areDots, Bool.eq_false_iff.mpr some_name, Bool.and_false]

end Disk

namespace Cache

variable {c : Cache} {d d' : Disk} {root : Location} {path : String} {name : String}

theorem archives_proper : Path.ProperName "archives" where
  noSlash := by decide
  notEmpty := by decide
  notDot := by decide
  notDots := by decide

theorem stamp_proper : Path.ProperName "version" where
  noSlash := by decide
  notEmpty := by decide
  notDot := by decide
  notDots := by decide

/-- The places that the path of the archives leads through. -/
def trail (c : Cache) (d : Disk) : List Location := Path.trail (d.origin c.archives) (Path.components c.archives)

/-- The path of the cache leads to the directory of archives in `root`. -/
structure Arrives (c : Cache) (root : Location) (d : Disk) : Prop where
  located : d.locate c.archives = .ok ("archives" :: root)
  directory : d.entryAt ("archives" :: root) = some .directory

namespace Arrives

theorem flawless (arrives : c.Arrives root d) : Disk.flaw? c.archives = none :=
  (Disk.locate_eq_ok_iff.mp arrives.located).1

/-- The way to the archives passes directories only, and no component of it is too long. -/
theorem walked (arrives : c.Arrives root d) :
    (∀ stop ∈ c.trail d, d.entryAt stop = some .directory) ∧
      (∀ component ∈ Path.components c.archives, component.utf8ByteSize ≤ Disk.longestName) ∧
      "archives" :: root = (Path.components c.archives).foldl Path.step (d.origin c.archives) :=
  Disk.walk_eq_ok_iff.mp ⟨(Disk.locate_eq_ok_iff.mp arrives.located).2, arrives.directory⟩

/-- The path leads there as long as there are directories on it. -/
theorem of_stops (arrives : c.Arrives root d) (home : d'.home = d.home)
    (stops : ∀ stop ∈ c.trail d, d'.entryAt stop = some .directory) : c.Arrives root d' := by
  obtain ⟨-, short, goal⟩ := arrives.walked
  have origin : d'.origin c.archives = d.origin c.archives := by rw [Disk.origin, Disk.origin, home]
  have reaches := Disk.walk_eq_ok_iff.mpr ⟨stops, short, goal⟩
  rw [← origin] at reaches
  exact ⟨Disk.locate_eq_ok_iff.mpr ⟨arrives.flawless, reaches.1⟩, reaches.2⟩

/-- The way to the archives leads through the root of the cache. -/
theorem walk_root (arrives : c.Arrives root d) :
    d.walk (d.origin c.dir) (Path.components c.dir) = .ok root ∧ d.entryAt root = some .directory := by
  obtain ⟨-, walked⟩ := Disk.locate_eq_ok_iff.mp arrives.located
  rw [archives, Disk.origin_join archives_proper.noSlash, Disk.walk_join archives_proper.noSlash] at walked
  cases first : d.walk (d.origin c.dir) (Path.components c.dir) with
  | error cause => simp [first, bind, Except.bind] at walked
  | ok around =>
    rw [first] at walked
    obtain ⟨directory, -, same⟩ := (Disk.enter_eq_ok_iff archives_proper).mp walked
    cases same
    exact ⟨rfl, directory⟩

theorem locate_stamp (arrives : c.Arrives root d) : d.locate c.stamp = .ok ("version" :: root) := by
  obtain ⟨walked, directory⟩ := arrives.walk_root
  have flawless : Disk.flaw? c.stamp = none :=
    Disk.flaw?_join_of_le arrives.flawless (by decide) (by decide) (by decide)
  refine Disk.locate_eq_ok_iff.mpr ⟨flawless, ?_⟩
  rw [stamp, Disk.origin_join stamp_proper.noSlash, Disk.walk_join stamp_proper.noSlash, walked]
  exact (Disk.enter_eq_ok_iff stamp_proper).mpr ⟨directory, by decide, rfl⟩

/-- Whatever a path is called, its file stands in the directory of archives. -/
theorem locate_fileOf (arrives : c.Arrives root d) (flawless : Disk.flaw? (c.fileOf path) = none) :
    d.locate (c.fileOf path) = .ok (fileName path :: "archives" :: root) := by
  have short : (fileName path).utf8ByteSize ≤ Disk.longestName := by
    rw [utf8ByteSize_fileName]
    decide
  exact (Disk.locate_join_eq_ok_iff (fileName_proper path) (archives_ne_empty c)).mpr
    ⟨_, flawless, arrives.located, arrives.directory, short, rfl⟩

/-- Nothing is made where everything stands already. -/
theorem run_makeDirectories (arrives : c.Arrives root d) : (Disk.makeDirectories c.archives).run d = .ok () d := by
  obtain ⟨stops, short, -⟩ := arrives.walked
  rw [Disk.run_makeDirectories arrives.flawless]
  exact Disk.run_makeFrom_of_trail short stops

end Arrives

theorem flaw?_of_makeDirectories (ran : (Disk.makeDirectories c.archives).run d = .ok () d') :
    Disk.flaw? c.archives = none := by
  have nonempty : c.archives.isEmpty = false := by simpa using archives_ne_empty c
  cases flawed : Disk.flaw? c.archives with
  | none => rfl
  | some flaw =>
    cases flaw
    case missing =>
      -- Only an empty path is missing whatever the disk holds.
      unfold Disk.flaw? at flawed
      rw [nonempty] at flawed
      split at flawed
      · cases flawed
      · rw [if_neg Bool.false_ne_true] at flawed
        split at flawed <;> cases flawed
    all_goals
      simp only [Disk.makeDirectories, flawed] at ran
      cases ran

/-- The path is not empty, so that it begins in a directory that was there. -/
theorem origin_of_makeDirectories (ran : (Disk.makeDirectories c.archives).run d = .ok () d') :
    d.entryAt (d.origin c.archives) = some .directory := by
  rw [Disk.run_makeDirectories (flaw?_of_makeDirectories ran)] at ran
  obtain ⟨before, split⟩ := Path.exists_components_join archives_proper.noSlash c.dir
  obtain ⟨first, rest, components⟩ := List.exists_cons_of_ne_nil (l := before ++ ["archives"]) (by simp)
  rw [archives, split, components] at ran
  exact (Disk.enter_eq_ok_iff_step.mp (Disk.enter_of_makeFrom ran)).1

/-- Once its directories are made, the path of the cache leads to the directory of archives. -/
theorem arrives_of_makeDirectories (ran : (Disk.makeDirectories c.archives).run d = .ok () d') :
    d.Grows d' ∧ ∃ root, c.Arrives root d' := by
  have flawless := flaw?_of_makeDirectories ran
  have begins := origin_of_makeDirectories ran
  rw [Disk.run_makeDirectories flawless] at ran
  obtain ⟨grows, stops, short⟩ := Disk.trail_of_makeFrom ran begins
  obtain ⟨walked, directory⟩ := Disk.walk_eq_ok_iff.mpr ⟨stops, short, rfl⟩
  have origin : d'.origin c.archives = d.origin c.archives := by rw [Disk.origin, Disk.origin, grows.home]
  obtain ⟨before, split⟩ := Path.exists_components_join archives_proper.noSlash c.dir
  have goal : (Path.components c.archives).foldl Path.step (d.origin c.archives) =
      "archives" :: before.foldl Path.step (d.origin c.archives) := by
    rw [archives, split, List.foldl_append, List.foldl_cons, List.foldl_nil, Path.step]
    simp [archives_proper.notEmpty, archives_proper.notDot, archives_proper.notDots]
  rw [goal] at walked directory
  exact ⟨grows, _, Disk.locate_eq_ok_iff.mpr ⟨flawless, origin ▸ walked⟩, directory⟩

/-- The directory of archives is in `root`. The path to it begins elsewhere and passes through nothing in it. -/
structure StandsIn (c : Cache) (root : Location) (d : Disk) : Prop where
  located : d.locate c.archives = .ok ("archives" :: root)
  directory : d.entryAt ("archives" :: root) = some .directory
  begins : d.origin c.archives ≠ "archives" :: root
  apart : ∀ stop ∈ c.trail d, "archives" :: root <:+ stop → stop = "archives" :: root

namespace StandsIn

theorem arrives (stands : c.StandsIn root d) : c.Arrives root d := ⟨stands.located, stands.directory⟩

theorem ne_of_mem_trail (stands : c.StandsIn root d) {stop : Location} (passed : stop ∈ c.trail d) (name : String) :
    stop ≠ name :: "archives" :: root := by
  rintro rfl
  have same := stands.apart _ passed (List.suffix_cons name _)
  exact absurd (congrArg List.length same) (by simp)

/-- Any change that leaves the directories on the way alone leaves the cache where it is. -/
theorem of_stops (stands : c.StandsIn root d) (home : d'.home = d.home)
    (stops : ∀ stop ∈ c.trail d, d'.entryAt stop = some .directory) : c.StandsIn root d' := by
  have origin : d'.origin c.archives = d.origin c.archives := by rw [Disk.origin, Disk.origin, home]
  have arrives := stands.arrives.of_stops home stops
  refine ⟨arrives.located, arrives.directory, ?_, ?_⟩
  · rw [origin]
    exact stands.begins
  · rw [trail, origin]
    exact stands.apart

theorem of_change (stands : c.StandsIn root d) (home : d'.home = d.home)
    (elsewhere : ∀ stop ∈ c.trail d, d'.entryAt stop = d.entryAt stop) : c.StandsIn root d' :=
  stands.of_stops home fun stop passed => (elsewhere stop passed).trans (stands.arrives.walked.1 stop passed)

/-- Once it is removed, the directory of archives can be made again. -/
theorem run_makeDirectories_of_missing (stands : c.StandsIn root d) (home : d'.home = d.home)
    (missing : d'.entryAt ("archives" :: root) = none)
    (stops : ∀ stop ∈ c.trail d, stop ≠ "archives" :: root → d'.entryAt stop = some .directory) :
    (Disk.makeDirectories c.archives).run d' = .ok () (d'.change (.makeDirectory ("archives" :: root))) := by
  obtain ⟨-, short, goal⟩ := stands.arrives.walked
  have origin : d'.origin c.archives = d.origin c.archives := by rw [Disk.origin, Disk.origin, home]
  have named : ∀ rest, rest <:+ Path.components c.archives → Disk.areDots rest = false := by
    intro rest suffix
    obtain ⟨before, split⟩ := Path.exists_components_join archives_proper.noSlash c.dir
    rw [archives, split] at suffix
    apply Disk.areDots_of_ends archives_proper
    rcases List.suffix_concat_iff.mp suffix with rfl | ⟨front, rfl, -⟩
    · exact .inl rfl
    · exact .inr (List.mem_append_right front (List.mem_singleton_self _))
  rw [Disk.run_makeDirectories stands.arrives.flawless, origin]
  exact Disk.run_makeFrom_of_missing_goal short named goal.symm
    (stops _ (Path.mem_trail_self _ _) stands.begins) missing stops

end StandsIn

/-- The cache can begin in `root`: there is nothing there but perhaps the directory itself, and the directories of the
cache can be made, which makes nothing else there. -/
structure BeginsIn (c : Cache) (root : Location) (d d' : Disk) : Prop where
  empty : ∀ e ∈ d.entries, root <:+ e.1 → e.1 = root
  made : (Disk.makeDirectories c.archives).run d = .ok () d'
  located : d'.locate c.archives = .ok ("archives" :: root)
  nothing : ∀ e ∈ d'.entries, root <:+ e.1 → e.1 = root ∨ e.1 = "archives" :: root

namespace BeginsIn

/-- A cache begins with nothing in it but the empty directory of archives. -/
theorem entryAt_eq_none (begins : c.BeginsIn root d d') {name : String} {around : Location} (inside : root <:+ around)
    (other : name :: around ≠ "archives" :: root) : d'.entryAt (name :: around) = none := by
  refine List.lookup_eq_none_iff.mpr fun e stored => ?_
  rw [bne_iff_ne]
  intro here
  have below : root <:+ e.1 := here ▸ inside.trans (List.suffix_cons name around)
  rcases begins.nothing e stored below with same | same
  · have shorter := inside.length_le
    rw [← here] at same
    exact absurd (congrArg List.length same) (by simp only [List.length_cons]; omega)
  · exact other (here.trans same)

theorem standsIn (begins : c.BeginsIn root d d') : c.StandsIn root d' := by
  have there := origin_of_makeDirectories begins.made
  obtain ⟨grows, around, arrives⟩ := arrives_of_makeDirectories begins.made
  obtain rfl : root = around := by
    have same := Except.ok.inj (begins.located.symm.trans arrives.located)
    exact (List.cons.inj same).2
  obtain ⟨stops, -, -⟩ := arrives.walked
  refine ⟨arrives.located, arrives.directory, ?_, fun stop passed below => ?_⟩
  · intro same
    rw [Disk.origin, grows.home, ← Disk.origin] at same
    rw [same] at there
    obtain ⟨front, back, split, -⟩ := List.lookup_eq_some_iff.mp there
    have stored : ("archives" :: root, Entry.directory) ∈ d.entries := by
      rw [split]
      exact List.mem_append_right front List.mem_cons_self
    have same := begins.empty _ stored (List.suffix_cons "archives" root)
    exact absurd (congrArg List.length same) (by simp)
  · cases stop with
    | nil => exact absurd (List.suffix_nil.mp below) (List.cons_ne_nil _ _)
    | cons name around =>
      by_contra other
      have inside : root <:+ around := by
        rcases List.suffix_cons_iff.mp below with same | inside
        · exact absurd same.symm other
        · exact (List.suffix_cons "archives" root).trans inside
      have missing := begins.entryAt_eq_none inside other
      rw [stops _ passed] at missing
      cases missing

end BeginsIn

/-- The paths of entries are not too long. -/
def Roomy (c : Cache) : Prop := c.archives.utf8ByteSize + 67 ≤ Disk.longestPath

theorem digitChar_ne_zero : ∀ n < 16, Nat.digitChar n ≠ '\x00' := by decide

theorem fileName_noZero (path : String) : '\x00' ∉ (fileName path).toList := by
  rw [toList_fileName, List.mem_append, not_or, Bytes.toList_toHex, List.mem_flatMap]
  refine ⟨?_, by decide⟩
  rintro ⟨b, -, digit⟩
  have byte := b.toNat_lt
  simp only [List.mem_cons, List.not_mem_nil, or_false] at digit
  rcases digit with high | low
  · exact digitChar_ne_zero _ (by omega) high.symm
  · exact digitChar_ne_zero _ (by omega) low.symm

/-- A digest in hexadecimal digits makes a short name without a zero, so no import path is refused by the disk. -/
theorem flaw?_fileOf (roomy : c.Roomy) (flawless : Disk.flaw? c.archives = none) (path : String) :
    Disk.flaw? (c.fileOf path) = none := by
  have ends : Path.endsInSlash c.archives = false := Path.endsInSlash_join archives_proper c.dir
  have nonempty : c.archives.isEmpty = false := by simpa using archives_ne_empty c
  have joined : c.fileOf path = c.archives ++ "/" ++ fileName path := by
    rw [fileOf_eq, Path.join, ends, nonempty]
    simp
  rw [Disk.flaw?_eq_none_iff] at flawless ⊢
  refine ⟨?_, Disk.join_ne_empty (fileName_proper path).notEmpty, ?_⟩
  · rw [joined, String.toList_append, String.toList_append, List.mem_append, List.mem_append, not_or, not_or]
    exact ⟨⟨flawless.1, by decide⟩, fileName_noZero path⟩
  · rw [joined, String.utf8ByteSize_append, String.utf8ByteSize_append, utf8ByteSize_fileName]
    exact roomy

end Cache
end Linkage
