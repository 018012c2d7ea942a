import Linkage.Proofs.Cache.Keeping
import Linkage.Proofs.Cache.Stock

/-!
# A cache answers as a shelf

Whatever was asked of a cache before, it answers as the shelf does. Loads never fail where the archives on the shelf
need nothing of other packages: imports that are missing are passed over, and those that lead back are on their way.
-/
namespace Linkage

namespace Archive

/-- Nothing that another package needs, a position table in order, and an encoding that fits into memory. -/
structure Plain (a : Archive) : Prop where
  noInterface : a.exportData = []
  inOrder : ∀ t ∈ a.positions, t.check = .ok ()
  fits : a.encode.length < 2 ^ 64

/-- Export data of a plain archive refers to nothing outside, so it can be installed into any registry. -/
theorem Plain.selfContained {a : Archive} (plain : a.Plain) : a.SelfContained :=
  ⟨.inl plain.noInterface, plain.inOrder, plain.fits⟩

end Archive

namespace Cache

variable {c : Cache} {d d' : Disk} {root : Location} {s : Shelf} {used : List String} {path : String}

/-! ### Loads -/

/-- Each of the paths can be loaded: there is nothing under it, or an archive of that path that needs nothing of other
packages and imports only what is among the paths. -/
structure Loadable (c : Cache) (d : Disk) (s : Shelf) (used : List String) : Prop where
  stored : ∀ path ∈ used, c.stream? d path = s.archives[path]?.map fun a => { data := a.encode }
  sound : ∀ path (a : Archive), s.archives[path]? = some a → a.importPath = path ∧ a.Plain ∧ ∀ r ∈ a.imports, r ∈ used

namespace Loadable

theorem stocked (loadable : Loadable c d s used) : Stocked c d (fun path => s.archives[path]?) used :=
  .of_selfContained loadable.stored fun path a found =>
    (loadable.sound path a found).imp_right fun rest => rest.imp_left Archive.Plain.selfContained

/-- Loading answers with what is on the shelf, whatever is installed already. -/
theorem load_eq (loadable : Loadable c d s used) (member : path ∈ used) (m : Registry) :
    (c.load d path m).1 = .ok s.archives[path]? :=
  loadable.stocked.load_eq member m

end Loadable

/-! ### Calls -/

namespace Call

theorem on_eq_of_run {call : Call} {answer : Answer} {c' : Cache}
    (ran : (call.perform c).run d = .ok (answer, c') d') : call.on (c, d) = (.ok answer, c', d') := by
  simp only [on, ran]

/-- A load changes nothing on the disk, and each one begins with nothing installed. -/
theorem on_load (c : Cache) (d : Disk) (path : String) :
    (Call.load path).on (c, d) = ((c.load d path .empty).1.map .archive, c, d) := by
  simp only [on, perform, EStateM.run_bind, EStateM.run_get]
  cases (c.load d path .empty).1 <;> rfl

end Call

/-- Each call is answered as by the shelf, and keeps the directory as it should be. -/
theorem Keeps.on_eq (keeps : c.Keeps root s d) (roomy : c.Roomy) (tells : Tells used s)
    (trimmed : ∀ version, s.version = some version → Text.trim version = version) (call : Call)
    (members : ∀ path ∈ call.paths, path ∈ used) (loadable : ∀ path, call = .load path → Loadable c d s used) :
    ∃ c' d', call.on (c, d) = (.ok (s.answer call).1, c', d') ∧ c'.dir = c.dir ∧
      c'.Keeps root (s.answer call).2 d' := by
  cases call with
  | openAs version =>
    obtain ⟨d', ran, kept⟩ := (keeps.of_dir version).run_prepare trimmed
    refine ⟨{ c with version }, d', Call.on_eq_of_run ?_, rfl, kept⟩
    simp only [Call.perform, EStateM.run_bind, ran, EStateM.run_pure, Shelf.answer]
  | put a =>
    refine ⟨c, _, Call.on_eq_of_run ?_, rfl, keeps.put tells (members _ List.mem_cons_self)⟩
    simp only [Call.perform, EStateM.run_bind, keeps.run_put roomy a, EStateM.run_pure, Shelf.answer]
  | remove path =>
    obtain ⟨d', ran, kept⟩ := keeps.run_remove roomy tells (members path (List.mem_singleton_self path))
    refine ⟨c, d', Call.on_eq_of_run ?_, rfl, kept⟩
    simp only [Call.perform, EStateM.run_bind, ran, EStateM.run_pure, Shelf.answer]
  | clear =>
    refine ⟨c, _, Call.on_eq_of_run ?_, rfl, keeps.clear⟩
    simp only [Call.perform, EStateM.run_bind, keeps.run_clear, EStateM.run_pure, Shelf.answer]
  | has path =>
    refine ⟨c, d, Call.on_eq_of_run ?_, rfl, keeps⟩
    simp only [Call.perform, EStateM.run_bind, EStateM.run_get, EStateM.run_pure, Shelf.answer,
      keeps.has_eq roomy tells (members path (List.mem_singleton_self path))]
  | count =>
    refine ⟨c, d, Call.on_eq_of_run ?_, rfl, keeps⟩
    simp only [Call.perform, EStateM.run_bind, keeps.run_count tells, EStateM.run_pure, Shelf.answer]
  | load path =>
    refine ⟨c, d, ?_, rfl, keeps⟩
    rw [Call.on_load, (loadable path rfl).load_eq (members path (List.mem_singleton_self path))]
    rfl

/-- A call leaves the directory to the shelf that has answered it, also where the cache of the call fails to load. -/
theorem Keeps.on_keeps (keeps : c.Keeps root s d) (roomy : c.Roomy) (tells : Tells used s)
    (trimmed : ∀ version, s.version = some version → Text.trim version = version) (call : Call)
    (members : ∀ path ∈ call.paths, path ∈ used) :
    (call.on (c, d)).2.1.dir = c.dir ∧ (call.on (c, d)).2.1.Keeps root (s.answer call).2 (call.on (c, d)).2.2 := by
  by_cases loads : ∃ path, call = .load path
  · obtain ⟨path, rfl⟩ := loads
    rw [Call.on_load]
    exact ⟨rfl, keeps⟩
  · obtain ⟨c', d', answered, dir, kept⟩ := keeps.on_eq roomy tells trimmed call members fun path same =>
      absurd ⟨path, same⟩ loads
    rw [answered]
    exact ⟨dir, kept⟩

/-! ### Runs -/

/-- The import paths that calls bring up have digests of their own. -/
def Distinct (calls : List Call) : Prop :=
  ∀ p ∈ calls.flatMap Call.paths, ∀ q ∈ calls.flatMap Call.paths,
    Digest.sha256 (Text.Utf8.encode p) = Digest.sha256 (Text.Utf8.encode q) → p = q

/-- Distinct digests of all paths that are used keep the entries of the calls apart. -/
theorem distinct_of_nodup {calls : List Call} {paths : List String} (among : calls.flatMap Call.paths ⊆ paths)
    (digests : (paths.map fun path => Digest.sha256 (Text.Utf8.encode path)).Nodup) : Distinct calls :=
  fun _ member _ member' same => List.inj_on_of_nodup_map digests (among member) (among member') same

theorem mem_paths {calls : List Call} {call : Call} (member : call ∈ calls) (path : String)
    (inCall : path ∈ call.paths) :
    path ∈ calls.flatMap Call.paths := List.mem_flatMap.mpr ⟨call, member, inCall⟩

theorem tells_of_filledBy {calls before : List Call} (distinct : Distinct calls) (among : before ⊆ calls)
    (filled : s.FilledBy before) : Tells (calls.flatMap Call.paths) s where
  distinct := distinct
  used path a found := by
    obtain ⟨own, put⟩ := filled.put path a found
    exact mem_paths (among put) path (own ▸ List.mem_cons_self)

/-- By induction on the calls, from the empty shelf. -/
theorem keeps_after {calls : List Call} (keeps : c.Keeps root {} d) (roomy : c.Roomy) (distinct : Distinct calls)
    (trimmed : ∀ version, .openAs version ∈ calls → Text.trim version = version) (before : List Call)
    (among : before ⊆ calls) :
    (Shelf.after {} before).FilledBy before ∧ (afterCalls (c, d) before).1.dir = c.dir ∧
      (afterCalls (c, d) before).1.Keeps root (Shelf.after {} before) (afterCalls (c, d) before).2 := by
  refine ⟨Shelf.filledBy_after before, ?_⟩
  induction before using List.reverseRecOn with
  | nil => exact ⟨rfl, keeps⟩
  | append_singleton front call ih =>
    have front_among : front ⊆ calls := fun _ member => among (List.mem_append_left _ member)
    have member : call ∈ calls := among (List.mem_append_right _ (List.mem_singleton_self call))
    obtain ⟨dir, kept⟩ := ih front_among
    have filled := Shelf.filledBy_after front
    have roomy' : (afterCalls (c, d) front).1.Roomy := by
      rw [Roomy, archives, dir]
      exact roomy
    have step := kept.on_keeps roomy' (tells_of_filledBy distinct front_among filled)
      (fun version same => trimmed version (front_among (filled.opened version same))) call (mem_paths member)
    rw [Shelf.after, afterCalls, List.foldl_append, List.foldl_append]
    exact ⟨step.1.trans dir, step.2⟩

namespace BeginsIn

theorem entryAt_archives (begins : c.BeginsIn root d d') (name : String) :
    d'.entryAt (name :: "archives" :: root) = none :=
  begins.entryAt_eq_none (List.suffix_cons "archives" root) fun same => absurd (congrArg List.length same) (by simp)

theorem keeps (begins : c.BeginsIn root d d') : c.Keeps root {} d' where
  stands := begins.standsIn
  stamped := begins.entryAt_eq_none (List.suffix_refl root) (by simp)
  entry_iff name e := by
    rw [begins.entryAt_archives]
    simp
  distinct := by
    have empty : (d'.inside ("archives" :: root)).map (·.1) = [] := by
      refine List.eq_nil_iff_forall_not_mem.mpr fun name member => ?_
      obtain ⟨e, found⟩ := Disk.mem_names_iff.mp member
      rw [begins.entryAt_archives] at found
      cases found
    rw [empty]
    exact List.nodup_nil

/-- To begin with, the cache is opened, and that makes its directories if they are not there yet. -/
theorem on_openAs (begins : c.BeginsIn root d d') (version : String) :
    (Call.openAs version).on (c, d) = (Call.openAs version).on (c, d') := by
  have made : (atPath c.archives Disk.makeDirectories).run d = .ok () d' := run_atPath_eq_ok_iff.mpr begins.made
  have again : (atPath c.archives Disk.makeDirectories).run d' = .ok () d' :=
    run_atPath_eq_ok_iff.mpr begins.standsIn.arrives.run_makeDirectories
  have prepared : (prepare { c with version }).run d = (prepare { c with version }).run d' := by
    have archives : ({ c with version } : Cache).archives = c.archives := by rw [Cache.archives, Cache.archives]
    simp only [prepare, EStateM.run_bind, archives, made, again]
  have ran : ((Call.openAs version).perform c).run d = ((Call.openAs version).perform c).run d' := by
    simp only [Call.perform, EStateM.run_bind, prepared]
  cases found : ((Call.openAs version).perform c).run d' with
  | ok result after => simp only [Call.on, ran, found]
  | error e after => simp only [Call.on, ran, found]

theorem on_afterCalls (begins : c.BeginsIn root d d') {before behind : List Call} {call : Call} {version : String}
    (opened : (before ++ call :: behind).head? = some (.openAs version)) :
    call.on (afterCalls (c, d) before) = call.on (afterCalls (c, d') before) := by
  cases before with
  | nil =>
    obtain rfl : call = .openAs version := by simpa using opened
    exact begins.on_openAs version
  | cons first rest =>
    obtain rfl : first = .openAs version := by simpa using opened
    rw [afterCalls, afterCalls, List.foldl_cons, List.foldl_cons, begins.on_openAs version]

/-- It does not matter for any later call whether the directory was made before the first one. -/
theorem afterCalls_eq (begins : c.BeginsIn root d d') {calls : List Call} {version : String}
    (opened : calls.head? = some (.openAs version)) : afterCalls (c, d) calls = afterCalls (c, d') calls := by
  obtain ⟨rest, rfl⟩ := List.head?_eq_some_iff.mp opened
  rw [afterCalls, afterCalls, List.foldl_cons, List.foldl_cons, begins.on_openAs version]

end BeginsIn

/-- A cache that begins with nothing in its directory, and is opened first, answers each call as the shelf does, however
often it is opened again with one version or another. Only a load asks for more: that what was put before it exports
nothing and has its positions in order. -/
theorem answer_as_shelf {dir : String} {calls before behind : List Call} {call : Call} {version : String}
    (begins : ({ dir } : Cache).BeginsIn root d d') (roomy : ({ dir } : Cache).Roomy)
    (opened : calls.head? = some (.openAs version))
    (trimmed : ∀ version, .openAs version ∈ calls → Text.trim version = version) (distinct : Distinct calls)
    (split : calls = before ++ call :: behind)
    (plain : ∀ path, call = .load path → ∀ a, .put a ∈ before → a.Plain) :
    (call.on (afterCalls ({ dir }, d) before)).1 = .ok ((Shelf.after {} before).answer call).1 := by
  subst split
  have among : before ⊆ before ++ call :: behind := List.subset_append_left _ _
  have member : call ∈ before ++ call :: behind := List.mem_append_right _ List.mem_cons_self
  obtain ⟨filled, sameDir, kept⟩ := keeps_after begins.keeps roomy distinct trimmed before among
  have tells := tells_of_filledBy distinct among filled
  have roomy' : (afterCalls ({ dir }, d') before).1.Roomy := by
    rw [Roomy, archives, sameDir]
    exact roomy
  have loadable : ∀ path, call = .load path →
      Loadable (afterCalls ({ dir }, d') before).1 (afterCalls ({ dir }, d') before).2 (Shelf.after {} before)
        ((before ++ call :: behind).flatMap Call.paths) := by
    intro path loads
    refine ⟨fun path => kept.stream?_eq roomy' tells, fun path a found => ?_⟩
    obtain ⟨own, put⟩ := filled.put path a found
    exact ⟨own, plain _ loads a put, fun r imported => mem_paths (among put) r (List.mem_cons_of_mem _ imported)⟩
  obtain ⟨c', d'', answered, -, -⟩ := kept.on_eq roomy' tells
    (fun version same => trimmed version (among (filled.opened version same))) call (mem_paths member) loadable
  rw [begins.on_afterCalls opened, answered]

namespace Reopened

/-- Two packages that import each other, and one that is not stored. -/
def one : Archive where
  importPath := "one"
  name := "one"
  imports := ["two", "gone"]
  positions := some ⟨#[⟨"f.src", 1, 5, #[0, 3]⟩]⟩

def two : Archive where
  importPath := "two"
  name := "two"
  imports := ["one"]

def old : Archive := { one with name := "old" }

/-- What is put there first is lost when the cache is opened with another version. -/
def before : List Call :=
  [.openAs "1", .put two, .put old, .openAs "2", .openAs "2", .put old, .put two, .put one, .remove "gone"]

def made : Disk where
  entries := [(["archives", "c"], .directory), (["c"], .directory)]
  journal := [.makeDirectory ["archives", "c"], .makeDirectory ["c"]]

theorem begins : ({ dir := "c" } : Cache).BeginsIn ["c"] {} made where
  empty := nofun
  made := by
    have first : ({} : Disk).enter [] "c" = .ok ["c"] := by decide +kernel
    have second : (({} : Disk).change (.makeDirectory ["c"])).enter ["c"] "archives" = .ok ["archives", "c"] := by
      decide +kernel
    have components : Path.components ({ dir := "c" } : Cache).archives = ["c", "archives"] := by decide +kernel
    have relative : ({} : Disk).origin ({ dir := "c" } : Cache).archives = [] := by decide +kernel
    rw [Disk.run_makeDirectories (by decide +kernel), components, relative,
      Disk.run_makeFrom_of_missing first (by decide +kernel) (by decide +kernel),
      Disk.run_makeFrom_of_missing second (by decide +kernel) (by decide +kernel), Disk.makeFrom, EStateM.run_pure]
    rfl
  located := by decide +kernel
  nothing := by decide

theorem distinct : Distinct (before ++ [.load "one"]) := by
  have among : (before ++ [Call.load "one"]).flatMap Call.paths ⊆ ["one", "two", "gone"] := by decide
  exact distinct_of_nodup among (by decide +kernel)

theorem plain : ∀ a, .put a ∈ before → a.Plain := by
  have one_plain : one.Plain := ⟨rfl, Archive.checkPositions_eq_ok.mp (by decide +kernel), by decide +kernel⟩
  have two_plain : two.Plain := ⟨rfl, nofun, by decide +kernel⟩
  have old_plain : old.Plain := ⟨rfl, one_plain.inOrder, by decide +kernel⟩
  intro a put
  simp only [before, List.mem_cons, List.not_mem_nil, or_false, Call.put.injEq, reduceCtorEq, false_or] at put
  rcases put with rfl | rfl | rfl | rfl | rfl
  · exact two_plain
  · exact old_plain
  · exact old_plain
  · exact two_plain
  · exact one_plain

theorem on_shelf : (Shelf.after {} before).archives["one"]? = some one := by
  simp [Shelf.after, before, Shelf.answer, one, two, old]

end Reopened

open Reopened in
/-- The second version clears the directory once and keeps it then, and `one` is put over an older archive. -/
theorem answer_as_shelf_reopened :
    ({ dir := "c" } : Cache).BeginsIn ["c"] {} made ∧ ({ dir := "c" } : Cache).Roomy ∧
      (∀ version, .openAs version ∈ before ++ [.load "one"] → Text.trim version = version) ∧
      Distinct (before ++ [.load "one"]) ∧ (∀ a, .put a ∈ before → a.Plain) ∧
      ((Call.load "one").on (afterCalls ({ dir := "c" }, {}) before)).1 = .ok (.archive (some one)) := by
  have roomy : ({ dir := "c" } : Cache).Roomy := by
    unfold Roomy
    decide +kernel
  have trimmed : ∀ version, .openAs version ∈ before ++ [.load "one"] → Text.trim version = version := by
    intro version opened
    have known : version = "1" ∨ version = "2" := by
      simpa [before] using opened
    rcases known with rfl | rfl <;> decide +kernel
  refine ⟨begins, roomy, trimmed, distinct, plain, ?_⟩
  have split : before ++ [Call.load "one"] = before ++ Call.load "one" :: [] := rfl
  have opened : (before ++ [Call.load "one"]).head? = some (Call.openAs "1") := rfl
  rw [answer_as_shelf begins roomy opened trimmed distinct split fun _ _ => plain]
  exact congrArg (fun found => Except.ok (Answer.archive found)) on_shelf

end Cache
end Linkage
