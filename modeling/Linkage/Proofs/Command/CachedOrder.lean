import Linkage.Command.Basic
import Linkage.Proofs.Cache.Answers
import Linkage.Proofs.Interface.RoundTrip
import Linkage.Proofs.LinkOrder.Outcome
import Linkage.Proofs.LinkOrder.Stateless

/-!
# Link orders from a cache

A command loads each package from the cache, and with it imports that it has not loaded yet. It comes to the link order
that a loader would give which only looks paths up on the shelf.
-/
namespace Linkage

open LinkOrder (Serves Bounded ServesAmong rootPaths)

namespace Shelf

variable {s : Shelf}

def serve (s : Shelf) (path : String) : Except FetchError Archive :=
  match s.archives[path]? with
  | some a => .ok a
  | none => .error (.notCached path)

def loader (s : Shelf) : Loader Unit FetchError := .ofFunction s.serve s.archives.size

/-- The link order of a package of which all that it needs is on the shelf. -/
def linkOrder (s : Shelf) (runtime package : String) : Except Command.Error (List Archive) :=
  match s.serve package with
  | .error e => .error (.fetch e)
  | .ok entry =>
    match (LinkOrder.ofEntry s.loader runtime entry ()).1 with
    | .ok pkgs => .ok pkgs
    | .error e => .error (.order e)

theorem serve_eq_ok_iff {path : String} {a : Archive} : s.serve path = .ok a ↔ s.archives[path]? = some a := by
  unfold serve
  cases s.archives[path]? <;> simp

/-- Imports cannot nest deeper than there are archives. -/
theorem linkOrder_ne_capacity (s : Shelf) (runtime package path : String) :
    s.linkOrder runtime package ≠ .error (.order (.capacity path)) := by
  have bounded : Bounded s.loader s.archives.keys := by
    refine ⟨Std.TreeMap.length_keys.le, fun path _ a served => ?_⟩
    exact Cache.mem_keys_iff.mpr ⟨a, serve_eq_ok_iff.mp served⟩
  intro failed
  unfold linkOrder at failed
  split at failed
  next => cases failed
  next entry _ =>
    rcases outcome : LinkOrder.ofEntry s.loader runtime entry () with ⟨order, final⟩
    rw [outcome] at failed
    cases order with
    | ok pkgs => cases failed
    | error e =>
      obtain rfl : e = .capacity path := by simpa using failed
      exact bounded.ofEntry_ne_capacity outcome

end Shelf

namespace Command

open Cache (Call Keeps Stocked Tells Distinct afterCalls)

variable {c : Cache} {d : Disk} {root : Location} {s : Shelf} {used : List String}

/-- Whatever is loaded by then, a load of one of the paths gives what is on the shelf. -/
theorem fetch_eq (stocked : Stocked c d (fun path => s.archives[path]?) used) {path : String} (member : path ∈ used)
    (r : Registry) : (fetch c d path r).1 = s.serve path := by
  have loaded := stocked.load_eq member r
  rcases ran : c.load d path r with ⟨answer, i⟩
  rw [ran] at loaded
  obtain rfl : answer = .ok s.archives[path]? := loaded
  unfold fetch Shelf.serve
  rw [ran]
  cases s.archives[path]? <;> rfl

/-- Over a cache that the shelf describes, the driver puts packages in the order of the shelf. -/
theorem cachedOrder_eq (stocked : Stocked c d (fun path => s.archives[path]?) used)
    (capacity : c.capacity d = s.archives.size) {runtime package : String} (runtime_used : runtime ∈ used)
    (package_used : package ∈ used) : cachedOrder c d runtime package = s.linkOrder runtime package := by
  have serves : ServesAmong (loader c d) s.serve used :=
    ⟨fun path member r => fetch_eq stocked member r,
      fun path _ a served => stocked.imports path a (Shelf.serve_eq_ok_iff.mp served)⟩
  have found := fetch_eq stocked package_used .empty
  unfold cachedOrder Shelf.linkOrder
  rcases fetched : fetch c d package .empty with ⟨answer, r⟩
  rw [fetched] at found
  rw [← found]
  cases answer with
  | error e => rfl
  | ok entry =>
    have imports := stocked.imports package entry (Shelf.serve_eq_ok_iff.mp found.symm)
    have roots : ∀ path ∈ rootPaths runtime entry, path ∈ used := by
      intro path root
      unfold rootPaths at root
      split at root
      · exact List.forall_mem_cons.mpr ⟨runtime_used, imports⟩ path root
      · exact imports path root
    have same :
        (LinkOrder.ofEntry (loader c d) runtime entry r).1 = (LinkOrder.ofEntry s.loader runtime entry ()).1 := by
      rw [serves.ofEntry_eq roots r, Shelf.loader, ← capacity]
      rfl
    cases ordered : (LinkOrder.ofEntry s.loader runtime entry ()).1 with
    | ok pkgs => simp only [same.trans ordered, ordered]
    | error e => simp only [same.trans ordered, ordered]

theorem run_onDisk {action : Cache.Action Unit} {h : Host} (ran : action.run h.disk = .ok () h.disk) :
    (onDisk action).run h = .ok () h := by
  have ran : action h.disk = .ok () h.disk := ran
  simp only [onDisk, EStateM.run_bind, EStateM.run_get, ran, EStateM.run_set, EStateM.run_pure]

/-- A run that gives an answer and leaves the host as it is. -/
def answering {α : Type} (h : Host) : Except Error α → EStateM.Result Error Host α
  | .ok a => .ok a h
  | .error e => .error e h

/-- Opening the cache changes nothing, so the answer is that of the packages in it. -/
theorem run_linkOrder {i : Invocation} {h : Host} {order : Except Error (List Archive)}
    (prepared : ({ dir := i.cacheDir } : Cache).prepare.run h.disk = .ok () h.disk)
    (found : cachedOrder { dir := i.cacheDir } h.disk (settings i).runtimePackage i.package = order) :
    (linkOrder i).run h = answering h order := by
  unfold linkOrder
  rw [EStateM.run_bind, run_onDisk prepared]
  dsimp only
  rw [EStateM.run_bind, EStateM.run_get]
  dsimp only
  rw [found]
  cases order <;> rfl

/-- The listing of dependencies is that of the import paths in link order. -/
theorem run_importPaths {i : Invocation} {h : Host} {order : Except Error (List Archive)}
    (ran : (linkOrder i).run h = answering h order) :
    (importPaths i).run h = answering h (order.map fun pkgs => pkgs.map (·.importPath)) := by
  unfold importPaths
  rw [EStateM.run_bind, ran]
  cases order <;> rfl

/-- The host after some calls on a cache. -/
def hostAfter (h : Host) (dir : String) (calls : List Call) : Host :=
  { h with disk := (afterCalls ({ dir }, h.disk) calls).2 }

/-- A command on a cache that was filled under the version of the linker changes nothing on the host, and finds what the
shelf has: the package asked for is missing, or its link order is the one that a loader gives which looks each path up,
with the same archives, or the same path that is missing, or the same cycle. -/
theorem linkOrder_as_shelf {i : Invocation} {h : Host} {calls : List Call} {version : String}
    (begins : ({ dir := i.cacheDir } : Cache).BeginsIn root h.disk d) (roomy : ({ dir := i.cacheDir } : Cache).Roomy)
    (opened : calls.head? = some (.openAs version))
    (trimmed : ∀ version, .openAs version ∈ calls → Text.trim version = version)
    (distinct : Distinct (calls ++ [.load i.package, .load (settings i).runtimePackage]))
    (filled : (Shelf.after {} calls).version = some linkerVersion)
    (selfContained : ∀ (path : String) (a : Archive),
      (Shelf.after {} calls).archives[path]? = some a → a.SelfContained) :
    (linkOrder i).run (hostAfter h i.cacheDir calls) =
        answering (hostAfter h i.cacheDir calls)
          ((Shelf.after {} calls).linkOrder (settings i).runtimePackage i.package) ∧
      (importPaths i).run (hostAfter h i.cacheDir calls) =
        answering (hostAfter h i.cacheDir calls)
          (((Shelf.after {} calls).linkOrder (settings i).runtimePackage i.package).map fun pkgs =>
            pkgs.map (·.importPath)) ∧
      ∀ path, (Shelf.after {} calls).linkOrder (settings i).runtimePackage i.package ≠
        .error (.order (.capacity path)) := by
  let loads : List Call := [.load i.package, .load (settings i).runtimePackage]
  have among : calls ⊆ calls ++ loads := List.subset_append_left _ _
  have trimmed' : ∀ version, .openAs version ∈ calls ++ loads → Text.trim version = version := by
    intro version member
    exact trimmed version ((List.mem_append.mp member).resolve_right (by simp [loads]))
  obtain ⟨put, sameDir, kept⟩ := Cache.keeps_after begins.keeps roomy distinct trimmed' calls among
  have tells := Cache.tells_of_filledBy distinct among put
  have written : (hostAfter h i.cacheDir calls).disk = (afterCalls ({ dir := i.cacheDir }, d) calls).2 :=
    congrArg Prod.snd (begins.afterCalls_eq opened)
  have keeps : ({ dir := i.cacheDir } : Cache).Keeps root (Shelf.after {} calls)
      (hostAfter h i.cacheDir calls).disk := by
    have reopened := kept.of_dir linkerVersion
    rw [← written, sameDir] at reopened
    exact reopened
  have prepared := keeps.run_prepare_of_current filled (trimmed _ (put.opened _ filled))
  have stocked := Stocked.of_selfContained (fun path => keeps.stream?_eq roomy tells) fun path a found => by
    obtain ⟨own, stored⟩ := put.put path a found
    exact ⟨own, selfContained path a found,
      fun imported member => Cache.mem_paths (among stored) imported (List.mem_cons_of_mem _ member)⟩
  have loaded {path : String} (member : .load path ∈ loads) : path ∈ (calls ++ loads).flatMap Call.paths :=
    List.mem_flatMap.mpr ⟨.load path, List.mem_append_right calls member, List.mem_singleton_self path⟩
  have found := cachedOrder_eq stocked (keeps.capacity_eq tells) (loaded (List.mem_cons_of_mem _ List.mem_cons_self))
    (loaded List.mem_cons_self)
  have ran := run_linkOrder prepared found
  exact ⟨ran, run_importPaths ran, Shelf.linkOrder_ne_capacity _ _ _⟩

namespace Looped

/-- An interface with a type that refers to itself. -/
def interface : Interface where
  path := "lib"
  name := "lib"
  members := [⟨"T", .type, .pointer (.named "lib" "T")⟩]

def runtime : Archive where
  importPath := "runtime"
  name := "runtime"

def lib : Archive where
  importPath := "lib"
  name := "lib"
  imports := ["runtime", "main", "gone"]
  exportData := interface.encode
  positions := some ⟨#[⟨"f.src", 1, 5, #[0, 3]⟩]⟩

def main : Archive where
  importPath := "main"
  name := "main"
  imports := ["lib"]

def calls : List Call := [.openAs linkerVersion, .put main, .put lib, .put runtime]

def invocation : Invocation where
  package := "main"
  cacheDir := "c"

theorem selfContained : ∀ (path : String) (a : Archive),
    (Shelf.after {} calls).archives[path]? = some a → a.SelfContained := by
  have decoded : Interface.decode interface.encode = .ok interface := Interface.decode_encode (by decide +kernel)
  have inOrder : ∀ t ∈ lib.positions, t.check = .ok () := Archive.checkPositions_eq_ok.mp (by decide +kernel)
  intro path a found
  obtain ⟨-, put⟩ := (Shelf.filledBy_after calls).put path a found
  simp only [calls, List.mem_cons, List.not_mem_nil, or_false, Call.put.injEq, reduceCtorEq, false_or] at put
  rcases put with rfl | rfl | rfl
  · exact ⟨.inl rfl, nofun, by decide +kernel⟩
  · exact ⟨.inr ⟨interface, decoded, rfl, by decide⟩, inOrder, by decide +kernel⟩
  · exact ⟨.inl rfl, nofun, by decide +kernel⟩

theorem distinct : Distinct (calls ++ [.load "main", .load "runtime"]) := by
  have among : (calls ++ [Call.load "main", .load "runtime"]).flatMap Call.paths ⊆
      ["main", "lib", "runtime", "gone"] := by decide
  exact Cache.distinct_of_nodup among (by decide +kernel)

end Looped

open Looped in
/-- Packages `main` and `lib` import each other, which both commands report as a cycle. -/
theorem linkOrder_as_shelf_looped :
    ({ dir := "c" } : Cache).BeginsIn ["c"] {} Cache.Reopened.made ∧ ({ dir := "c" } : Cache).Roomy ∧
      calls.head? = some (.openAs linkerVersion) ∧
      (∀ version, .openAs version ∈ calls → Text.trim version = version) ∧
      Distinct (calls ++ [.load "main", .load "runtime"]) ∧
      (Shelf.after {} calls).version = some linkerVersion ∧
      (∀ (path : String) (a : Archive), (Shelf.after {} calls).archives[path]? = some a → a.SelfContained) ∧
      (linkOrder invocation).run (hostAfter {} "c" calls) =
        .error (.order (.cycle ["main", "lib", "main"])) (hostAfter {} "c" calls) ∧
      (importPaths invocation).run (hostAfter {} "c" calls) =
        .error (.order (.cycle ["main", "lib", "main"])) (hostAfter {} "c" calls) := by
  have roomy : ({ dir := "c" } : Cache).Roomy := by
    unfold Cache.Roomy
    decide +kernel
  have trimmed : ∀ version, .openAs version ∈ calls → Text.trim version = version := by
    intro version opened
    obtain rfl : version = linkerVersion := by simpa [calls] using opened
    decide +kernel
  have filled : (Shelf.after {} calls).version = some linkerVersion := by decide +kernel
  have cycle : (Shelf.after {} calls).linkOrder (settings invocation).runtimePackage invocation.package =
      .error (.order (.cycle ["main", "lib", "main"])) := by decide +kernel
  have opened : calls.head? = some (.openAs linkerVersion) := rfl
  have ran := linkOrder_as_shelf (i := invocation) (h := {}) Cache.Reopened.begins roomy opened trimmed distinct filled
    selfContained
  rw [cycle] at ran
  exact ⟨Cache.Reopened.begins, roomy, opened, trimmed, distinct, filled, selfContained, ran.1, ran.2.1⟩

end Command
end Linkage
