import Linkage.Proofs.LinkOrder.Visits
import Mathlib.Data.List.Chain
import Mathlib.Logic.Relation

/-!
# How a walk comes to a path

Whatever the loader answers, the pending paths import one another, from the entry package to the path that the walk has
come to. A walk that fails does so at such a path: it is pending, the loader refuses it, or it lies too deep.
-/
namespace Linkage.LinkOrder

open Relation

variable {σ ε : Type} {loader : Loader σ ε} {source : σ} {runtime : String} {entry : Archive} {path : String}
  {w w' : Walk σ}

/-! ### What the loader was asked and answered -/

/-- The state of the loader after it was asked for the paths, latest first. -/
def stateAfter (loader : Loader σ ε) (source : σ) : List String → σ
  | [] => source
  | path :: earlier => (loader.load path (stateAfter loader source earlier)).2

/-- One of the requests, latest first, was for the path, and this was the answer. -/
def Answered (loader : Loader σ ε) (source : σ) (requests : List String) (path : String)
    (answer : Except ε Archive) : Prop :=
  ∃ later earlier, requests = later ++ path :: earlier ∧
    (loader.load path (stateAfter loader source earlier)).1 = answer

/-- Later requests do not change what was answered before. -/
theorem Answered.mono {requests more : List String} {answer : Except ε Archive} (older : requests <:+ more)
    (answered : Answered loader source requests path answer) : Answered loader source more path answer := by
  obtain ⟨latest, rfl⟩ := older
  obtain ⟨later, earlier, rfl, same⟩ := answered
  exact ⟨latest ++ later, earlier, (List.append_assoc ..).symm, same⟩

def Walk.Recorded (loader : Loader σ ε) (source : σ) (w : Walk σ) : Prop :=
  w.source = stateAfter loader source w.requests

theorem Walk.Recorded.entering {answer : Except ε Archive} {next : σ} (recorded : w.Recorded loader source)
    (loaded : loader.load path w.source = (answer, next)) :
    (w.entering path next).Recorded loader source ∧
      Answered loader source (w.entering path next).requests path answer := by
  rw [recorded] at loaded
  exact ⟨(congrArg Prod.snd loaded).symm, [], w.requests, rfl, congrArg Prod.fst loaded⟩

/-! ### What visits keep -/

/-- After visits the same paths are pending as before them. -/
theorem Visits.pending_eq {paths : List String} (visits : Visits loader paths w w') : w'.pending = w.pending := by
  induction visits with
  | nil w => rfl
  | skip _ _ ih => exact ih
  | load _ _ _ _ settled _ _ later => exact later.trans settled.pending

theorem Visits.requests_suffix {paths : List String} (visits : Visits loader paths w w') :
    w.requests <:+ w'.requests := by
  induction visits with
  | nil w => exact List.suffix_rfl
  | skip _ _ ih => exact ih
  | load _ _ _ _ settled _ nested later =>
    rw [settled.requests] at later
    exact (List.suffix_cons _ _).trans (nested.trans later)

/-- Each request was answered by the loader in the state that the requests before it had left. -/
theorem Visits.recorded {paths : List String} (visits : Visits loader paths w w')
    (recorded : w.Recorded loader source) : w'.Recorded loader source := by
  induction visits with
  | nil w => exact recorded
  | skip _ _ ih => exact ih recorded
  | load _ _ loaded _ settled _ nested later =>
    have inner := nested (recorded.entering loaded).1
    refine later ?_
    rw [Walk.Recorded, settled.source, settled.requests]
    exact inner

/-! ### Import chains -/

/-- The imports of a program. The entry package imports its own paths and the runtime package, and any other path
imports what the archive that is answered for it imports. -/
inductive Imports (answered : String → Except ε Archive → Prop) (runtime : String) (entry : Archive) :
    String → String → Prop
  | entry {imported : String} (root : imported ∈ rootPaths runtime entry) :
    Imports answered runtime entry entry.importPath imported
  | package {path imported : String} {archive : Archive} (other : path ≠ entry.importPath)
    (served : answered path (.ok archive)) (imports : imported ∈ archive.imports) :
    Imports answered runtime entry path imported

theorem Imports.mono {few many : String → Except ε Archive → Prop} (grows : ∀ p answer, few p answer → many p answer)
    {p q : String} (imports : Imports few runtime entry p q) : Imports many runtime entry p q := by
  cases imports with
  | entry root => exact .entry root
  | package other served imports => exact .package other (grows _ _ served) imports

/-- The imports of a program as the answers to these requests tell them. -/
abbrev ImportsOf (loader : Loader σ ε) (source : σ) (runtime : String) (entry : Archive) (requests : List String) :=
  Imports (Answered loader source requests) runtime entry

/-- What holds of a walk when it comes to a path. -/
structure Arrival (loader : Loader σ ε) (source : σ) (runtime : String) (entry : Archive) (path : String)
    (w : Walk σ) : Prop where
  recorded : w.Recorded loader source
  distinct : w.pending.Nodup
  outermost : w.pending.getLast? = some entry.importPath
  chained : (path :: w.pending).IsChain fun inner outer => ImportsOf loader source runtime entry w.requests outer inner

namespace Arrival

/-- What holds on arrival at a path still holds when its siblings have been visited. -/
theorem of_visits (arrival : Arrival loader source runtime entry path w) {paths : List String}
    (visits : Visits loader paths w w') : Arrival loader source runtime entry path w' where
  recorded := visits.recorded arrival.recorded
  distinct := visits.pending_eq ▸ arrival.distinct
  outermost := visits.pending_eq ▸ arrival.outermost
  chained := by
    rw [visits.pending_eq]
    exact arrival.chained.imp fun _ _ imports => imports.mono fun _ _ => Answered.mono visits.requests_suffix

theorem entry_pending (arrival : Arrival loader source runtime entry path w) : entry.importPath ∈ w.pending :=
  List.mem_of_getLast? arrival.outermost

/-- On arrival at an import, the path that imports it is pending. -/
theorem entering {archive : Archive} {next : σ} (arrival : Arrival loader source runtime entry path w)
    (idle : path ∉ w.pending) (loaded : loader.load path w.source = (.ok archive, next)) :
    ∀ q ∈ archive.imports, Arrival loader source runtime entry q (w.entering path next) := by
  intro q imported
  obtain ⟨recorded, answered⟩ := arrival.recorded.entering loaded
  have older : w.requests <:+ (w.entering path next).requests := List.suffix_cons path w.requests
  refine ⟨recorded, List.nodup_cons.mpr ⟨idle, arrival.distinct⟩, ?_, ?_⟩
  · change (path :: w.pending).getLast? = _
    rw [List.getLast?_cons, arrival.outermost]
    rfl
  · refine List.isChain_cons_cons.mpr ⟨?_, ?_⟩
    · exact .package (fun same => idle (same ▸ arrival.entry_pending)) answered imported
    · exact arrival.chained.imp fun _ _ imports => imports.mono fun _ _ => Answered.mono older

/-- Each pending path leads to the one that the walk has come to. -/
theorem transGen (arrival : Arrival loader source runtime entry path w) {p : String} (held : p ∈ w.pending) :
    TransGen (ImportsOf loader source runtime entry w.requests) p path := by
  let leads := fun inner outer => TransGen (ImportsOf loader source runtime entry w.requests) outer inner
  have : Trans leads leads leads := ⟨fun inner outer => outer.trans inner⟩
  have chained : (path :: w.pending).IsChain leads := arrival.chained.imp fun _ _ imports => .single imports
  exact (List.pairwise_cons.mp chained.pairwise).1 p held

end Arrival

theorem Walk.ofEntry_arrival (loader : Loader σ ε) (source : σ) (runtime : String) (entry : Archive) :
    ∀ path ∈ rootPaths runtime entry, Arrival loader source runtime entry path (.ofEntry source entry) := by
  intro path root
  refine ⟨rfl, List.pairwise_singleton _ _, rfl, ?_⟩
  exact List.isChain_cons_cons.mpr ⟨.entry root, List.isChain_singleton _⟩

/-! ### Failing walks -/

/-- Visiting the paths from `w`, the walk comes to `path` and has then become `u`. -/
inductive Comes (loader : Loader σ ε) : List String → Walk σ → String → Walk σ → Prop
  | here (path : String) (rest : List String) (w : Walk σ) : Comes loader (path :: rest) w path w
  | inside {path p : String} {rest : List String} {archive : Archive} {next : σ} {w u : Walk σ}
    (fresh : w.finished.contains path = false) (idle : path ∉ w.pending)
    (loaded : loader.load path w.source = (.ok archive, next))
    (comes : Comes loader archive.imports (w.entering path next) p u) : Comes loader (path :: rest) w p u
  | later {path p : String} {rest : List String} {w between u : Walk σ} (first : Visits loader [path] w between)
    (comes : Comes loader rest between p u) : Comes loader (path :: rest) w p u

/-- Wherever the walk comes to, it arrives by a chain of imports. -/
theorem Comes.arrival {paths : List String} {u : Walk σ} (comes : Comes loader paths w path u)
    (arrivals : ∀ p ∈ paths, Arrival loader source runtime entry p w) : Arrival loader source runtime entry path u := by
  induction comes with
  | here path rest w => exact arrivals path List.mem_cons_self
  | inside _ idle loaded _ ih => exact ih ((arrivals _ List.mem_cons_self).entering idle loaded)
  | later first _ ih => exact ih fun p member => (arrivals p (List.mem_cons_of_mem _ member)).of_visits first

/-- The walk cannot go on with the path: what is reported, and what the walk then is. At `limit` pending paths it
gives up. -/
inductive Fails (loader : Loader σ ε) (limit : Nat) (path : String) (u : Walk σ) : Error ε → Walk σ → Prop
  | cycle (held : path ∈ u.pending) : Fails loader limit path u (.cycle (u.pending.reverse ++ [path])) u
  | refused {cause : ε} {next : σ} (idle : path ∉ u.pending)
    (answer : loader.load path u.source = (.error cause, next)) :
    Fails loader limit path u (.load path cause) (u.entering path next)
  | exhausted (deep : u.pending.length = limit) : Fails loader limit path u (.capacity path) u

/-- A visit that succeeds is one of the steps that `Visits` describes. -/
theorem visits_of_visit {depth : Nat} {done : Unit} (succeeds : (visit loader depth path).run w = .ok done w') :
    Visits loader [path] w w' := by
  have alone : ([path].forM (visit loader depth)).run w = .ok () w' := by
    change (do visit loader depth path; [].forM (visit loader depth) : Walking σ ε Unit).run w = _
    rw [EStateM.run_bind, succeeds]
    rfl
  exact (visits_of_run alone).1

/-- A visit fails at the path itself or at one of its imports, and reports the same error. -/
theorem fails_of_visit {depth : Nat} {rest : List String} {e : Error ε}
    (nested : ∀ {paths : List String} {w w' : Walk σ} {e : Error ε},
      (paths.forM (visit loader depth)).run w = .error e w' →
        ∃ p u, Comes loader paths w p u ∧ Fails loader (w.pending.length + depth) p u e w')
    (failed : (visit loader (depth + 1) path).run w = .error e w') :
    ∃ p u, Comes loader (path :: rest) w p u ∧ Fails loader (w.pending.length + (depth + 1)) p u e w' := by
  rw [run_visit_succ] at failed
  by_cases finished : w.finished.contains path = true
  · simp only [finished, ite_true, reduceCtorEq] at failed
  by_cases held : path ∈ w.pending
  · simp only [finished, held, ite_true] at failed
    cases failed
    exact ⟨path, _, .here path rest _, .cycle held⟩
  rcases loaded : loader.load path w.source with ⟨answer, source⟩
  rw [if_neg finished, if_neg held, loaded] at failed
  cases answer with
  | error cause =>
    cases failed
    exact ⟨path, w, .here path rest w, .refused held loaded⟩
  | ok archive =>
    dsimp only at failed
    cases imported : (archive.imports.forM (visit loader depth)).run (w.entering path source) with
    | error e inner =>
      simp only [imported] at failed
      cases failed
      obtain ⟨p, u, comes, fails⟩ := nested imported
      have level : (w.entering path source).pending.length + depth = w.pending.length + (depth + 1) :=
        Nat.add_right_comm w.pending.length 1 depth
      exact ⟨p, u, .inside (Bool.eq_false_iff.mpr finished) held loaded comes, level ▸ fails⟩
    | ok _ inner =>
      -- Once the imports are visited, nothing can fail.
      obtain ⟨_, restored⟩ := visits_of_run imported
      obtain ⟨after, settles, _⟩ := run_settle (ε := ε) restored archive
      simp only [imported, settles, reduceCtorEq] at failed

/-- A run fails at a path that it comes to, and by a failure of that path. -/
theorem fails_of_run {depth : Nat} {paths : List String} {e : Error ε}
    (failed : (paths.forM (visit loader depth)).run w = .error e w') :
    ∃ path u, Comes loader paths w path u ∧ Fails loader (w.pending.length + depth) path u e w' := by
  -- As for a walk that succeeds: the imports of an archive are visited at one depth less, later paths at the same one.
  induction depth generalizing paths w w' e with
  | zero =>
    cases paths with
    | nil => cases failed
    | cons path rest =>
      cases failed
      exact ⟨path, _, .here path rest _, .exhausted rfl⟩
  | succ depth nested =>
    induction paths generalizing w with
    | nil => cases failed
    | cons path rest next =>
      change (do visit loader (depth + 1) path; rest.forM (visit loader (depth + 1)) : Walking σ ε Unit).run w =
        .error e w' at failed
      rw [EStateM.run_bind] at failed
      cases visited : (visit loader (depth + 1) path).run w with
      | ok done between =>
        rw [visited] at failed
        have first := visits_of_visit visited
        obtain ⟨p, u, comes, fails⟩ := next failed
        rw [first.pending_eq] at fails
        exact ⟨p, u, .later first comes, fails⟩
      | error e' stopped =>
        rw [visited] at failed
        cases failed
        exact fails_of_visit nested visited

/-- The same for a whole program, whose roots are the runtime package and the imports of the entry package. -/
theorem fails_of_ofEntry {e : Error ε} {final : Walk σ}
    (failed : ofEntry loader runtime entry source = (.error e, final)) :
    ∃ path u, Comes loader (rootPaths runtime entry) (.ofEntry source entry) path u ∧
      Fails loader (loader.capacity + 2) path u e final := by
  have ran := run_visitEntry loader runtime entry source
  rw [EStateM.run_bind] at ran
  change visitEntry loader runtime entry { source } = _ at ran
  unfold ofEntry at failed
  cases visited : ((rootPaths runtime entry).forM (visit loader (loader.capacity + 1))).run (.ofEntry source entry) with
  | ok _ w =>
    rw [ran, visited] at failed
    cases failed
  | error e w =>
    rw [ran, visited] at failed
    cases failed
    obtain ⟨path, u, comes, fails⟩ := fails_of_run visited
    rw [Nat.add_comm] at fails
    exact ⟨path, u, comes, fails⟩

end Linkage.LinkOrder
