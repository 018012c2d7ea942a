import Linkage.Proofs.LinkOrder.Canonical
import Linkage.Proofs.LinkOrder.Descent
import Mathlib.Data.List.Perm.Subperm

/-!
# When packages can be ordered

With a loader that serves each archive under its own import path only, a program can be ordered exactly if all that it
imports can be loaded and nothing imports itself. Whatever the loader does, a reported cycle is a chain of imports from
the entry package to a path that occurs in it before, and a path that is reported as refused is one that imports lead to.
-/
namespace Linkage.LinkOrder

open Relation

variable {σ ε : Type} {loader : Loader σ ε} {serve : String → Except ε Archive} {source : σ} {runtime : String}
  {entry : Archive} {path : String} {w u : Walk σ}

def Honest (serve : String → Except ε Archive) : Prop :=
  ∀ path archive, serve path = .ok archive → archive.importPath = path

/-- A loader that serves each path by its own archive serves no archive twice. -/
theorem Honest.canonical (honest : Honest serve) : Canonical serve := by
  intro path archive served
  rw [honest path archive served]
  exact served

theorem Honest.unaliased (honest : Honest serve) (entry : Archive) : Unaliased serve entry := by
  intro path archive served same
  rw [← same, honest path archive served]

/-- The loader has an archive for no other paths than these, and its capacity counts them all. -/
def Bounded (loader : Loader σ ε) (world : List String) : Prop :=
  world.length ≤ loader.capacity ∧ ∀ path state archive, (loader.load path state).1 = .ok archive → path ∈ world

theorem Imports.root {answered : String → Except ε Archive → Prop}
    (imports : Imports answered runtime entry entry.importPath path) : path ∈ rootPaths runtime entry := by
  cases imports with
  | entry root => exact root
  | package other => exact absurd rfl other

/-! ### Failures -/

/-- Pending paths are distinct and can be loaded, so the bound on their number is never reached. -/
theorem Arrival.length_pending_le (arrival : Arrival loader source runtime entry path w) {world : List String}
    (bounded : Bounded loader world) : w.pending.length ≤ loader.capacity + 1 := by
  -- All pending paths but that of the entry package have been loaded.
  have subset : w.pending ⊆ entry.importPath :: world := by
    intro p held
    have leads := arrival.transGen held
    obtain ⟨q, imports, _⟩ := TransGen.head'_iff.mp leads
    cases imports with
    | entry => exact List.mem_cons_self
    | package _ served _ =>
      obtain ⟨_, _, _, answer⟩ := served
      exact List.mem_cons_of_mem _ (bounded.2 _ _ _ answer)
  have counted := (List.subperm_of_subset arrival.distinct subset).length_le
  rw [List.length_cons] at counted
  have capacity := bounded.1
  omega

/-- A chain of imports from the entry package, in which only the last path has occurred before. -/
structure ClosedChain (imports : String → String → Prop) (runtime : String) (entry : Archive)
    (chain : List String) : Prop where
  begins : ∃ second rest, chain = entry.importPath :: second :: rest ∧ second ∈ rootPaths runtime entry
  imports : chain.IsChain imports
  distinct : chain.dropLast.Nodup
  closes : ∃ last ∈ chain.dropLast, chain.getLast? = some last

/-- Arriving at a pending path closes the chain of imports that is reported. -/
theorem Arrival.closedChain (arrival : Arrival loader source runtime entry path w) (held : path ∈ w.pending) :
    ClosedChain (ImportsOf loader source runtime entry w.requests) runtime entry (w.pending.reverse ++ [path]) := by
  have chained : (w.pending.reverse ++ [path]).IsChain (ImportsOf loader source runtime entry w.requests) := by
    have reversed := List.isChain_reverse.mpr arrival.chained
    rw [List.reverse_cons] at reversed
    exact reversed
  have first : w.pending.reverse.head? = some entry.importPath := by
    rw [List.head?_reverse]
    exact arrival.outermost
  refine ⟨?_, chained, ?_, path, ?_, ?_⟩
  · obtain ⟨others, split⟩ := List.head?_eq_some_iff.mp first
    obtain ⟨second, rest, more⟩ := List.exists_cons_of_ne_nil (List.append_ne_nil_of_right_ne_nil others (List.cons_ne_nil path []))
    rw [split, List.cons_append, more] at chained ⊢
    exact ⟨second, rest, rfl, (List.isChain_cons_cons.mp chained).1.root⟩
  · rw [List.dropLast_concat]
    exact List.nodup_reverse.mpr arrival.distinct
  · rw [List.dropLast_concat]
    exact List.mem_reverse.mpr held
  · exact List.getLast?_concat

/-! ### Success -/

/-- The imports of a program as a loader without a state serves them. -/
abbrev ServedImports (serve : String → Except ε Archive) (runtime : String) (entry : Archive) :=
  Imports (fun p answer => serve p = answer) runtime entry

theorem Answered.serve_eq {requests : List String} {answer : Except ε Archive} (serves : Serves loader serve)
    (answered : Answered loader source requests path answer) : serve path = answer := by
  obtain ⟨_, earlier, _, same⟩ := answered
  rw [← serves path (stateAfter loader source earlier), same]

theorem reachable_of_imports {p : String} (leads : ReflTransGen (ServedImports serve runtime entry) entry.importPath path)
    (imports : ServedImports serve runtime entry path p) : Reachable serve (rootPaths runtime entry) p := by
  induction leads generalizing p with
  | refl => exact .root imports.root
  | tail _ last ih =>
    cases imports with
    | entry root => exact .root root
    | package _ served member => exact .step (ih last) served member

theorem reachable_of_transGen {p : String} (leads : ReflTransGen (ServedImports serve runtime entry) entry.importPath path)
    (further : TransGen (ServedImports serve runtime entry) path p) : Reachable serve (rootPaths runtime entry) p := by
  obtain ⟨q, before, imports⟩ := TransGen.tail'_iff.mp further
  exact reachable_of_imports (leads.trans before) imports

/-- A path that the roots reach has been served and linked. -/
theorem Extends.exists_linked (walked : Extends serve (rootPaths runtime entry) (.ofEntry source entry) w)
    (reachable : Reachable serve (rootPaths runtime entry) path) : ∃ b ∈ w.linked, serve path = .ok b :=
  walked.sound.ordered.mem_of_reachable (fun r root => walked.sound.served r (walked.visited r root)) reachable

/-- The path of the entry package stays pending, so a successful walk with an honest loader never comes to it. -/
theorem Extends.not_reachable_entry (honest : Honest serve)
    (walked : Extends serve (rootPaths runtime entry) (.ofEntry source entry) w) :
    ¬ Reachable serve (rootPaths runtime entry) entry.importPath := by
  intro reachable
  obtain ⟨b, member, served⟩ := walked.exists_linked reachable
  have finished := walked.sound.listed b member
  rw [honest _ b served, walked.sound.apart entry.importPath (by simp [walked.pending, Walk.ofEntry])] at finished
  cases finished

/-- No path that the program imports leads back to itself once the walk has succeeded. -/
theorem Extends.acyclic (honest : Honest serve)
    (walked : Extends serve (rootPaths runtime entry) (.ofEntry source entry) w)
    (leads : ReflTransGen (ServedImports serve runtime entry) entry.importPath path) :
    ¬ TransGen (ServedImports serve runtime entry) path path := by
  intro cycle
  have reachable := reachable_of_transGen leads cycle
  obtain ⟨archive, member, served⟩ := walked.exists_linked reachable
  have other : path ≠ entry.importPath := fun same => walked.not_reachable_entry honest (same ▸ reachable)
  -- All that the path leads to is reached from the imports of its archive, since the entry package is not on the way.
  have inner : ∀ q, TransGen (ServedImports serve runtime entry) path q → Reachable serve archive.imports q := by
    intro q further
    induction further with
    | single imports =>
      cases imports with
      | entry => exact absurd rfl other
      | package _ again member =>
        cases served.symm.trans again
        exact .root member
    | tail before imports ih =>
      cases imports with
      | entry => exact absurd (reachable_of_transGen leads before) (walked.not_reachable_entry honest)
      | package _ again member => exact .step ih again member
  exact walked.sound.ordered.irrefl walked.sound.distinct member (inner path cycle) served

/-- A walk that succeeds has found every path served, and no cycle. -/
theorem sound_of_ofEntry {order : List Archive} {final : Walk σ} (serves : Serves loader serve) (honest : Honest serve)
    (succeeds : ofEntry loader runtime entry source = (.ok order, final))
    (leads : ReflTransGen (ServedImports serve runtime entry) entry.importPath path) :
    (path ≠ entry.importPath → ∃ archive, serve path = .ok archive) ∧
      ¬ TransGen (ServedImports serve runtime entry) path path := by
  obtain ⟨w, visits, pending, _⟩ := visits_of_ofEntry succeeds
  have walked := visits.extends serves honest.canonical (honest.unaliased entry) (Walk.ofEntry_sound serve source entry)
    fun p _ => Walk.ofEntry_chained serve source entry p
  refine ⟨fun other => ?_, walked.acyclic honest leads⟩
  obtain same | ⟨q, before, imports⟩ := ReflTransGen.cases_tail leads
  · exact absurd same other
  · obtain ⟨archive, _, served⟩ := walked.exists_linked (reachable_of_imports before imports)
    exact ⟨archive, served⟩

/-- Without a missing path and without a cycle nothing can fail. -/
theorem ofEntry_of_sound (serves : Serves loader serve) {world : List String} (bounded : Bounded loader world)
    (sound : ∀ p, ReflTransGen (ServedImports serve runtime entry) entry.importPath p →
      (p ≠ entry.importPath → ∃ archive, serve p = .ok archive) ∧
        ¬ TransGen (ServedImports serve runtime entry) p p) :
    ∃ order final, ofEntry loader runtime entry source = (.ok order, final) := by
  rcases outcome : ofEntry loader runtime entry source with ⟨result, final⟩
  cases result with
  | ok order => exact ⟨order, final, rfl⟩
  | error e =>
    exfalso
    obtain ⟨path, u, comes, fails⟩ := fails_of_ofEntry outcome
    have arrival := comes.arrival (Walk.ofEntry_arrival loader source runtime entry)
    have served : ImportsOf loader source runtime entry u.requests ≤ ServedImports serve runtime entry :=
      fun _ _ imports => imports.mono fun _ _ => Answered.serve_eq serves
    have leads : ∀ p ∈ u.pending, TransGen (ServedImports serve runtime entry) p path :=
      fun p held => TransGen.mono served p path (arrival.transGen held)
    have reached := (leads _ arrival.entry_pending).to_reflTransGen
    cases fails with
    | cycle held => exact (sound path reached).2 (leads path held)
    | refused idle answer =>
      have other : path ≠ entry.importPath := fun same => idle (same ▸ arrival.entry_pending)
      obtain ⟨archive, served⟩ := (sound path reached).1 other
      rw [← serves path u.source, answer] at served
      cases served
    | exhausted deep =>
      have shallow := arrival.length_pending_le bounded
      omega

/-- The bound of the model is high enough for a loader of a finite world. -/
theorem Bounded.ofEntry_ne_capacity {world : List String} (bounded : Bounded loader world) {final : Walk σ} :
    ofEntry loader runtime entry source ≠ (.error (.capacity path), final) := by
  intro failed
  obtain ⟨p, u, comes, fails⟩ := fails_of_ofEntry failed
  have arrival := comes.arrival (Walk.ofEntry_arrival loader source runtime entry)
  cases fails with
  | exhausted deep =>
    have shallow := arrival.length_pending_le bounded
    omega

/-- With an honest loader over a finite world, a program is ordered exactly if each path that imports lead to from the
entry package can be loaded, unless it is that of the entry package, and none leads to itself; otherwise a cycle or a
refused path is reported. Whatever the loader is, a cycle that is reported is a closed chain of imports from the entry
package, and a path that is reported as refused is one that imports lead to and that the loader refused. -/
theorem ofEntry_outcome (loader : Loader σ ε) (runtime : String) (entry : Archive) (source : σ) :
    (∀ serve world, Serves loader serve → Honest serve → Bounded loader world →
      ((∃ order final, ofEntry loader runtime entry source = (.ok order, final)) ↔
        ∀ path, ReflTransGen (ServedImports serve runtime entry) entry.importPath path →
          (path ≠ entry.importPath → ∃ archive, serve path = .ok archive) ∧
          ¬ TransGen (ServedImports serve runtime entry) path path) ∧
      ∀ path final, ofEntry loader runtime entry source ≠ (.error (.capacity path), final)) ∧
    (∀ chain final, ofEntry loader runtime entry source = (.error (.cycle chain), final) →
      ClosedChain (ImportsOf loader source runtime entry final.requests) runtime entry chain) ∧
    ∀ path cause final, ofEntry loader runtime entry source = (.error (.load path cause), final) →
      ReflTransGen (ImportsOf loader source runtime entry final.requests) entry.importPath path ∧
      Answered loader source final.requests path (.error cause) := by
  refine ⟨fun serve world serves honest bounded => ⟨?_, fun path final => bounded.ofEntry_ne_capacity⟩,
    fun chain final failed => ?_, fun path cause final failed => ?_⟩
  · constructor
    · rintro ⟨order, final, succeeds⟩ path leads
      exact sound_of_ofEntry serves honest succeeds leads
    · exact ofEntry_of_sound serves bounded
  all_goals
    obtain ⟨p, u, comes, fails⟩ := fails_of_ofEntry failed
    have arrival := comes.arrival (Walk.ofEntry_arrival loader source runtime entry)
    cases fails
  case cycle held => exact arrival.closedChain held
  case refused next idle answer =>
    obtain ⟨_, answered⟩ := arrival.recorded.entering answer
    refine ⟨?_, answered⟩
    have older : u.requests <:+ (u.entering path next).requests := List.suffix_cons path u.requests
    have grows : ImportsOf loader source runtime entry u.requests ≤
        ImportsOf loader source runtime entry (u.entering path next).requests :=
      fun _ _ imports => imports.mono fun _ _ => Answered.mono older
    exact ReflTransGen.mono grows _ _ (arrival.transGen arrival.entry_pending).to_reflTransGen

namespace Knotted

def package (path : String) (imports : List String) : Archive := { importPath := path, name := path, imports }

/-- Two packages that import each other, beside two that do not. -/
def answer : String → Except Unit Archive
  | "runtime" => .ok (package "runtime" [])
  | "lib" => .ok (package "lib" ["runtime"])
  | "first" => .ok (package "first" ["lib", "second"])
  | "second" => .ok (package "second" ["first"])
  | _ => .error ()

def store : Loader Unit Unit where
  load path state := (answer path, state)
  capacity := 4

def world : List String := ["runtime", "lib", "first", "second"]

end Knotted

open Knotted in
/-- A complete program, one with a cycle, and one in which a path is missing. -/
theorem ofEntry_outcome_knotted :
    Serves store answer ∧ Honest answer ∧ Bounded store world ∧
    (∀ path, ReflTransGen (ServedImports answer "runtime" (package "main" ["lib"])) "main" path →
      (path ≠ "main" → ∃ archive, answer path = .ok archive) ∧
      ¬ TransGen (ServedImports answer "runtime" (package "main" ["lib"])) path path) ∧
    (∃ requests, ClosedChain (ImportsOf store () "runtime" (package "main" ["first"]) requests) "runtime"
      (package "main" ["first"]) ["main", "first", "second", "first"]) ∧
    ∃ requests, Answered store () requests "elsewhere" (.error ()) := by
  have serves : Serves store answer := fun _ _ => rfl
  have honest : Honest answer := by
    intro path archive served
    unfold answer at served
    split at served <;> cases served <;> rfl
  have bounded : Bounded store world := by
    refine ⟨by decide, fun path state archive served => ?_⟩
    rw [serves path state] at served
    unfold answer at served
    split at served <;> cases served <;> decide
  obtain ⟨ordered, -⟩ := (ofEntry_outcome store "runtime" (package "main" ["lib"]) ()).1 answer world serves honest bounded
  obtain ⟨-, cycle, -⟩ := ofEntry_outcome store "runtime" (package "main" ["first"]) ()
  obtain ⟨-, -, refused⟩ := ofEntry_outcome store "runtime" (package "main" ["elsewhere"]) ()
  have succeeds : (ofEntry store "runtime" (package "main" ["lib"]) ()).1 =
      .ok [package "runtime" [], package "lib" ["runtime"], package "main" ["lib"]] := by decide +kernel
  have knotted : (ofEntry store "runtime" (package "main" ["first"]) ()).1 =
      .error (.cycle ["main", "first", "second", "first"]) := by decide +kernel
  have missed : (ofEntry store "runtime" (package "main" ["elsewhere"]) ()).1 = .error (.load "elsewhere" ()) := by
    decide +kernel
  have reported : ofEntry store "runtime" (package "main" ["first"]) () =
      (.error (.cycle ["main", "first", "second", "first"]), (ofEntry store "runtime" (package "main" ["first"]) ()).2) := by
    rw [← knotted]
  have stopped : ofEntry store "runtime" (package "main" ["elsewhere"]) () =
      (.error (.load "elsewhere" ()), (ofEntry store "runtime" (package "main" ["elsewhere"]) ()).2) := by
    rw [← missed]
  refine ⟨serves, honest, bounded, ordered.mp ⟨_, _, Prod.ext succeeds rfl⟩, ⟨_, cycle _ _ reported⟩, ?_⟩
  exact ⟨_, (refused _ _ _ stopped).2⟩

end Linkage.LinkOrder
