import Linkage.Cache
import Mathlib.Data.List.Induction

/-!
# Caches as shelves

A shelf holds archives by import path, and knows the version that put them there. A cache answers all that it is asked
as the shelf would: opening it with another version empties it, and what is put under a path is found there until it is
removed or replaced. On the disk there are names made of digests, with encoded archives behind them.
-/
namespace Linkage

/-- Archives by import path, and the version that put them there. -/
structure Shelf where
  version : Option String := none
  archives : Std.TreeMap String Archive := ∅

namespace Cache

inductive Call where
  | openAs (version : String)
  | put (a : Archive)
  | remove (path : String)
  | clear
  | has (path : String)
  | count
  -- Load with nothing installed.
  | load (path : String)

inductive Answer where
  | done
  | flag (present : Bool)
  | number (n : Nat)
  | archive (found : Option Archive)

namespace Call

/-- Answer a call through a handle. The second part of the answer is the handle that is the current one then. -/
def perform (c : Cache) : Call → Action (Answer × Cache)
  | .openAs version => do
    let opened := { c with version }
    opened.prepare
    return (.done, opened)
  | .put a => do
    let _ ← c.put a
    return (.done, c)
  | .remove path => do
    c.remove path
    return (.done, c)
  | .clear => do
    c.clear
    return (.done, c)
  | .has path => do return (.flag (c.has (← get) path), c)
  | .count => do return (.number (← c.count), c)
  | .load path => do
    match (c.load (← get) path .empty).1 with
    | .ok found => return (.archive found, c)
    | .error e => throw e

/-- A call made where a handle is open on a disk: its answer, and the handle and the disk after it. -/
def on (call : Call) (state : Cache × Disk) : Except Error Answer × (Cache × Disk) :=
  match (call.perform state.1).run state.2 with
  | .ok (answer, c) d => (.ok answer, c, d)
  | .error e d => (.error e, state.1, d)

/-- The import paths that a call brings up. -/
def paths : Call → List String
  | .put a => a.importPath :: a.imports
  | .remove path | .has path | .load path => [path]
  | .openAs _ | .clear | .count => []

end Call

def afterCalls (state : Cache × Disk) (calls : List Call) : Cache × Disk :=
  calls.foldl (fun state call => (call.on state).2) state

end Cache

namespace Shelf

open Cache (Call Answer)

def answer (s : Shelf) : Call → Answer × Shelf
  | .openAs version => (.done, if s.version = some version then s else { version := some version })
  | .put a => (.done, { s with archives := s.archives.insert a.importPath a })
  | .remove path => (.done, { s with archives := s.archives.erase path })
  | .clear => (.done, { s with archives := ∅ })
  | .has path => (.flag (s.archives.contains path), s)
  | .count => (.number s.archives.size, s)
  | .load path => (.archive s.archives[path]?, s)

def after (s : Shelf) (calls : List Call) : Shelf := calls.foldl (fun s call => (s.answer call).2) s

/-- What is on the shelf was put there by one of the calls, under its own path. -/
structure FilledBy (s : Shelf) (calls : List Call) : Prop where
  opened : ∀ version, s.version = some version → .openAs version ∈ calls
  put : ∀ path a, s.archives[path]? = some a → a.importPath = path ∧ .put a ∈ calls

theorem filledBy_nil : Shelf.FilledBy {} [] := ⟨nofun, fun _ _ found => absurd found (by simp)⟩

variable {s : Shelf} {calls : List Call} {call : Call}

/-- What a call leaves on the shelf has come from this call or from one before it. -/
theorem FilledBy.answer (filled : s.FilledBy calls) (call : Call) : (s.answer call).2.FilledBy (calls ++ [call]) := by
  have opened {version : String} (same : s.version = some version) : .openAs version ∈ calls ++ [call] :=
    List.mem_append_left _ (filled.opened version same)
  have put {path : String} {a : Archive} (found : s.archives[path]? = some a) :
      a.importPath = path ∧ .put a ∈ calls ++ [call] :=
    (filled.put path a found).imp_right (List.mem_append_left _)
  cases call with
  | openAs version =>
    by_cases same : s.version = some version
    · rw [Shelf.answer, if_pos same]
      exact ⟨fun _ => opened, fun _ _ => put⟩
    · rw [Shelf.answer, if_neg same]
      refine ⟨?_, fun _ _ found => absurd found (by simp)⟩
      rintro _ ⟨⟩
      exact List.mem_append_right calls (List.mem_singleton_self _)
  | put a =>
    refine ⟨fun _ => opened, fun path b found => ?_⟩
    simp only [Shelf.answer, Std.TreeMap.getElem?_insert, Std.LawfulEqOrd.compare_eq_iff_eq] at found
    by_cases own : a.importPath = path
    · rw [if_pos own] at found
      cases found
      exact ⟨own, List.mem_append_right calls (List.mem_singleton_self _)⟩
    · rw [if_neg own] at found
      exact put found
  | remove path =>
    refine ⟨fun _ => opened, fun other b found => ?_⟩
    simp only [Shelf.answer, Std.TreeMap.getElem?_erase, Std.LawfulEqOrd.compare_eq_iff_eq] at found
    by_cases removed : path = other
    · rw [if_pos removed] at found
      cases found
    · rw [if_neg removed] at found
      exact put found
  | clear => exact ⟨fun _ => opened, fun _ _ found => absurd found (by simp [Shelf.answer])⟩
  | has path => exact ⟨fun _ => opened, fun _ _ => put⟩
  | count => exact ⟨fun _ => opened, fun _ _ => put⟩
  | load path => exact ⟨fun _ => opened, fun _ _ => put⟩

/-- All that is on a shelf in the end was put there by some call, under its own import path. -/
theorem filledBy_after (calls : List Call) : (after {} calls).FilledBy calls := by
  induction calls using List.reverseRecOn with
  | nil => exact filledBy_nil
  | append_singleton front call ih =>
    rw [after, List.foldl_append]
    exact ih.answer call

end Shelf
end Linkage
