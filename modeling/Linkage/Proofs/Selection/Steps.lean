import Linkage.Proofs.Selection.Liveness
import Mathlib.Order.Nat

/-!
# The steps of elimination

Whenever the next declaration is about to be selected, all that is ready is new and in the program, and every
declaration is ready, selected, or a candidate that still waits. So each step selects one declaration more, and a run
takes as many steps as it selects declarations. A step that would not pass over a number without a candidate, or over
a place that is selected already, finds none of these.
-/
namespace Linkage

namespace Worklist

variable {sites : List (Place × Site)} {met : List String} {pkgs : List Archive} {w : Worklist} {n : Nat}

/-- What holds whenever the next declaration is about to be selected. -/
structure Orderly (pkgs : List Archive) (w : Worklist) : Prop where
  ready_nodup : w.ready.Nodup
  ready_unselected : ∀ place ∈ w.ready, w.selected.contains place = false
  ready_declared : ∀ place ∈ w.ready, (declaration? pkgs place).isSome = true
  waiting_declared : ∀ c ∈ w.candidates, (declaration? pkgs c.place).isSome = true
  numbers : ∀ key, ∀ number ∈ w.index.getD key [], number < w.candidates.size
  total : w.ready.length + w.selected.size + w.candidates.toList.countP (!·.isReady) = declarationCount pkgs
  met : ∀ key, key ∉ w.index → ∀ c ∈ w.candidates, key ∉ c.unmet

/-! ### Steps that pass over nothing -/

/-- Serve one candidate, and fail if there is none of this number. -/
def meetOne? (key : String) (w : Worklist) (number : Nat) : Option Worklist :=
  if number < w.candidates.size then some (meetOne key w number) else none

def meet? (w : Worklist) (key : String) : Option Worklist :=
  match w.index[key]? with
  | none => some w
  | some numbers => numbers.foldlM (meetOne? key) { w with index := w.index.erase key }

/-- A step that fails at a place that is selected already, or that has no declaration. -/
def step? (pkgs : List Archive) (w : Worklist) : Option Worklist :=
  match w.ready with
  | [] => some w
  | place :: ready =>
    if w.selected.contains place then none
    else do
      let d ← declaration? pkgs place
      d.deps.foldlM meet? { w with ready, selected := w.selected.insert place }

@[simp] theorem size_meetOne (key : String) (w : Worklist) (number : Nat) :
    (meetOne key w number).candidates.size = w.candidates.size := by
  unfold meetOne
  split
  · rfl
  · split
    · rfl
    · exact Array.size_setIfInBounds

/-- Serving numbers that are in range fails nowhere. -/
theorem foldlM_meetOne? {key : String} {numbers : List Nat} (inside : ∀ number ∈ numbers, number < w.candidates.size) :
    numbers.foldlM (meetOne? key) w = some (numbers.foldl (meetOne key) w) := by
  induction numbers generalizing w with
  | nil => rfl
  | cons number rest ih =>
    obtain ⟨first, others⟩ := List.forall_mem_cons.mp inside
    rw [List.foldlM_cons, meetOne?, if_pos first]
    exact ih (by simpa using others)

/-- The index leads to candidates that exist. -/
theorem Indexed.lt_size (indexed : Indexed w) (key : String) {number : Nat} (member : number ∈ w.index.getD key []) :
    number < w.candidates.size := by
  obtain ⟨c, found, -⟩ := (indexed key number).mp member
  exact (Array.getElem?_eq_some_iff.mp found).1

theorem Indexed.meet?_eq (indexed : Indexed w) (key : String) : w.meet? key = some (w.meet key) := by
  unfold meet? meet
  cases found : w.index[key]? with
  | none => rfl
  | some numbers =>
    refine foldlM_meetOne? fun number member => indexed.lt_size key ?_
    rwa [Std.TreeMap.getD_eq_getD_getElem?, found]

/-- No dep of a selected declaration makes the loop fail. -/
theorem Indexed.foldlM_meet? (indexed : Indexed w) (listed : List String) :
    listed.foldlM meet? w = some (listed.foldl meet w) := by
  induction listed generalizing w with
  | nil => rfl
  | cons key rest ih =>
    rw [List.foldlM_cons, indexed.meet?_eq]
    exact ih (meet_indexed indexed key)

/-- A step of a current worklist never reaches out of bounds. -/
theorem Current.step?_eq (current : Current pkgs w) : w.step? pkgs = some (w.step pkgs) := by
  cases next : w.ready with
  | nil => simp [Worklist.step?, Worklist.step, next]
  | cons place rest =>
    have member : place ∈ w.ready := next ▸ List.mem_cons_self
    have fresh := current.unselected member
    have declared := current.declared (.inl member)
    rw [← isSome_declaration?] at declared
    obtain ⟨d, found⟩ := Option.isSome_iff_exists.mp declared
    rw [current.step_eq next]
    obtain ⟨met, tracks, -⟩ := current
    have popped : Indexed { w with ready := rest, selected := w.selected.insert place } := tracks.indexed
    simpa [Worklist.step?, next, fresh, found, depsAt] using popped.foldlM_meet? d.deps

/-! ### Counting -/

/-- Each declaration either is a root or waits. -/
theorem length_rootPlaces_add_waiting (met : List String) (sites : List (Place × Site)) :
    (rootPlaces sites).length + (waiting met sites).length = sites.length := by
  rw [rootPlaces, waiting, List.length_map, List.length_map, ← List.countP_eq_length_filter,
    ← List.countP_eq_length_filter, List.length_eq_countP_add_countP (fun x : Place × Site => x.2.declaration.isRoot)]
  simp

theorem map_place_waiting (met : List String) (sites : List (Place × Site)) :
    (waiting met sites).map (·.place) = (sites.filter fun (_, s) => !s.declaration.isRoot).map (·.1) := by
  rw [waiting, List.map_map]
  rfl

/-- What is ready or selected are the roots and the candidates that wait for nothing, each of them once. -/
theorem Tracks.reached_perm (tracks : Tracks sites met w) (distinct : (sites.map (·.1)).Nodup) :
    (w.ready ++ w.selected.places.toList).Perm
      (rootPlaces sites ++ (w.candidates.toList.filter Candidate.isReady).map (·.place)) := by
  have candidates : ((w.candidates.toList.filter Candidate.isReady).map (·.place)).Nodup := by
    refine List.Nodup.sublist (List.filter_sublist.map _) ?_
    rw [tracks.candidates, map_place_waiting]
    exact distinct.sublist (List.filter_sublist.map _)
  refine (List.perm_ext_iff_of_nodup ?_ ?_).mpr fun place => ?_
  · refine List.nodup_append.mpr ⟨tracks.balanced.ready_nodup, w.selected.nodup_toList, ?_⟩
    rintro place ready _ selected rfl
    rw [Selection.mem_toList, tracks.balanced.unselected place ready] at selected
    cases selected
  · refine List.nodup_append.mpr ⟨distinct.sublist (List.filter_sublist.map _), candidates, ?_⟩
    rintro place root _ done rfl
    obtain ⟨c, member, rfl⟩ := List.mem_map.mp done
    obtain ⟨i, found⟩ := Array.getElem?_of_mem (Array.mem_toList_iff.mp (List.mem_filter.mp member).1)
    exact tracks.balanced.nonroot found root
  · -- A place is reached if it is a root or its candidate waits for nothing.
    rw [List.mem_append, List.mem_append, Selection.mem_toList, tracks.balanced.reached_iff]
    refine or_congr_right ?_
    simp only [List.mem_map, List.mem_filter, Array.mem_toList_iff, Candidate.isReady_iff]
    constructor
    · rintro ⟨i, c, found, same, done⟩
      exact ⟨c, ⟨Array.mem_of_getElem? found, done⟩, same⟩
    · rintro ⟨c, ⟨member, done⟩, same⟩
      obtain ⟨i, found⟩ := Array.getElem?_of_mem member
      exact ⟨i, c, found, same, done⟩

/-- Every declaration is in exactly one place: ready, selected or waiting. -/
theorem Tracks.total (tracks : Tracks sites met w) (distinct : (sites.map (·.1)).Nodup) :
    w.ready.length + w.selected.size + w.candidates.toList.countP (!·.isReady) = sites.length := by
  have reached := (tracks.reached_perm distinct).length_eq
  rw [List.length_append, List.length_append, Selection.length_toList, List.length_map,
    ← List.countP_eq_length_filter] at reached
  have waits := w.candidates.toList.length_eq_countP_add_countP Candidate.isReady
  have all := length_rootPlaces_add_waiting met sites
  rw [← tracks.candidates] at all
  simp only [Bool.not_eq_true, Bool.decide_eq_false] at waits
  omega

/-- The invariant of the loop, read off from what a current worklist tracks. -/
theorem Current.orderly (current : Current pkgs w) : Orderly pkgs w where
  ready_nodup := by
    obtain ⟨met, tracks, -⟩ := current
    exact tracks.balanced.ready_nodup
  ready_unselected place member := current.unselected member
  ready_declared place member := by
    rw [isSome_declaration?]
    exact current.declared (.inl member)
  waiting_declared c member := by
    obtain ⟨met, tracks, -⟩ := current
    obtain ⟨i, found⟩ := Array.getElem?_of_mem member
    rw [isSome_declaration?, ← mem_places, places_eq_map_sites]
    exact tracks.place_mem found
  numbers key number member := by
    obtain ⟨met, tracks, -⟩ := current
    exact tracks.indexed.lt_size key member
  total := by
    obtain ⟨met, tracks, -⟩ := current
    rw [← length_places, places_eq_map_sites, List.length_map]
    exact tracks.total (places_eq_map_sites pkgs ▸ places_nodup pkgs)
  met key absent c member waits := by
    obtain ⟨met, tracks, -⟩ := current
    obtain ⟨i, found⟩ := Array.getElem?_of_mem member
    have leads := (tracks.indexed key i).mpr ⟨c, found, waits⟩
    rw [Std.TreeMap.getD_eq_fallback absent] at leads
    cases leads

/-! ### Runs -/

theorem step_eq_self (drained : w.ready = []) : w.step pkgs = w := by
  simp [step, drained]

/-- A run takes its steps from the front; this is its last one. -/
theorem run_succ (pkgs : List Archive) (n : Nat) (w : Worklist) : run pkgs (n + 1) w = (run pkgs n w).step pkgs := by
  induction n generalizing w with
  | zero =>
    unfold run
    split
    next drained => exact (step_eq_self (List.isEmpty_iff.mp drained)).symm
    next => rfl
  | succ n ih =>
    conv => lhs; unfold run
    conv => rhs; unfold run
    split
    next drained => exact (step_eq_self (List.isEmpty_iff.mp drained)).symm
    next => exact ih _

/-- A worklist with nothing ready stays as it is. -/
theorem run_eq_of_drained {m : Nat} (drained : (run pkgs n w).ready = []) (later : n ≤ m) :
    run pkgs m w = run pkgs n w := by
  induction m, later using Nat.le_induction with
  | base => rfl
  | succ m _ ih => rw [run_succ, ih, step_eq_self drained]

/-- Each iteration before the end selects exactly one declaration. -/
theorem Current.size_run (current : Current pkgs w) (more : ∀ m < n, (Worklist.run pkgs m w).ready ≠ []) :
    (Worklist.run pkgs n w).selected.size = w.selected.size + n := by
  induction n with
  | zero => rfl
  | succ n ih =>
    obtain ⟨place, rest, next⟩ := List.exists_cons_of_ne_nil (more n (Nat.lt_succ_self n))
    have before := current.run n
    have fresh := before.unselected (next ▸ List.mem_cons_self)
    rw [run_succ, before.step_selected next, Selection.size_insert, fresh,
      ih fun m earlier => more m (Nat.lt_succ_of_lt earlier)]
    rfl

theorem size_start (pkgs : List Archive) : (start pkgs).selected.size = 0 := by
  rw [start_selected]
  rfl

/-- Elimination ends after as many steps as there are selected declarations. -/
theorem exists_steps (pkgs : List Archive) : ∃ steps, (∀ n, (run pkgs n (start pkgs)).ready = [] ↔ steps ≤ n) ∧
    (∀ n ≤ steps, (run pkgs n (start pkgs)).selected.size = n) ∧
    (run pkgs steps (start pkgs)).selected = Selection.live pkgs := by
  have current := start_current pkgs
  have drained : ∃ n, (run pkgs n (start pkgs)).ready = [] :=
    ⟨declarationCount pkgs, current.run_ready (Nat.le_add_left _ _)⟩
  classical
  refine ⟨Nat.find drained, fun n => ⟨Nat.find_min' drained, fun later => ?_⟩, fun n early => ?_, ?_⟩
  · rw [run_eq_of_drained (Nat.find_spec drained) later]
    exact Nat.find_spec drained
  · rw [current.size_run fun m earlier => Nat.find_min drained (Nat.lt_of_lt_of_le earlier early), size_start,
      Nat.zero_add]
  · have enough := Nat.find_min' drained (current.run_ready (Nat.le_add_left (declarationCount pkgs) _))
    rw [Selection.live, run_eq_of_drained (Nat.find_spec drained) enough]

end Worklist

open Worklist in
/-- Before each step the worklist is in order, and the step passes over nothing. The steps are as many as the selected
declarations, and each selects one of them. -/
theorem elimination_steps (pkgs : List Archive) :
    (∀ n, Orderly pkgs (run pkgs n (start pkgs)) ∧
      step? pkgs (run pkgs n (start pkgs)) = some (run pkgs (n + 1) (start pkgs))) ∧
    (∀ n, (run pkgs n (start pkgs)).ready = [] ↔ (Selection.live pkgs).size ≤ n) ∧
    (∀ n ≤ (Selection.live pkgs).size, (run pkgs n (start pkgs)).selected.size = n) ∧
    (run pkgs (Selection.live pkgs).size (start pkgs)).selected = Selection.live pkgs := by
  obtain ⟨steps, drained, sizes, selected⟩ := exists_steps pkgs
  have size : (Selection.live pkgs).size = steps := by rw [← selected, sizes steps le_rfl]
  rw [size]
  refine ⟨fun n => ?_, drained, sizes, selected⟩
  have current := (start_current pkgs).run n
  exact ⟨current.orderly, by rw [run_succ, current.step?_eq]⟩

namespace Doubled

/-- The filter keys of the second declaration are the same, so that the index leads to it twice. -/
def program : List Archive := [{
  importPath := "p"
  name := "p"
  declarations := [{ deps := ["p.F", "p.F"] }, { objectFilter := some "F", methodFilter := some "F" },
    { objectFilter := some "G" }] }]

end Doubled

open Worklist Doubled in
/-- A key that a declaration has twice leads to it twice, and it is selected once. -/
theorem elimination_steps_doubled :
    (start program).index.getD "p.F" [] = [0, 0] ∧ (Selection.live program).size = 2 ∧
    Orderly program (run program 1 (start program)) ∧
    (1 ≤ (Selection.live program).size ∧ (run program 1 (start program)).selected.size = 1) ∧
    (2 ≤ (Selection.live program).size ∧ (run program 2 (start program)).ready = []) := by
  obtain ⟨steps, drained, sizes, -⟩ := elimination_steps program
  have size : (Selection.live program).size = 2 := by decide +kernel
  have some : 1 ≤ (Selection.live program).size := by omega
  have all : 2 ≤ (Selection.live program).size := by omega
  exact ⟨by decide +kernel, size, (steps 1).1, ⟨some, sizes 1 some⟩, all, (drained 2).mpr size.le⟩

end Linkage
