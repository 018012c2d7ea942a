import Linkage.Proofs.Selection.Reordering
import Linkage.Proofs.Selection.Worklist
import Mathlib.Order.Bounds.Basic

/-!
# The live declarations are the least closed set

A set of declarations is closed if it has each declaration all of whose filter keys are listed by its members. The
worklist selects the least closed set, however the program is ordered.
-/
namespace Linkage

/-- Every declaration all of whose keys are listed by members is a member. -/
def Closed (pkgs : List Archive) (members : Set Place) : Prop :=
  ∀ place s, site? pkgs place = some s →
    (∀ key ∈ s.keys, ∃ user ∈ members, Lists pkgs user key) → place ∈ members

/-- The declarations reached from the roots: each key is listed by a declaration reached before. -/
inductive Reached (pkgs : List Archive) : Place → Prop
  | intro {place : Place} {s : Site} (user : String → Place) (found : site? pkgs place = some s)
      (reached : ∀ key ∈ s.keys, Reached pkgs (user key))
      (lists : ∀ key ∈ s.keys, Lists pkgs (user key) key) : Reached pkgs place

def liveSet (pkgs : List Archive) : Set Place := {place | (Selection.live pkgs).contains place = true}

/-- What is reached is closed: each key has a user, and each user was reached before. -/
theorem reached_closed (pkgs : List Archive) : Closed pkgs {place | Reached pkgs place} := by
  intro place s found used
  -- Each key has some user of its own that was reached before.
  have : Nonempty Place := ⟨place⟩
  choose! user reached lists using used
  exact .intro user found reached lists

/-- A closed set that holds what is selected holds what is ready as well. -/
theorem Worklist.Current.reached_subset {pkgs : List Archive} {members : Set Place} (closed : Closed pkgs members)
    {w : Worklist} (current : w.Current pkgs) (inside : ∀ place, w.selected.contains place = true → place ∈ members)
    (place : Place) (reached : place ∈ w.ready ∨ w.selected.contains place = true) : place ∈ members := by
  obtain ⟨s, found, used⟩ := (current.reached_iff place).mp reached
  refine closed place s found fun key needed => ?_
  obtain ⟨user, selected, lists⟩ := used key needed
  exact ⟨user, inside user selected, lists⟩

/-- So a run never leaves a closed set. -/
theorem Worklist.Current.run_subset {pkgs : List Archive} {members : Set Place} (closed : Closed pkgs members)
    {w : Worklist} (current : w.Current pkgs) (inside : ∀ place, w.selected.contains place = true → place ∈ members)
    (budget : Nat) : ∀ place, (Worklist.run pkgs budget w).selected.contains place = true → place ∈ members := by
  -- What a step selects was ready, so a closed set that holds all selected places holds it too.
  induction budget generalizing w with
  | zero => exact inside
  | succ budget ih =>
    cases next : w.ready with
    | nil => simpa [Worklist.run, next] using inside
    | cons first rest =>
      have more : ∀ place, (w.step pkgs).selected.contains place = true → place ∈ members := by
        intro place member
        rw [current.step_selected next, Selection.contains_insert] at member
        rcases member with rfl | old
        · exact current.reached_subset closed inside place (.inl (next ▸ List.mem_cons_self))
        · exact inside place old
      simpa [Worklist.run, next] using ih current.step more

theorem liveSet_subset {pkgs : List Archive} {members : Set Place} (closed : Closed pkgs members) :
    liveSet pkgs ⊆ members :=
  (Worklist.start_current pkgs).run_subset closed (by simp [Worklist.start_selected]) (declarationCount pkgs)

/-- Nothing is ready in the end, so being selected means that all keys are listed by selected declarations. -/
theorem mem_liveSet_iff {pkgs : List Archive} {place : Place} :
    place ∈ liveSet pkgs ↔
      ∃ s, site? pkgs place = some s ∧ ∀ key ∈ s.keys, ∃ user ∈ liveSet pkgs, Lists pkgs user key := by
  have final := (Worklist.start_current pkgs).run (declarationCount pkgs)
  -- Nothing is ready in the end, so what is reached is what is selected.
  have drained := (Worklist.start_current pkgs).run_ready (Nat.le_add_left (declarationCount pkgs) _)
  have meaning := final.reached_iff place
  rw [drained] at meaning
  simpa [liveSet, Selection.live] using meaning

theorem liveSet_closed (pkgs : List Archive) : Closed pkgs (liveSet pkgs) :=
  fun _ s found used => mem_liveSet_iff.mpr ⟨s, found, used⟩

/-- The least closed set is the one that is reached step by step from the roots. -/
theorem mem_liveSet_iff_reached {pkgs : List Archive} {place : Place} : place ∈ liveSet pkgs ↔ Reached pkgs place := by
  constructor
  · exact fun live => liveSet_subset (reached_closed pkgs) live
  · intro reached
    induction reached with
    | intro user found _ lists live =>
      exact liveSet_closed pkgs _ _ found fun key needed => ⟨user key, live key needed, lists key needed⟩

/-- Seen through a renumbering, the live declarations of the other program are closed in this one. -/
theorem Renumbers.closed_preimage {σ : Equiv.Perm Place} {pkgs pkgs' : List Archive}
    (renumbers : Renumbers σ pkgs pkgs') : Closed pkgs {place | σ place ∈ liveSet pkgs'} := by
  intro place s found used
  obtain ⟨t, found', related⟩ := renumbers.site? found
  refine liveSet_closed pkgs' _ t found' fun key needed => ?_
  obtain ⟨user, live, lists⟩ := used key (related.keys_eq ▸ needed)
  exact ⟨σ user, live, renumbers.lists lists⟩

/-- Liveness does not depend on the order of the program. -/
theorem Renumbers.mem_liveSet_iff {σ : Equiv.Perm Place} {pkgs pkgs' : List Archive}
    (renumbers : Renumbers σ pkgs pkgs') (place : Place) : σ place ∈ liveSet pkgs' ↔ place ∈ liveSet pkgs := by
  constructor
  -- The renumbered live set is closed in either direction, so each of the two least sets lies in the other.
  · intro live
    have back := liveSet_subset renumbers.symm.closed_preimage live
    simpa using back
  · exact fun live => liveSet_subset renumbers.closed_preimage live

/-- Elimination selects the least closed set of declarations. Its members are those reached from the roots, and it is
the same, up to the numbers of places, for a reordered program. -/
theorem live_isLeast_closed (pkgs : List Archive) :
    IsLeast {members | (∀ place ∈ members, (declaration? pkgs place).isSome = true) ∧ Closed pkgs members}
      {place | (Selection.live pkgs).contains place = true} ∧
    (∀ place d, declaration? pkgs place = some d → d.objectFilter = none → d.methodFilter = none →
      (Selection.live pkgs).contains place = true) ∧
    (∀ place, (Selection.live pkgs).contains place = true ↔ Reached pkgs place) ∧
    (∀ place s, site? pkgs place = some s → (Selection.live pkgs).contains place = false →
      ∃ key ∈ s.keys, ∀ user, (Selection.live pkgs).contains user = true → ¬ Lists pkgs user key) ∧
    (∀ pkgs', Reordered pkgs pkgs' → ∃ σ, Renumbers σ pkgs pkgs' ∧
      ∀ place, (Selection.live pkgs').contains (σ place) = (Selection.live pkgs).contains place) := by
  refine ⟨⟨⟨fun place live => ?_, liveSet_closed pkgs⟩, fun members closed => liveSet_subset closed.2⟩,
    fun place d found noObject noMethod => ?_, fun place => mem_liveSet_iff_reached, fun place s found dead => ?_,
    fun pkgs' reordered => ?_⟩
  · obtain ⟨s, found, _⟩ := mem_liveSet_iff.mp live
    simp [isSome_declaration?, found]
  · rw [declaration?_eq_map, Option.map_eq_some_iff] at found
    obtain ⟨s, found, rfl⟩ := found
    refine liveSet_closed pkgs place s found fun key needed => ?_
    simp [Site.keys, noObject, noMethod] at needed
  -- A declaration all of whose keys are listed by live ones would be live itself.
  · by_contra! used
    have live : (Selection.live pkgs).contains place = true := liveSet_closed pkgs place s found used
    rw [dead] at live
    cases live
  · obtain ⟨σ, renumbers⟩ := reordered.exists_renumbers
    exact ⟨σ, renumbers, fun place => Bool.eq_iff_iff.mpr (renumbers.mem_liveSet_iff place)⟩

namespace Swapped

def used : Declaration := { objectFilter := some "T", deps := ["lib.G", "lib.G", "lib.T"] }

/-- A method of the used type, kept by two keys. -/
def method : Declaration := { objectFilter := some "T", methodFilter := some "m~" }

/-- Another method, whose name nothing lists behind the import path. -/
def unused : Declaration := { objectFilter := some "T", methodFilter := some "n~" }

def root (deps : List String) : Declaration := { deps }

def lib (declarations : List Declaration) : Archive := { importPath := "lib", name := "lib", declarations }

def main (deps : List String) : Archive := { importPath := "main", name := "main", declarations := [root deps] }

def pkgs : List Archive := [lib [used, unused, method], main ["lib.T", "lib.m~", "n~"]]

def pkgs' : List Archive := [main ["n~", "lib.T", "lib.m~"], lib [method, used, unused]]

end Swapped

open Swapped in
/-- A method is kept by its two keys, one of them listed by the type that it belongs to; another one whose name is
listed without the import path is not. -/
theorem live_isLeast_closed_swapped :
    Reordered pkgs pkgs' ∧
    (∃ σ, Renumbers σ pkgs pkgs' ∧
      ∀ place, (Selection.live pkgs').contains (σ place) = (Selection.live pkgs).contains place) ∧
    (Selection.live pkgs).places.toList = [⟨0, 0⟩, ⟨0, 2⟩, ⟨1, 0⟩] ∧
    (Selection.live pkgs').places.toList = [⟨0, 0⟩, ⟨1, 0⟩, ⟨1, 1⟩] ∧
    Lists pkgs ⟨0, 0⟩ "lib.T" ∧ Lists pkgs ⟨1, 0⟩ "lib.m~" := by
  have same (d : Declaration) : d.Reordered d := ⟨d.deps, .refl _, rfl⟩
  have rotated : [used, unused, method].Perm [method, used, unused] := by decide
  have libs : (lib [used, unused, method]).Reordered (lib [method, used, unused]) :=
    ⟨[method, used, unused], ⟨[method, used, unused], rotated,
      .cons (same method) (.cons (same used) (.cons (same unused) .nil))⟩, rfl⟩
  have mains : (main ["lib.T", "lib.m~", "n~"]).Reordered (main ["n~", "lib.T", "lib.m~"]) :=
    ⟨_, ⟨_, .refl _, .cons ⟨["n~", "lib.T", "lib.m~"], by decide, rfl⟩ .nil⟩, rfl⟩
  have reordered : Reordered pkgs pkgs' := ⟨_, .swap .., .cons mains (.cons libs .nil)⟩
  exact ⟨reordered, (live_isLeast_closed _).2.2.2.2 _ reordered, by decide +kernel, by decide +kernel,
    ⟨_, rfl, by decide⟩, ⟨_, rfl, by decide⟩⟩

end Linkage
