import Linkage.Proofs.LinkOrder.Descent
import Mathlib.Data.List.Perm.Subperm
import Mathlib.Data.Set.Card

/-!
# What the loader is asked

A path that the loader was asked for is pending until it is finished, and neither a pending nor a finished path is asked
for. So the loader is asked for each path at most once, and never for that of the entry package, whatever it answers
and however the walk ends. A walk is given up only if it asks for more paths than the capacity counts, and one that is
not given up does not depend on the capacity.
-/
namespace Linkage.LinkOrder

variable {σ ε : Type} {loader : Loader σ ε} {source : σ} {runtime : String} {entry : Archive} {path : String}
  {w w' : Walk σ} {paths : List String}

/-! ### Invariants -/

/-- The walk as a run leaves it, however it ends. -/
def walkOf {α : Type} : EStateM.Result (Error ε) (Walk σ) α → Walk σ
  | .ok _ w => w
  | .error _ w => w

/-- A property of walks that holds once a path is pending and its archive is loaded, if the path is one that `may` be
visited, and that holds again when the path is finished. -/
structure Invariant (loader : Loader σ ε) (may : String → Prop) (holds : Walk σ → Prop) : Prop where
  imports : ∀ {path : String} {state : σ} {archive : Archive}, may path →
    (loader.load path state).1 = .ok archive → ∀ imported ∈ archive.imports, may imported
  entering : ∀ {path : String} {w : Walk σ}, holds w → may path → w.finished.contains path = false →
    path ∉ w.pending → ∀ state, holds (w.entering path state)
  settled : ∀ {path : String} {archive : Archive} {w inner after : Walk σ}, holds w → holds inner →
    inner.pending = path :: w.pending → Settled inner path w.pending archive after → holds after

namespace Invariant

variable {may : String → Prop} {holds : Walk σ → Prop}

/-- The step of the induction on the depth: a visit keeps what its nested visits keep. -/
theorem visit (invariant : Invariant loader may holds) {depth : Nat}
    (nested : ∀ {paths : List String} {w : Walk σ}, holds w → (∀ p ∈ paths, may p) →
      holds (walkOf ((paths.forM (visit loader depth)).run w)))
    (begins : holds w) (allowed : may path) : holds (walkOf ((LinkOrder.visit loader (depth + 1) path).run w)) := by
  rw [run_visit_succ]
  by_cases finished : w.finished.contains path = true
  · rw [if_pos finished]
    exact begins
  rw [if_neg finished]
  by_cases held : path ∈ w.pending
  · rw [if_pos held]
    exact begins
  rw [if_neg held]
  have entered := invariant.entering begins allowed (Bool.eq_false_iff.mpr finished) held
  rcases loaded : loader.load path w.source with ⟨answer, state⟩
  cases answer with
  | error cause => exact entered state
  | ok archive =>
    have inside := invariant.imports allowed (congrArg Prod.fst loaded)
    have inner := nested (entered state) inside
    dsimp only
    cases imported : (archive.imports.forM (LinkOrder.visit loader depth)).run (w.entering path state) with
    | error e stopped =>
      rw [imported] at inner
      exact inner
    | ok done between =>
      rw [imported] at inner
      obtain ⟨-, restored⟩ := visits_of_run imported
      obtain ⟨after, settles, settled⟩ := run_settle (ε := ε) restored archive
      dsimp only
      rw [settles]
      exact invariant.settled begins inner restored settled

/-- Whatever the loader answers, a walk keeps the invariant to its end. -/
theorem run (invariant : Invariant loader may holds) {depth : Nat} (begins : holds w) (allowed : ∀ p ∈ paths, may p) :
    holds (walkOf ((paths.forM (LinkOrder.visit loader depth)).run w)) := by
  -- The imports of an archive are visited at one depth less, and the paths after it at the same one.
  induction depth generalizing paths w with
  | zero =>
    cases paths with
    | nil => exact begins
    | cons path rest => exact begins
  | succ depth nested =>
    induction paths generalizing w with
    | nil => exact begins
    | cons path rest next =>
      rw [List.forall_mem_cons] at allowed
      have first := invariant.visit nested begins allowed.1
      change holds (walkOf ((LinkOrder.visit loader (depth + 1) path >>= fun _ =>
        rest.forM (LinkOrder.visit loader (depth + 1))).run w))
      rw [EStateM.run_bind]
      cases visited : (LinkOrder.visit loader (depth + 1) path).run w with
      | error e stopped =>
        rw [visited] at first
        exact first
      | ok done between =>
        rw [visited] at first
        exact next first allowed.2

end Invariant

/-! ### Requests -/

/-- Each path that the loader was asked for is pending or finished, and each pending path but that of the entry package
was asked for. -/
structure Walk.Accounts (entry : Archive) (w : Walk σ) : Prop where
  once : w.requests.Nodup
  held : entry.importPath ∈ w.pending
  unasked : entry.importPath ∉ w.requests
  asked : ∀ p ∈ w.pending, p = entry.importPath ∨ p ∈ w.requests
  known : ∀ p ∈ w.requests, p ∈ w.pending ∨ w.finished.contains p = true

namespace Walk.Accounts

/-- Entering a path that is neither finished nor pending adds one new request. -/
theorem entering (accounts : w.Accounts entry) (fresh : w.finished.contains path = false) (idle : path ∉ w.pending)
    (state : σ) : (w.entering path state).Accounts entry where
  once := by
    refine List.nodup_cons.mpr ⟨fun again => ?_, accounts.once⟩
    rcases accounts.known path again with held | done
    · exact idle held
    · exact Bool.false_ne_true (fresh.symm.trans done)
  held := List.mem_cons_of_mem path accounts.held
  unasked again := by
    rcases List.mem_cons.mp again with same | again
    · exact idle (same ▸ accounts.held)
    · exact accounts.unasked again
  asked p held := by
    rcases List.mem_cons.mp held with rfl | held
    · exact .inr List.mem_cons_self
    · exact (accounts.asked p held).imp_right (List.mem_cons_of_mem path)
  known p asked := by
    rcases List.mem_cons.mp asked with rfl | asked
    · exact .inl List.mem_cons_self
    · exact (accounts.known p asked).imp_left (List.mem_cons_of_mem path)

/-- The path that is finished is no longer pending, and the others stay as they are. -/
theorem settled {outer : List String} {archive : Archive} (accounts : w.Accounts entry)
    (innermost : w.pending = path :: outer) (held : entry.importPath ∈ outer)
    (settled : Settled w path outer archive w') : w'.Accounts entry where
  once := settled.requests ▸ accounts.once
  held := settled.pending ▸ held
  unasked := settled.requests ▸ accounts.unasked
  asked p held := by
    rw [settled.pending] at held
    rw [settled.requests]
    exact accounts.asked p (innermost ▸ List.mem_cons_of_mem path held)
  known p asked := by
    rw [settled.requests] at asked
    rw [settled.pending, settled.finished]
    rcases accounts.known p asked with held | done
    · rcases List.mem_cons.mp (innermost ▸ held) with rfl | held
      · exact .inr (.inl rfl)
      · exact .inl held
    · exact .inr (.inr (.inr done))

/-- Every request is that of a path which is finished or pending, and there are no others. -/
theorem invariant (loader : Loader σ ε) (entry : Archive) :
    Invariant loader (fun _ => True) (Walk.Accounts (σ := σ) entry) where
  imports _ _ _ _ := trivial
  entering accounts _ fresh idle state := accounts.entering fresh idle state
  settled before accounts innermost settled := accounts.settled innermost before.held settled

end Walk.Accounts

theorem Walk.ofEntry_accounts (source : σ) (entry : Archive) : (Walk.ofEntry source entry).Accounts entry where
  once := List.nodup_nil
  held := List.mem_singleton_self _
  unasked := List.not_mem_nil
  asked _ held := .inl (List.mem_singleton.mp held)
  known _ asked := absurd asked List.not_mem_nil

/-- The walk that visits all that the entry package needs, as it ends. -/
def visited (loader : Loader σ ε) (runtime : String) (entry : Archive) (source : σ) : Walk σ :=
  walkOf (((rootPaths runtime entry).forM (visit loader (loader.capacity + 1))).run (.ofEntry source entry))

/-- The account is right whether or not the walk succeeds. -/
theorem visited_accounts (loader : Loader σ ε) (runtime : String) (entry : Archive) (source : σ) :
    (visited loader runtime entry source).Accounts entry :=
  (Walk.Accounts.invariant loader entry).run (Walk.ofEntry_accounts source entry) fun _ _ => trivial

/-- Linking the entry package asks for nothing, and is not reached by a walk that fails. -/
theorem ofEntry_walk (loader : Loader σ ε) (runtime : String) (entry : Archive) (source : σ) :
    (ofEntry loader runtime entry source).2.requests = (visited loader runtime entry source).requests ∧
      ∀ e, (ofEntry loader runtime entry source).1 = .error e →
        (ofEntry loader runtime entry source).2 = visited loader runtime entry source := by
  have ran := run_visitEntry loader runtime entry source
  rw [EStateM.run_bind] at ran
  change visitEntry loader runtime entry { source } = _ at ran
  unfold ofEntry visited
  cases ends : ((rootPaths runtime entry).forM (visit loader (loader.capacity + 1))).run (.ofEntry source entry) with
  | error e w =>
    rw [ran, ends]
    exact ⟨rfl, fun _ _ => rfl⟩
  | ok done w =>
    obtain ⟨-, pending⟩ := visits_of_run ends
    have alone : w.pending = [entry.importPath] := pending
    rw [ran, ends]
    simp only [conclude, EStateM.run_bind, leave, EStateM.run_modify, alone, walkOf, reduceCtorEq, false_imp_iff,
      implies_true, and_self]

/-- The loader is asked for nothing but these paths, if what it serves for them imports nothing else. -/
theorem requests_subset {world : Set String} (roots : ∀ p ∈ rootPaths runtime entry, p ∈ world)
    (imports : ∀ p ∈ world, ∀ state archive, (loader.load p state).1 = .ok archive → ∀ q ∈ archive.imports, q ∈ world)
    (source : σ) : ∀ p ∈ (ofEntry loader runtime entry source).2.requests, p ∈ world := by
  have invariant : Invariant loader (· ∈ world) fun w : Walk σ => ∀ p ∈ w.requests, p ∈ world := {
    imports := fun inside served q imported => imports _ inside _ _ served q imported
    entering := fun before inside _ _ _ => List.forall_mem_cons.mpr ⟨inside, before⟩
    settled := fun _ inner _ settled => settled.requests ▸ inner }
  rw [(ofEntry_walk loader runtime entry source).1]
  exact invariant.run (fun p asked => absurd asked List.not_mem_nil) roots

/-! ### Giving up -/

/-- The one run ends as the other does, unless it is given up. -/
def Refines (result result' : EStateM.Result (Error ε) (Walk σ) Unit) : Prop :=
  (∃ path u, result = .error (.capacity path) u) ∨ result = result'

/-- Two runs that agree, or of which the first gives up, can be followed by two others of that kind. -/
theorem Refines.bind {first first' : Walking σ ε Unit} {next next' : Unit → Walking σ ε Unit}
    (begun : Refines (first.run w) (first'.run w)) (rest : ∀ w, Refines ((next ()).run w) ((next' ()).run w)) :
    Refines ((first >>= next).run w) ((first' >>= next').run w) := by
  rw [EStateM.run_bind, EStateM.run_bind]
  rcases begun with ⟨path, u, stopped⟩ | same
  · exact .inl ⟨path, u, by rw [stopped]⟩
  · rw [← same]
    cases first.run w with
    | ok done between => exact rest between
    | error e stopped => exact .inr rfl

theorem refines_forM {depth depth' : Nat}
    (each : ∀ path (w : Walk σ), Refines ((visit loader depth path).run w) ((visit loader depth' path).run w))
    (paths : List String) (w : Walk σ) :
    Refines ((paths.forM (visit loader depth)).run w) ((paths.forM (visit loader depth')).run w) := by
  induction paths generalizing w with
  | nil => exact .inr rfl
  | cons path rest ih => exact .bind (each path w) fun w => ih w

/-- A deeper bound changes nothing but an answer that the bound itself had given. -/
theorem refines_visit {depth depth' : Nat} (deeper : depth ≤ depth') (path : String) (w : Walk σ) :
    Refines ((visit loader depth path).run w) ((visit loader depth' path).run w) := by
  induction depth generalizing depth' path w with
  | zero => exact .inl ⟨path, w, rfl⟩
  | succ depth ih =>
    obtain ⟨depth', rfl⟩ := Nat.exists_eq_add_of_lt (Nat.lt_of_succ_le deeper)
    have nested := refines_forM fun path w => ih (Nat.le_add_right depth depth') path w
    rw [run_visit_succ, run_visit_succ]
    split
    · exact .inr rfl
    split
    · exact .inr rfl
    split
    · exact .inr rfl
    next archive state loaded =>
      rcases nested archive.imports (w.entering path state) with ⟨p, u, stopped⟩ | same
      · exact .inl ⟨p, u, by rw [stopped]⟩
      · exact .inr (by rw [same])

theorem visit_withCapacity (loader : Loader σ ε) (capacity : Nat) :
    visit { loader with capacity } = visit loader := by
  funext depth
  induction depth with
  | zero => rfl
  | succ depth ih =>
    funext path
    simp only [visit, ih]
    rfl

/-- A walk that is not given up would not be by a loader of larger capacity, and would go the same way. -/
theorem ofEntry_withCapacity (loader : Loader σ ε) {capacity : Nat} (larger : loader.capacity ≤ capacity)
    (ended : ∀ path, (ofEntry loader runtime entry source).1 ≠ .error (.capacity path)) :
    ofEntry { loader with capacity } runtime entry source = ofEntry loader runtime entry source := by
  have ran := run_visitEntry loader runtime entry source
  have ran' := run_visitEntry { loader with capacity } runtime entry source
  rw [visit_withCapacity] at ran'
  have refines : Refines ((visitEntry loader runtime entry).run { source })
      ((visitEntry { loader with capacity } runtime entry).run { source }) := by
    rw [ran, ran']
    exact .bind (refines_forM (refines_visit (Nat.succ_le_succ larger)) _ _) fun w => .inr rfl
  change Refines (visitEntry loader runtime entry { source })
    (visitEntry { loader with capacity } runtime entry { source }) at refines
  rcases refines with ⟨path, u, stopped⟩ | same
  · exact absurd (by rw [ofEntry, stopped]) (ended path)
  · rw [ofEntry, ofEntry, same]

/-- The paths that the loader can be asked for, however deep imports may nest. -/
def Requested (loader : Loader σ ε) (runtime : String) (entry : Archive) (source : σ) : Set String :=
  { path | ∃ capacity, path ∈ (ofEntry { loader with capacity } runtime entry source).2.requests }

/-- The pending paths of a walk that is given up have been asked for, but for that of the entry package. -/
theorem capacity_lt_length_requests (given_up : (ofEntry loader runtime entry source).1 = .error (.capacity path)) :
    loader.capacity < (ofEntry loader runtime entry source).2.requests.length := by
  have accounts := visited_accounts loader runtime entry source
  rw [← (ofEntry_walk loader runtime entry source).2 _ given_up] at accounts
  rcases outcome : ofEntry loader runtime entry source with ⟨result, final⟩
  rw [outcome] at given_up accounts
  obtain rfl : result = .error (.capacity path) := given_up
  obtain ⟨p, u, comes, fails⟩ := fails_of_ofEntry outcome
  have arrival := comes.arrival (Walk.ofEntry_arrival loader source runtime entry)
  cases fails with
  | exhausted deep =>
    have subset : final.pending ⊆ entry.importPath :: final.requests :=
      fun p held => List.mem_cons.mpr (accounts.asked p held)
    have counted := (List.subperm_of_subset arrival.distinct subset).length_le
    rw [List.length_cons] at counted
    dsimp only
    omega

/-- If only finitely many paths can ever be requested, there are no more requests than that. -/
theorem length_requests_le_ncard (finite : (Requested loader runtime entry source).Finite) (capacity : Nat) :
    (ofEntry { loader with capacity } runtime entry source).2.requests.length ≤
      (Requested loader runtime entry source).ncard := by
  have once := (visited_accounts { loader with capacity } runtime entry source).once
  rw [← (ofEntry_walk _ runtime entry source).1] at once
  rw [← List.toFinset_card_of_nodup once, ← Set.ncard_coe_finset]
  refine Set.ncard_le_ncard (fun p asked => ?_) finite
  exact ⟨capacity, List.mem_toFinset.mp asked⟩

/-- Whatever the loader is and however the walk ends, the loader was asked for no path twice and not for that of the
entry package. A path that is reported as refused is the last one that it was asked for, and a chain that is reported as
a cycle ends in a path that it was asked for or in that of the entry package. If it can be asked for finitely many paths
only, then the walk comes to an end: whatever capacity counts them all, it is not given up, and ends in the same way. -/
theorem ofEntry_asks_once (loader : Loader σ ε) (runtime : String) (entry : Archive) (source : σ) :
    (ofEntry loader runtime entry source).2.requests.Nodup ∧
    entry.importPath ∉ (ofEntry loader runtime entry source).2.requests ∧
    (∀ path cause, (ofEntry loader runtime entry source).1 = .error (.load path cause) →
      (ofEntry loader runtime entry source).2.requests.head? = some path) ∧
    (∀ chain, (ofEntry loader runtime entry source).1 = .error (.cycle chain) →
      ∃ path, chain.getLast? = some path ∧
        (path ∈ (ofEntry loader runtime entry source).2.requests ∨ path = entry.importPath)) ∧
    ((Requested loader runtime entry source).Finite →
      ∃ outcome, (∀ path, outcome.1 ≠ .error (.capacity path)) ∧
        ∀ capacity ≥ (Requested loader runtime entry source).ncard,
          ofEntry { loader with capacity } runtime entry source = outcome) := by
  have accounts := visited_accounts loader runtime entry source
  obtain ⟨requests, stopped⟩ := ofEntry_walk loader runtime entry source
  refine ⟨requests ▸ accounts.once, requests ▸ accounts.unasked, ?_, ?_, fun finite => ?_⟩
  · rcases outcome : ofEntry loader runtime entry source with ⟨result, final⟩
    rintro path cause rfl
    obtain ⟨p, u, -, fails⟩ := fails_of_ofEntry outcome
    cases fails with
    | refused idle answer => rfl
  · rcases outcome : ofEntry loader runtime entry source with ⟨result, final⟩
    rintro chain rfl
    obtain ⟨p, u, -, fails⟩ := fails_of_ofEntry outcome
    rw [← stopped (.cycle chain) (congrArg Prod.fst outcome), outcome] at accounts
    cases fails with
    | cycle held => exact ⟨p, List.getLast?_concat, (accounts.asked p held).symm⟩
  · let counting : Loader σ ε := { loader with capacity := (Requested loader runtime entry source).ncard }
    have ended : ∀ path, (ofEntry counting runtime entry source).1 ≠ .error (.capacity path) := by
      intro path given_up
      have more : counting.capacity < _ := capacity_lt_length_requests given_up
      exact absurd (length_requests_le_ncard finite counting.capacity) (Nat.not_le.mpr more)
    exact ⟨_, ended, fun capacity larger => ofEntry_withCapacity counting larger ended⟩

namespace Wavering

def package (path : String) (imports : List String) : Archive := { importPath := path, name := path, imports }

/-- What a path stands for depends on how often something was asked for before. -/
def answer : String → Nat → Except Unit Archive
  | "runtime", _ => .ok (package "runtime" [])
  | "lib", 0 | "lib", 1 => .ok (package "core" ["runtime"])
  | "lib", _ => .ok (package "lib" ["loop"])
  | "loop", _ => .ok (package "loop" ["lib"])
  | _, _ => .error ()

def store : Loader Nat Unit where
  load path asked := (answer path asked, asked + 1)
  capacity := 4

def world : Set String := {"runtime", "lib", "loop"}

theorem finite : (Requested store "runtime" (package "main" ["loop"]) 0).Finite := by
  have few : world.Finite := Set.toFinite {"runtime", "lib", "loop"}
  refine few.subset ?_
  rintro path ⟨capacity, asked⟩
  refine requests_subset (by simp [rootPaths, package, world]) (fun p inside asked archive served => ?_) 0 path asked
  change answer p asked = .ok archive at served
  unfold answer at served
  split at served <;> cases served <;> simp [package, world]

end Wavering

open Wavering in
/-- What `lib` stands for changes with the requests, but each path is asked for once: a cycle and a missing path. -/
theorem ofEntry_asks_once_wavering :
    (Requested store "runtime" (package "main" ["loop"]) 0).Finite ∧
    (ofEntry store "runtime" (package "main" ["loop"]) 0).1 = .error (.cycle ["main", "loop", "lib", "loop"]) ∧
    (∃ path, ["main", "loop", "lib", "loop"].getLast? = some path ∧
      (path ∈ (ofEntry store "runtime" (package "main" ["loop"]) 0).2.requests ∨ path = "main")) ∧
    (∃ outcome, (∀ path, outcome.1 ≠ .error (.capacity path)) ∧
      ∀ capacity ≥ (Requested store "runtime" (package "main" ["loop"]) 0).ncard,
        ofEntry { store with capacity } "runtime" (package "main" ["loop"]) 0 = outcome) ∧
    (ofEntry store "runtime" (package "main" ["lib", "gone"]) 0).1 = .error (.load "gone" ()) ∧
    (ofEntry store "runtime" (package "main" ["lib", "gone"]) 0).2.requests.head? = some "gone" := by
  obtain ⟨-, -, -, cycle, terminates⟩ := ofEntry_asks_once store "runtime" (package "main" ["loop"]) 0
  obtain ⟨-, -, refused, -⟩ := ofEntry_asks_once store "runtime" (package "main" ["lib", "gone"]) 0
  have looped : (ofEntry store "runtime" (package "main" ["loop"]) 0).1 =
      .error (.cycle ["main", "loop", "lib", "loop"]) := by decide +kernel
  have missed : (ofEntry store "runtime" (package "main" ["lib", "gone"]) 0).1 = .error (.load "gone" ()) := by
    decide +kernel
  exact ⟨finite, looped, cycle _ looped, terminates finite, missed, refused _ _ missed⟩

end Linkage.LinkOrder
