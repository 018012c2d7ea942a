import Linkage.Proofs.LinkOrder.Visits

/-!
# Loaders whose state does not show

A loader that always gives the same answer for each path that can come up orders packages like one without a state that
gives these answers. Both are asked for the same paths, and they stop with the same error.
-/
namespace Linkage

/-- The loader without a state that gives the answers of a function. -/
def Loader.ofFunction {ε : Type} (serve : String → Except ε Archive) (capacity : Nat) : Loader Unit ε where
  load path _ := (serve path, ())
  capacity := capacity

namespace LinkOrder

variable {σ ε : Type} {loader : Loader σ ε} {serve : String → Except ε Archive} {used : List String}

/-- The loader answers each of the paths as the function does, and they import nothing but each other. -/
structure ServesAmong (loader : Loader σ ε) (serve : String → Except ε Archive) (used : List String) : Prop where
  answer : ∀ path ∈ used, ∀ state, (loader.load path state).1 = serve path
  imports : ∀ path ∈ used, ∀ archive, serve path = .ok archive → ∀ imported ∈ archive.imports, imported ∈ used

/-- The walk with no state of a loader. -/
def Walk.bare (w : Walk σ) : Walk Unit := { w with source := () }

/-- A run with no state of a loader. -/
def bare {α : Type} : EStateM.Result (Error ε) (Walk σ) α → EStateM.Result (Error ε) (Walk Unit) α
  | .ok a w => .ok a w.bare
  | .error e w => .error e w.bare

/-- Forgetting the state of the loader commutes with sequencing. -/
theorem bare_bind {α β : Type} {first : Walking σ ε α} {next : α → Walking σ ε β} {first' : Walking Unit ε α}
    {next' : α → Walking Unit ε β} {w : Walk σ} (begun : bare (first.run w) = first'.run w.bare)
    (rest : ∀ a w, bare ((next a).run w) = (next' a).run w.bare) :
    bare ((first >>= next).run w) = (first' >>= next').run w.bare := by
  rw [EStateM.run_bind, EStateM.run_bind, ← begun]
  cases first.run w with
  | ok a w => exact rest a w
  | error e w => rfl

theorem bare_leave (w : Walk σ) : bare ((leave : Walking σ ε Unit).run w) = (leave : Walking Unit ε Unit).run w.bare := by
  obtain ⟨source, pending, finished, linked, requests⟩ := w
  cases pending <;> rfl

theorem bare_link (path : String) (archive : Archive) (w : Walk σ) :
    bare ((link path archive : Walking σ ε Unit).run w) = (link path archive : Walking Unit ε Unit).run w.bare := by
  simp only [link, EStateM.run_modify, bare, Walk.bare]
  split
  · rfl
  · split <;> rfl

/-- A loop whose steps do not depend on the state does not either. -/
theorem bare_forM {step : String → Walking σ ε Unit} {step' : String → Walking Unit ε Unit} {paths : List String}
    (each : ∀ path ∈ paths, ∀ w, bare ((step path).run w) = (step' path).run w.bare) (w : Walk σ) :
    bare ((paths.forM step).run w) = (paths.forM step').run w.bare := by
  induction paths generalizing w with
  | nil => rfl
  | cons path rest ih =>
    rw [List.forall_mem_cons] at each
    exact bare_bind (each.1 w) fun _ w => ih each.2 w

namespace ServesAmong

/-- By induction on the depth, a visit asks only for paths of the store and gets the answers of the function. -/
theorem bare_visit (serves : ServesAmong loader serve used) (capacity depth : Nat) {path : String}
    (member : path ∈ used) (w : Walk σ) :
    bare ((visit loader depth path).run w) = (visit (.ofFunction serve capacity) depth path).run w.bare := by
  induction depth generalizing path w with
  | zero => rfl
  | succ depth ih =>
    rw [run_visit_succ, run_visit_succ]
    change bare (if w.finished.contains path then _ else if path ∈ w.pending then _ else _) =
      if w.finished.contains path then _ else if path ∈ w.pending then _ else _
    split
    · rfl
    · split
      · rfl
      · have answer := serves.answer path member w.source
        have answer' : (Loader.ofFunction serve capacity).load path w.bare.source = (serve path, ()) := rfl
        rcases loaded : loader.load path w.source with ⟨answered, source⟩
        rw [loaded] at answer
        obtain rfl : answered = serve path := answer
        rw [answer']
        cases served : serve path with
        | error cause => rfl
        | ok archive =>
          have deeper : bare ((archive.imports.forM (visit loader depth)).run (w.entering path source)) =
              (archive.imports.forM (visit (.ofFunction serve capacity) depth)).run (w.bare.entering path ()) :=
            bare_forM (fun imported inside w => ih (serves.imports path member archive served imported inside) w) _
          dsimp only
          rw [← deeper]
          cases (archive.imports.forM (visit loader depth)).run (w.entering path source) with
          | ok _ inner => exact bare_bind (bare_leave inner) fun _ w => bare_link path archive w
          | error e inner => rfl

/-- The order of the packages, or why there is none, is that of the loader without a state. -/
theorem ofEntry_eq (serves : ServesAmong loader serve used) {runtime : String} {entry : Archive}
    (roots : ∀ path ∈ rootPaths runtime entry, path ∈ used) (source : σ) :
    (ofEntry loader runtime entry source).1 = (ofEntry (.ofFunction serve loader.capacity) runtime entry ()).1 := by
  let stateless := Loader.ofFunction serve loader.capacity
  have same : bare ((visitEntry loader runtime entry).run { source }) =
      (visitEntry stateless runtime entry).run { source := () } := by
    rw [run_visitEntry, run_visitEntry]
    exact bare_bind (bare_forM (fun path root w => serves.bare_visit loader.capacity _ (roots path root) w) _)
      fun _ w => bare_bind (bare_leave w) fun _ _ => rfl
  change bare (visitEntry loader runtime entry { source }) = visitEntry stateless runtime entry { source := () } at same
  rw [ofEntry, ofEntry, ← same]
  cases visitEntry loader runtime entry { source } <;> rfl

end ServesAmong

end LinkOrder
end Linkage
