import Linkage.LinkOrder

/-!
# Successful visits

The runs of the depth-first walk that succeed, as a relation between the walk before and after a list of paths is
visited. It has one case for each way in which the first path is dealt with, so that induction over it needs neither
the nesting depth nor the order in which the walk touches its state.
-/
namespace Linkage.LinkOrder

variable {σ ε : Type} {loader : Loader σ ε} {path : String} {archive : Archive} {w w' : Walk σ}

/-- The walk once `path` is pending and its archive is loaded. -/
def Walk.entering (w : Walk σ) (path : String) (source : σ) : Walk σ :=
  { w with source, pending := path :: w.pending, requests := path :: w.requests }

/-- The walk `after` has finished the innermost pending path and linked its archive, unless that was linked before
under its own import path. -/
structure Settled (w : Walk σ) (path : String) (outer : List String) (archive : Archive) (after : Walk σ) : Prop where
  source : after.source = w.source
  requests : after.requests = w.requests
  pending : after.pending = outer
  finished : ∀ p, after.finished.contains p = true ↔
    p = path ∨ p = archive.importPath ∨ w.finished.contains p = true
  linked : after.linked = if archive.importPath ≠ path ∧ w.finished.contains archive.importPath = true
    then w.linked else archive :: w.linked

/-- Visiting the paths, one after the other, leads from the one walk to the other. -/
inductive Visits (loader : Loader σ ε) : List String → Walk σ → Walk σ → Prop
  | nil (w : Walk σ) : Visits loader [] w w
  | skip {path : String} {rest : List String} {w w' : Walk σ} (done : w.finished.contains path = true)
      (later : Visits loader rest w w') : Visits loader (path :: rest) w w'
  | load {path : String} {rest : List String} {archive : Archive} {source : σ} {w inner after w' : Walk σ}
      (fresh : w.finished.contains path = false) (idle : path ∉ w.pending)
      (loaded : loader.load path w.source = (.ok archive, source))
      (imports : Visits loader archive.imports (w.entering path source) inner)
      (settled : Settled inner path w.pending archive after)
      (later : Visits loader rest after w') : Visits loader (path :: rest) w w'

/-- Visiting a list is visiting its first path and then the others. -/
theorem Visits.split_cons {rest : List String} (visits : Visits loader (path :: rest) w w') :
    ∃ after, Visits loader [path] w after ∧ Visits loader rest after w' := by
  cases visits with
  | skip done later => exact ⟨w, .skip done (.nil w), later⟩
  | load fresh idle loaded imports settled later =>
    exact ⟨_, .load fresh idle loaded imports settled (.nil _), later⟩

/-! ### Runs of the single operations -/

/-- Entering a path fails exactly on a cycle, which is reported in the order of the imports. -/
theorem run_enter (path : String) (w : Walk σ) :
    (enter path : Walking σ ε Unit).run w =
      if path ∈ w.pending then .error (.cycle (w.pending.reverse ++ [path])) w
      else .ok () { w with pending := path :: w.pending } := by
  by_cases pending : path ∈ w.pending <;> simp [enter, pending]

theorem run_request (loader : Loader σ ε) (path : String) (w : Walk σ) :
    (request loader path).run w =
      match loader.load path w.source with
      | (.ok archive, source) => .ok archive { w with source, requests := path :: w.requests }
      | (.error cause, source) => .error (.load path cause) { w with source, requests := path :: w.requests } := by
  rcases answered : loader.load path w.source with ⟨answer, source⟩
  cases answer with
  | error cause =>
    simp only [request, EStateM.run_bind, EStateM.run_get, EStateM.run_set, answered]
    rfl
  | ok archive =>
    simp only [request, EStateM.run_bind, EStateM.run_get, EStateM.run_set, answered]
    rfl

private theorem contains_insert (finished : Std.TreeSet String) (a p : String) :
    (finished.insert a).contains p = true ↔ p = a ∨ finished.contains p = true := by
  simp only [Std.TreeSet.contains_insert, Bool.or_eq_true, beq_iff_eq, Std.LawfulEqOrd.compare_eq_iff_eq,
    eq_comm (a := p)]

/-- What happens to a path once its imports are visited, told by `Settled`. -/
theorem run_settle {outer : List String} (pending : w.pending = path :: outer) (archive : Archive) :
    ∃ after, (do leave; link path archive : Walking σ ε Unit).run w = .ok () after ∧
      Settled w path outer archive after := by
  simp only [EStateM.run_bind, leave, EStateM.run_modify, pending, link]
  refine ⟨_, rfl, ?_⟩
  by_cases same : archive.importPath = path
  · simp only [same, ite_true]
    exact ⟨rfl, rfl, rfl, fun p => by simp only [contains_insert, same, or_self_left], by simp [same]⟩
  · -- Finishing `path` does not finish the archive's own path.
    have unaffected : (w.finished.insert path).contains archive.importPath = true ↔
        w.finished.contains archive.importPath = true := by
      simp only [contains_insert, same, false_or]
    rw [if_neg same]
    by_cases done : w.finished.contains archive.importPath = true
    · rw [if_pos (unaffected.mpr done)]
      refine ⟨rfl, rfl, rfl, fun p => ?_, (if_pos ⟨same, done⟩).symm⟩
      rw [contains_insert]
      refine or_congr_right ⟨.inr, ?_⟩
      rintro (rfl | old)
      · exact done
      · exact old
    · rw [if_neg (mt unaffected.mp done)]
      refine ⟨rfl, rfl, rfl, fun p => ?_, (if_neg fun both => done both.2).symm⟩
      rw [contains_insert, contains_insert, or_left_comm]

/-- All that one visit can do: skip, report a cycle, fail to load, or load and go on to the imports. -/
theorem run_visit_succ (loader : Loader σ ε) (depth : Nat) (path : String) (w : Walk σ) :
    (visit loader (depth + 1) path).run w =
      if w.finished.contains path then .ok () w
      else if path ∈ w.pending then .error (.cycle (w.pending.reverse ++ [path])) w
      else match loader.load path w.source with
        | (.error cause, source) => .error (.load path cause) (w.entering path source)
        | (.ok archive, source) =>
          match (archive.imports.forM (visit loader depth)).run (w.entering path source) with
          | .ok _ w => (do leave; link path archive : Walking σ ε Unit).run w
          | .error e w => .error e w := by
  simp only [visit, EStateM.run_bind, EStateM.run_get]
  split
  · rfl
  · simp only [EStateM.run_bind, run_enter]
    by_cases pending : path ∈ w.pending
    · simp only [pending, ite_true]
    · simp only [pending, ite_false, run_request]
      rcases loader.load path w.source with ⟨answer, source⟩
      cases answer with
      | error cause => rfl
      | ok archive =>
        dsimp only [Walk.entering]
        cases (archive.imports.forM (visit loader depth)).run _ <;> rfl

/-! ### Successful runs -/

/-- A run that succeeds is a sequence of visits, and leaves as many paths pending as before. -/
theorem visits_of_run {depth : Nat} {paths : List String} {w w' : Walk σ} {done : Unit}
    (succeeds : (paths.forM (visit loader depth)).run w = .ok done w') :
    Visits loader paths w w' ∧ w'.pending = w.pending := by
  -- The imports of an archive are visited at one depth less, and the paths after it at the same one: the inner
  -- induction is on those. Both rely on a visit to restore the pending paths.
  induction depth generalizing paths w w' with
  | zero =>
    cases paths with
    | nil => cases succeeds; exact ⟨.nil _, rfl⟩
    | cons path rest => cases succeeds
  | succ depth nested =>
    induction paths generalizing w with
    | nil => cases succeeds; exact ⟨.nil _, rfl⟩
    | cons path rest next =>
      change (do visit loader (depth + 1) path; rest.forM (visit loader (depth + 1)) : Walking σ ε Unit).run w =
        .ok done w' at succeeds
      rw [EStateM.run_bind, run_visit_succ] at succeeds
      by_cases finished : w.finished.contains path = true
      · simp only [finished, ite_true] at succeeds
        obtain ⟨later, pending⟩ := next succeeds
        exact ⟨.skip finished later, pending⟩
      · by_cases idle : path ∈ w.pending
        · simp only [finished, idle, ite_true] at succeeds
          cases succeeds
        · rcases loaded : loader.load path w.source with ⟨answer, source⟩
          rw [if_neg finished, if_neg idle, loaded] at succeeds
          cases answer with
          | error cause => cases succeeds
          | ok archive =>
            dsimp only at succeeds
            cases imported : (archive.imports.forM (visit loader depth)).run (w.entering path source) with
            | error e inner => simp only [imported, reduceCtorEq] at succeeds
            | ok _ inner =>
              obtain ⟨imports, restored⟩ := nested imported
              obtain ⟨after, settles, settled⟩ := run_settle (ε := ε) restored archive
              simp only [imported, settles] at succeeds
              obtain ⟨later, pending⟩ := next succeeds
              have fresh := Bool.eq_false_iff.mpr finished
              exact ⟨.load fresh idle loaded imports settled later, pending.trans settled.pending⟩

def rootPaths (runtime : String) (entry : Archive) : List String :=
  if entry.importPath ≠ runtime then runtime :: entry.imports else entry.imports

/-- The walk in which only the entry package is pending. -/
def Walk.ofEntry (source : σ) (entry : Archive) : Walk σ := { source, pending := [entry.importPath] }

def conclude (entry : Archive) : Walking σ ε Unit := do
  leave
  modify fun w => { w with linked := entry :: w.linked }

theorem run_visitEntry (loader : Loader σ ε) (runtime : String) (entry : Archive) (source : σ) :
    (visitEntry loader runtime entry).run { source } =
      ((rootPaths runtime entry).forM (visit loader (loader.capacity + 1)) >>= fun _ => conclude entry).run
        (.ofEntry source entry) := by
  simp only [visitEntry, EStateM.run_bind, run_enter, List.not_mem_nil, ite_false, rootPaths]
  by_cases other : entry.importPath ≠ runtime
  · rw [if_pos other, if_pos other]
    -- The runtime package becomes the first of the paths.
    change _ = ((visit loader (loader.capacity + 1) runtime >>= fun _ =>
      entry.imports.forM (visit loader (loader.capacity + 1))) >>= fun _ => conclude entry).run _
    rw [bind_assoc]
    rfl
  · rw [if_neg other, if_neg other]
    rfl

/-- The order of a program is what its visits link, with the entry package behind it. -/
theorem visits_of_ofEntry {runtime : String} {entry : Archive} {source : σ} {order : List Archive} {final : Walk σ}
    (succeeds : ofEntry loader runtime entry source = (.ok order, final)) :
    ∃ w, Visits loader (rootPaths runtime entry) (.ofEntry source entry) w ∧ w.pending = [entry.importPath] ∧
      order = w.linked.reverse ++ [entry] := by
  have ran := run_visitEntry loader runtime entry source
  rw [EStateM.run_bind] at ran
  change visitEntry loader runtime entry { source } = _ at ran
  unfold ofEntry at succeeds
  cases visited : ((rootPaths runtime entry).forM (visit loader (loader.capacity + 1))).run (.ofEntry source entry) with
  | error e w =>
    rw [ran, visited] at succeeds
    cases succeeds
  | ok _ w =>
    rw [ran, visited] at succeeds
    obtain ⟨visits, pending⟩ := visits_of_run visited
    refine ⟨w, visits, pending, ?_⟩
    have alone : w.pending = [entry.importPath] := pending
    simp only [conclude, EStateM.run_bind, leave, EStateM.run_modify, alone, Prod.mk.injEq, Except.ok.injEq,
      List.reverse_cons] at succeeds
    exact succeeds.1.symm

end Linkage.LinkOrder
