import Linkage.Proofs.Cache.Entries
import Linkage.Proofs.Interface.Installation

/-!
# Loads as they run

What loading an archive comes to, told without a bound on how deep imports nest. The bound that a load is given is never
reached: the paths that are being loaded all have an archive of their own, so there are no more of them than entries.
-/
namespace Linkage.Cache

variable {c : Cache} {d : Disk}

/-- Something that is stored for the path was read. -/
def Installation.noting (i : Installation) (path : String) : Installation := { i with read := path :: i.read }

/-- An import that is passed over: it is installed, or on its way. -/
def Known (loading : List String) (i : Installation) (path : String) : Prop :=
  i.packages.contains path = true ∨ path ∈ loading

mutual

/-- What loading a path comes to while the paths in `loading` are being loaded: an answer, and what is installed and
read after it. -/
inductive Loads (c : Cache) (d : Disk) :
    List String → String → Installation → Except Error (Option Archive) → Installation → Prop
  | miss {loading : List String} {path : String} {i : Installation} (missing : c.stream? d path = none) :
    Loads c d loading path i (.ok none) i
  | refused {loading : List String} {path : String} {i : Installation} {s : Stream} {e : Error}
    (stored : c.stream? d path = some s) (refused : decode path s = .error e) :
    Loads c d loading path i (.error e) (i.noting path)
  | stopped {loading : List String} {path : String} {i after : Installation} {a : Archive} {e : Error}
    (holds : c.Holds d path a)
    (imports : LoadsAll c d (path :: loading) a.imports (i.noting path) (.error e) after) :
    Loads c d loading path i (.error e) after
  | unlinked {loading : List String} {path : String} {i after : Installation} {a : Archive} {fault : ArchiveFault}
    (holds : c.Holds d path a)
    (imports : LoadsAll c d (path :: loading) a.imports (i.noting path) (.ok ()) after)
    (unlinked : after.packages.install path a = .error fault) :
    Loads c d loading path i (.error (.archive fault)) after
  | installed {loading : List String} {path : String} {i after : Installation} {a : Archive} {packages : Registry}
    (holds : c.Holds d path a)
    (imports : LoadsAll c d (path :: loading) a.imports (i.noting path) (.ok ()) after)
    (installed : after.packages.install path a = .ok packages) :
    Loads c d loading path i (.ok (some a)) { after with packages }

/-- What loading imports comes to, one after the other. -/
inductive LoadsAll (c : Cache) (d : Disk) :
    List String → List String → Installation → Except Error Unit → Installation → Prop
  | nil {loading : List String} {i : Installation} : LoadsAll c d loading [] i (.ok ()) i
  | skip {loading rest : List String} {path : String} {i after : Installation} {answer : Except Error Unit}
    (known : Known loading i path) (later : LoadsAll c d loading rest i answer after) :
    LoadsAll c d loading (path :: rest) i answer after
  | load {loading rest : List String} {path : String} {i next after : Installation} {found : Option Archive}
    {answer : Except Error Unit} (unknown : ¬ Known loading i path) (first : Loads c d loading path i (.ok found) next)
    (later : LoadsAll c d loading rest next answer after) : LoadsAll c d loading (path :: rest) i answer after
  | stopped {loading rest : List String} {path : String} {i after : Installation} {e : Error}
    (unknown : ¬ Known loading i path) (first : Loads c d loading path i (.error e) after) :
    LoadsAll c d loading (path :: rest) i (.error e) after

end

/-! ### Runs of the single operations -/

/-- Load an import, unless it is known. -/
def loadImport (c : Cache) (d : Disk) (depth : Nat) (loading : List String) (imported : String) : Installing Unit := do
  if (← get).packages.contains imported || imported ∈ loading then return
  let _ ← c.loadWithin d depth loading imported

/-- All that fetching one entry can come to; the path is noted once there is something to read. -/
theorem run_fetch (c : Cache) (d : Disk) (path : String) (i : Installation) :
    (c.fetch d path).run i =
      match c.stream? d path with
      | none => .ok none i
      | some s =>
        match decode path s with
        | .ok a => .ok (some a) (i.noting path)
        | .error e => .error e (i.noting path) := by
  unfold fetch
  cases c.stream? d path with
  | none => rfl
  | some s =>
    simp only [EStateM.run_bind, EStateM.run_modify]
    cases decode path s <;> rfl

theorem run_install (path : String) (a : Archive) (i : Installation) :
    (install path a).run i =
      match i.packages.install path a with
      | .ok packages => .ok () { i with packages }
      | .error fault => .error (.archive fault) i := by
  simp only [install, EStateM.run_bind, EStateM.run_get]
  cases i.packages.install path a <;> rfl

/-- All that one load can come to, told by the load of the imports. -/
theorem run_loadWithin_succ (depth : Nat) (loading : List String) (path : String) (i : Installation) :
    (c.loadWithin d (depth + 1) loading path).run i =
      match c.stream? d path with
      | none => .ok none i
      | some s =>
        match decode path s with
        | .error e => .error e (i.noting path)
        | .ok a =>
          match (a.imports.forM (c.loadImport d depth (path :: loading))).run (i.noting path) with
          | .error e after => .error e after
          | .ok _ after =>
            match after.packages.install path a with
            | .ok packages => .ok (some a) { after with packages }
            | .error fault => .error (.archive fault) after := by
  have shape : c.loadWithin d (depth + 1) loading path =
      c.fetch d path >>= fun found => found.elim (pure none) fun a => do
        a.imports.forM (c.loadImport d depth (path :: loading))
        install path a
        return some a := by
    rw [loadWithin]
    congr 1
    funext found
    cases found <;> rfl
  rw [shape, EStateM.run_bind, run_fetch]
  cases stored : c.stream? d path with
  | none => rfl
  | some s =>
    cases decoded : decode path s with
    | error e => simp only [decoded]
    | ok a =>
      simp only [decoded, Option.elim_some, EStateM.run_bind]
      cases (a.imports.forM (c.loadImport d depth (path :: loading))).run (i.noting path) with
      | error e after => rfl
      | ok _ after =>
        simp only [run_install]
        cases after.packages.install path a <;> rfl

instance (loading : List String) (i : Installation) (path : String) : Decidable (Known loading i path) :=
  inferInstanceAs (Decidable (_ ∨ _))

/-- An import is skipped if it is installed or on its way, and a missing one is no error. -/
theorem run_loadImport (depth : Nat) (loading : List String) (path : String) (i : Installation) :
    (c.loadImport d depth loading path).run i =
      if Known loading i path then .ok () i
      else match (c.loadWithin d depth loading path).run i with
        | .ok _ after => .ok () after
        | .error e after => .error e after := by
  by_cases known : Known loading i path
  · have guard : (i.packages.contains path || decide (path ∈ loading)) = true := by simpa [Known] using known
    simp only [loadImport, EStateM.run_bind, EStateM.run_get, guard, if_pos known]
    rfl
  · have guard : (i.packages.contains path || decide (path ∈ loading)) = false := by simpa [Known] using known
    simp only [loadImport, EStateM.run_bind, EStateM.run_get, guard, if_neg known, Bool.false_eq_true, if_false]
    cases (c.loadWithin d depth loading path).run i <;> rfl

/-! ### What runs come to -/

/-- The answer of a run, and what is installed and read with it. -/
def outcome {α : Type} : EStateM.Result Error Installation α → Except Error α × Installation
  | .ok a i => (.ok a, i)
  | .error e i => (.error e, i)

theorem load_eq (c : Cache) (d : Disk) (path : String) (packages : Registry) :
    c.load d path packages = outcome ((c.loadWithin d (c.capacity d + 1) [] path).run { packages }) := by
  unfold load
  cases h : c.loadWithin d (c.capacity d + 1) [] path { packages } <;> rw [EStateM.run, h] <;> rfl

/-- The loop over the imports follows the relation, if the loads in it do. -/
theorem loadsAll_run {depth : Nat} {loading : List String}
    (first : ∀ path ∉ loading, ∀ i, Loads c d loading path i
      (outcome ((c.loadWithin d depth loading path).run i)).1 (outcome ((c.loadWithin d depth loading path).run i)).2)
    (paths : List String) (i : Installation) :
    LoadsAll c d loading paths i (outcome ((paths.forM (c.loadImport d depth loading)).run i)).1
      (outcome ((paths.forM (c.loadImport d depth loading)).run i)).2 := by
  induction paths generalizing i with
  | nil => exact .nil
  | cons path rest ih =>
    rw [show (path :: rest).forM (c.loadImport d depth loading) =
        (c.loadImport d depth loading path >>= fun _ => rest.forM (c.loadImport d depth loading)) from rfl,
      EStateM.run_bind, run_loadImport]
    by_cases known : Known loading i path
    · rw [if_pos known]
      exact .skip known (ih i)
    · rw [if_neg known]
      have loads := first path (fun member => known (.inr member)) i
      cases ran : (c.loadWithin d depth loading path).run i with
      | ok found next =>
        rw [ran] at loads
        exact .load known loads (ih next)
      | error e after =>
        rw [ran] at loads
        exact .stopped known loads

/-- The bound is not reached: what is being loaded has an archive for each path, and each nested load adds one. -/
theorem loads_run {depth : Nat} {loading : List String} {path : String}
    (enough : c.capacity d < depth + loading.length) (distinct : loading.Nodup)
    (held : ∀ q ∈ loading, ∃ a, c.Holds d q a) (fresh : path ∉ loading) (i : Installation) :
    Loads c d loading path i (outcome ((c.loadWithin d depth loading path).run i)).1
      (outcome ((c.loadWithin d depth loading path).run i)).2 := by
  induction depth generalizing loading path i with
  | zero =>
    have few := length_le_capacity distinct held
    omega
  | succ depth ih =>
    rw [run_loadWithin_succ]
    cases stored : c.stream? d path with
    | none => exact .miss stored
    | some s =>
      cases decoded : decode path s with
      | error e =>
        simp only [decoded]
        exact .refused stored decoded
      | ok a =>
        have holds : c.Holds d path a := ⟨s, stored, decoded⟩
        have deeper := loadsAll_run (fun r unknown i => ih (by simp only [List.length_cons]; omega)
          (List.nodup_cons.mpr ⟨fresh, distinct⟩) (List.forall_mem_cons.mpr ⟨⟨a, holds⟩, held⟩) unknown i)
          a.imports (i.noting path)
        cases ran : (a.imports.forM (c.loadImport d depth (path :: loading))).run (i.noting path) with
        | error e after =>
          rw [ran] at deeper
          simp only [decoded, ran]
          exact .stopped holds deeper
        | ok done after =>
          rw [ran] at deeper
          cases linked : after.packages.install path a with
          | error fault =>
            simp only [decoded, ran, linked]
            exact .unlinked holds deeper linked
          | ok packages =>
            simp only [decoded, ran, linked]
            exact .installed holds deeper linked

/-- The bound of the model is never reached: it counts the files of the directory. -/
theorem loads_load (c : Cache) (d : Disk) (path : String) (m : Registry) :
    Loads c d [] path { packages := m } (c.load d path m).1 (c.load d path m).2 := by
  rw [load_eq]
  exact loads_run (by simp) List.nodup_nil nofun List.not_mem_nil _

/-- Any two bounds that are great enough give the same run. -/
theorem run_eq_of_enough {depth depth' : Nat} {loading : List String} {path : String}
    (enough : c.capacity d < depth + loading.length) (enough' : c.capacity d < depth' + loading.length)
    (distinct : loading.Nodup) (held : ∀ q ∈ loading, ∃ a, c.Holds d q a) (fresh : path ∉ loading)
    (i : Installation) :
    (c.loadWithin d depth loading path).run i = (c.loadWithin d depth' loading path).run i := by
  have few := length_le_capacity distinct held
  induction depth generalizing depth' loading path i with
  | zero => omega
  | succ depth ih =>
    cases depth' with
    | zero => omega
    | succ depth' =>
      rw [run_loadWithin_succ, run_loadWithin_succ]
      cases stored : c.stream? d path with
      | none => rfl
      | some s =>
        cases decoded : decode path s with
        | error e => simp only [decoded]
        | ok a =>
          have deeper : c.capacity d < depth + (path :: loading).length := by rw [List.length_cons]; omega
          have deeper' : c.capacity d < depth' + (path :: loading).length := by rw [List.length_cons]; omega
          have distinct' := List.nodup_cons.mpr ⟨fresh, distinct⟩
          have held' := List.forall_mem_cons.mpr ⟨⟨a, s, stored, decoded⟩, held⟩
          have imports : c.loadImport d depth (path :: loading) = c.loadImport d depth' (path :: loading) := by
            funext r i
            change (c.loadImport d depth (path :: loading) r).run i = (c.loadImport d depth' (path :: loading) r).run i
            rw [run_loadImport, run_loadImport]
            by_cases known : Known (path :: loading) i r
            · rw [if_pos known, if_pos known]
            · rw [if_neg known, if_neg known, ih deeper deeper' distinct' held' (fun member => known (.inr member)) i
                (length_le_capacity distinct' held')]
          simp only [decoded, imports]

end Linkage.Cache
