import Linkage.Proofs.Cache.Loading

/-!
# What a load leaves behind

A load keeps every record but that of its own path, and that one too unless it finds an archive. It reads nothing twice.
After it, the imports of all that it installed are installed, or nothing is stored for them. The imports that are still
on their way when a package is installed are the reason why this holds of the whole load only: while it runs, they count
as settled.
-/
namespace Linkage.Cache

variable {c : Cache} {d : Disk} {loading paths : List String} {path q : String} {i j after : Installation}

/-! ### Records that stay -/

theorem Known.of_get?_eq (known : Known loading i q) (same : after.packages.get? q = i.packages.get? q) :
    Known loading after q := by
  refine known.imp_left fun installed => ?_
  rw [Registry.contains_iff] at installed ⊢
  rwa [same]

theorem Known.noting (known : Known loading i q) : Known (path :: loading) (i.noting path) q :=
  known.imp_right (List.mem_cons_of_mem path)

theorem Known.ne (known : Known loading i q) (unknown : ¬ Known loading i path) : q ≠ path := by
  rintro rfl
  exact unknown known

/-- Installing a package changes no other one. -/
theorem get?_install {m m' : Registry} {a : Archive} (installed : m.install path a = .ok m') (other : q ≠ path) :
    m'.get? q = m.get? q := by
  obtain ⟨p, built, rfl⟩ := Registry.install_eq_ok_iff.mp installed
  rw [Registry.get?_insert, Package.path_of_ofExportData built, if_neg other.symm]

theorem contains_install {m m' : Registry} {a : Archive} (installed : m.install path a = .ok m') :
    m'.contains path = true := by
  obtain ⟨p, built, rfl⟩ := Registry.install_eq_ok_iff.mp installed
  rw [Registry.contains_iff]
  exact ⟨p, by rw [Registry.get?_insert, Package.path_of_ofExportData built, if_pos rfl]⟩

mutual

/-- What is known before a load is not touched by it. -/
theorem Loads.get?_of_known {loading : List String} {path : String} {i after : Installation}
    {answer : Except Error (Option Archive)} (known : Known loading i q) (other : q ≠ path) :
    Loads c d loading path i answer after → after.packages.get? q = i.packages.get? q
  | .miss _ => rfl
  | .refused _ _ => rfl
  | .stopped _ imports =>
    have kept := imports.get?_of_known known.noting
    kept
  | .unlinked _ imports _ =>
    have kept := imports.get?_of_known known.noting
    kept
  | .installed _ imports installed =>
    have kept := imports.get?_of_known known.noting
    (get?_install installed other).trans kept

theorem LoadsAll.get?_of_known {loading paths : List String} {i after : Installation} {answer : Except Error Unit}
    (known : Known loading i q) :
    LoadsAll c d loading paths i answer after → after.packages.get? q = i.packages.get? q
  | .nil => rfl
  | .skip _ later => later.get?_of_known known
  | .load unknown first later =>
    have same := first.get?_of_known known (known.ne unknown)
    (later.get?_of_known (known.of_get?_eq same)).trans same
  | .stopped unknown first => first.get?_of_known known (known.ne unknown)

end

/-- A load that finds no archive keeps the record of its own path. -/
theorem Loads.get?_self {answer : Except Error (Option Archive)} (loads : Loads c d loading path i answer after)
    (unanswered : ∀ a, answer ≠ .ok (some a)) : after.packages.get? path = i.packages.get? path := by
  have own : Known (path :: loading) (i.noting path) path := .inr List.mem_cons_self
  cases loads with
  | miss => rfl
  | refused => rfl
  | stopped _ imports =>
    have kept := imports.get?_of_known own
    exact kept
  | unlinked _ imports =>
    have kept := imports.get?_of_known own
    exact kept
  | installed => exact absurd rfl (unanswered _)

/-- Nothing that is installed is lost while imports are loaded. -/
theorem LoadsAll.contains {answer : Except Error Unit} (imports : LoadsAll c d loading paths i answer after)
    (installed : i.packages.contains q = true) : after.packages.contains q = true := by
  rw [Registry.contains_iff] at installed ⊢
  rwa [imports.get?_of_known (.inl (Registry.contains_iff.mpr installed))]

/-! ### What is read -/

/-- Nothing was read twice, and all that was read is installed or on its way. -/
structure ReadOnce (loading : List String) (i : Installation) : Prop where
  distinct : i.read.Nodup
  known : ∀ q ∈ i.read, Known loading i q

/-- Reading a fresh path keeps each path read at most once. -/
theorem ReadOnce.noting (once : ReadOnce loading i) (fresh : path ∉ i.read) :
    ReadOnce (path :: loading) (i.noting path) where
  distinct := List.nodup_cons.mpr ⟨fresh, once.distinct⟩
  known := List.forall_mem_cons.mpr ⟨.inr List.mem_cons_self, fun q read => (once.known q read).noting⟩

theorem ReadOnce.installed {a : Archive} {packages : Registry} (once : ReadOnce (path :: loading) i)
    (installed : i.packages.install path a = .ok packages) : ReadOnce loading { i with packages } where
  distinct := once.distinct
  known q read := by
    by_cases here : q = path
    · exact .inl (here ▸ contains_install installed)
    · have known : Known (path :: loading) { i with packages } q :=
        (once.known q read).of_get?_eq (get?_install installed here)
      rcases known with known | member
      · exact .inl known
      · exact .inr (List.mem_of_ne_of_mem here member)

mutual

/-- No path is read twice: what has been read is installed or on its way. -/
theorem Loads.readOnce {loading : List String} {path : String} {i after : Installation}
    {answer : Except Error (Option Archive)} (once : ReadOnce loading i) (fresh : path ∉ i.read) :
    Loads c d loading path i answer after → after.read.Nodup ∧ (answer.isOk → ReadOnce loading after)
  | .miss _ => ⟨once.distinct, fun _ => once⟩
  | .refused _ _ => ⟨(once.noting fresh).distinct, nofun⟩
  | .stopped _ imports => ⟨(imports.readOnce (once.noting fresh)).1, nofun⟩
  | .unlinked _ imports _ => ⟨(imports.readOnce (once.noting fresh)).1, nofun⟩
  | .installed _ imports installed =>
    have within := imports.readOnce (once.noting fresh)
    ⟨within.1, fun _ => (within.2 rfl).installed installed⟩

theorem LoadsAll.readOnce {loading paths : List String} {i after : Installation} {answer : Except Error Unit}
    (once : ReadOnce loading i) :
    LoadsAll c d loading paths i answer after → after.read.Nodup ∧ (answer.isOk → ReadOnce loading after)
  | .nil => ⟨once.distinct, fun _ => once⟩
  | .skip _ later => later.readOnce once
  | .load unknown first later =>
    later.readOnce ((first.readOnce once fun read => unknown (once.known _ read)).2 rfl)
  | .stopped unknown first => ⟨(first.readOnce once fun read => unknown (once.known _ read)).1, nofun⟩

end

/-! ### What is installed -/

/-- The path is installed or on its way, or nothing is stored for it. -/
def Settled (c : Cache) (d : Disk) (loading : List String) (i : Installation) (path : String) : Prop :=
  Known loading i path ∨ c.has d path = false

/-- An archive of the package is stored, and all that it imports is settled. -/
def Closed (c : Cache) (d : Disk) (loading : List String) (i : Installation) (path : String) : Prop :=
  ∃ a, c.Holds d path a ∧ ∀ imported ∈ a.imports, Settled c d loading i imported

theorem Settled.of_contains (settled : Settled c d loading i q)
    (more : i.packages.contains q = true → after.packages.contains q = true) : Settled c d loading after q :=
  settled.imp_left (Or.imp_left more)

theorem Closed.of_contains (closed : Closed c d loading i q)
    (more : ∀ q, i.packages.contains q = true → after.packages.contains q = true) : Closed c d loading after q := by
  obtain ⟨a, holds, imports⟩ := closed
  exact ⟨a, holds, fun r member => (imports r member).of_contains (more r)⟩

theorem contains_install_of_contains {m m' : Registry} {a : Archive} (installed : m.install path a = .ok m')
    (before : m.contains q = true) : m'.contains q = true := by
  by_cases here : q = path
  · exact here ▸ contains_install installed
  · rw [Registry.contains_iff] at before ⊢
    rwa [get?_install installed here]

/-- What waited for a path to be installed waits no more. -/
theorem Settled.installed {a : Archive} {packages : Registry} (settled : Settled c d (path :: loading) i q)
    (installed : i.packages.install path a = .ok packages) : Settled c d loading { i with packages } q := by
  rcases settled with (before | member) | missing
  · exact .inl (.inl (contains_install_of_contains installed before))
  · rcases List.mem_cons.mp member with rfl | member
    · exact .inl (.inl (contains_install installed))
    · exact .inl (.inr member)
  · exact .inr missing

/-- A closed package stays closed when another one is installed. -/
theorem Closed.installed {a : Archive} {packages : Registry} (closed : Closed c d (path :: loading) i q)
    (installed : i.packages.install path a = .ok packages) : Closed c d loading { i with packages } q := by
  obtain ⟨b, holds, imports⟩ := closed
  exact ⟨b, holds, fun r member => (imports r member).installed installed⟩

theorem contains_of_install {m m' : Registry} {a : Archive} (installed : m.install path a = .ok m')
    (present : m'.contains q = true) : q = path ∨ m.contains q = true := by
  by_cases here : q = path
  · exact .inl here
  · rw [Registry.contains_iff, get?_install installed here, ← Registry.contains_iff] at present
    exact .inr present

mutual

/-- What a load installs is closed: all that it imports is installed, on its way, or missing from the cache. -/
theorem Loads.closed {loading : List String} {path : String} {i after : Installation}
    {answer : Except Error (Option Archive)} : Loads c d loading path i answer after →
    ∀ found, answer = .ok found → Settled c d loading after path ∧
      (∀ a, found = some a → c.Holds d path a ∧ after.packages.contains path = true ∧ Closed c d loading after path) ∧
      ∀ q, after.packages.contains q = true → i.packages.contains q = true ∨ Closed c d loading after q
  | .refused _ _, _, refused => nomatch refused
  | .stopped _ _, _, stopped => nomatch stopped
  | .unlinked _ _ _, _, unlinked => nomatch unlinked
  | .miss missing, found, same => by
    cases same
    exact ⟨.inr (stream?_eq_none_iff.mp missing), nofun, fun _ present => .inl present⟩
  | .installed holds imports installed, found, same => by
    cases same
    obtain ⟨settled, grown⟩ := imports.closed rfl
    have own := Closed.installed ⟨_, holds, settled⟩ installed
    refine ⟨.inl (.inl (contains_install installed)), ?_, fun q present => ?_⟩
    · rintro _ ⟨⟩
      exact ⟨holds, contains_install installed, own⟩
    · rcases contains_of_install installed present with rfl | before
      · exact .inr own
      · exact (grown q before).imp_right fun closed => closed.installed installed

theorem LoadsAll.closed {loading paths : List String} {i after : Installation} {answer : Except Error Unit} :
    LoadsAll c d loading paths i answer after → answer = .ok () →
    (∀ r ∈ paths, Settled c d loading after r) ∧
      ∀ q, after.packages.contains q = true → i.packages.contains q = true ∨ Closed c d loading after q
  | .stopped _ _, stopped => nomatch stopped
  | .nil, _ => ⟨nofun, fun _ present => .inl present⟩
  | .skip known later, done => by
    obtain ⟨rest, grown⟩ := later.closed done
    exact ⟨List.forall_mem_cons.mpr ⟨.inl (known.imp_left later.contains), rest⟩, grown⟩
  | .load unknown first later, done => by
    obtain ⟨settled, -, before⟩ := first.closed _ rfl
    obtain ⟨rest, grown⟩ := later.closed done
    refine ⟨List.forall_mem_cons.mpr ⟨settled.of_contains later.contains, rest⟩, fun q present => ?_⟩
    rcases grown q present with present | closed
    · exact (before q present).imp_right fun closed => closed.of_contains fun q => later.contains
    · exact .inr closed

end

/-! ### A whole load -/

/-- A miss is answered exactly if nothing is stored under the path. -/
theorem Loads.eq_none_iff {answer : Except Error (Option Archive)} (loads : Loads c d loading path i answer after) :
    answer = .ok none ↔ c.has d path = false := by
  rw [← stream?_eq_none_iff]
  have stored {a : Archive} (holds : c.Holds d path a) : c.stream? d path ≠ none := by
    obtain ⟨s, stored, -⟩ := holds
    simp [stored]
  cases loads with
  | miss missing => simp [missing]
  | refused found refused => simp [found]
  | stopped holds _ => simp [stored holds]
  | unlinked holds _ _ => simp [stored holds]
  | installed holds _ _ => simp [stored holds]

/-- A load ends without its bound and reads nothing twice. Whatever is stored, it keeps every record but that of its own
path, and that one too if there is no archive to answer with; and there is none to answer with, short of a fault,
exactly if nothing is stored. An archive that it answers with is one of that path, which is installed then, and the
imports of all that was installed on the way are installed or have nothing stored for them. -/
theorem load_keeps_and_closes (c : Cache) (d : Disk) (path : String) (m : Registry) :
    (∀ depth, c.capacity d < depth → c.load d path m = outcome ((c.loadWithin d depth [] path).run { packages := m })) ∧
    (c.load d path m).2.read.Nodup ∧
    (∀ q ≠ path, ∀ p, m.get? q = some p → (c.load d path m).2.packages.get? q = some p) ∧
    ((∀ a, (c.load d path m).1 ≠ .ok (some a)) → (c.load d path m).2.packages.get? path = m.get? path) ∧
    ((c.load d path m).1 = .ok none ↔ c.has d path = false) ∧
    ∀ a, (c.load d path m).1 = .ok (some a) →
      a.importPath = path ∧ c.Holds d path a ∧ (c.load d path m).2.packages.contains path = true ∧
        ∀ q, (c.load d path m).2.packages.contains q = true → q = path ∨ m.contains q = false →
          ∃ b, c.Holds d q b ∧
            ∀ r ∈ b.imports, (c.load d path m).2.packages.contains r = true ∨ c.has d r = false := by
  have loads := c.loads_load d path m
  have once : ReadOnce [] { packages := m } := ⟨List.nodup_nil, nofun⟩
  refine ⟨fun depth enough => ?_, (loads.readOnce once List.not_mem_nil).1, fun q other p installed => ?_,
    loads.get?_self, loads.eq_none_iff, fun a found => ?_⟩
  · rw [load_eq, run_eq_of_enough (by simp) (by simpa using enough) List.nodup_nil nofun List.not_mem_nil]
  · have known : Known [] { packages := m } q := .inl (Registry.contains_iff.mpr ⟨p, installed⟩)
    exact (loads.get?_of_known known other).trans installed
  · obtain ⟨-, own, grown⟩ := loads.closed _ found
    obtain ⟨holds, present, closed⟩ := own a rfl
    refine ⟨holds.importPath, holds, present, fun q there new => ?_⟩
    have closed : Closed c d [] (c.load d path m).2 q := by
      rcases new with rfl | absent
      · exact closed
      · rcases grown q there with before | closed
        · exact absurd before (by simpa using absent)
        · exact closed
    obtain ⟨b, holds, imports⟩ := closed
    refine ⟨b, holds, fun r member => (imports r member).imp_left fun known => ?_⟩
    simpa [Known] using known

end Linkage.Cache
