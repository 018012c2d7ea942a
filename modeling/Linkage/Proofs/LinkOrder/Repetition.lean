import Linkage.Proofs.LinkOrder.Canonical
import Linkage.Proofs.LinkOrder.Descent

/-!
# Packages that are linked twice

A path that is finished is not requested again, and an archive that is served under another path than its own is linked
only if its own path is not finished. A package that is served under its own path is linked in any case, though: also if
its path has got finished while it was pending, because one of its imports has led to an archive of the same import path.
Only then is an import path linked twice, and none is linked three times.
-/
namespace Linkage.LinkOrder

variable {σ ε : Type} {loader : Loader σ ε} {source next : σ} {runtime p path : String} {entry archive : Archive}
  {paths outer : List String} {u v v' w w' inner after : Walk σ}

/-- The walk has come to the path, which is neither finished nor pending, and loads the archive for it. -/
structure Walk.Loads (loader : Loader σ ε) (w : Walk σ) (path : String) (archive : Archive) (next : σ) : Prop where
  fresh : w.finished.contains path = false
  idle : path ∉ w.pending
  answer : loader.load path w.source = (.ok archive, next)

/-- Visiting the paths from `w`, the walk loads an archive of this import path. -/
def Brings (loader : Loader σ ε) (paths : List String) (w : Walk σ) (p : String) : Prop :=
  ∃ path u archive next, Comes loader paths w path u ∧ u.Loads loader path archive next ∧ archive.importPath = p

/-- While the walk visits the imports of the entry package, or of one that it has loaded under the package's own import
path, it loads another archive of that import path. -/
inductive Reloads (loader : Loader σ ε) (source : σ) (runtime : String) (entry : Archive) : String → Prop
  | entry (again : Brings loader (rootPaths runtime entry) (.ofEntry source entry) entry.importPath) :
    Reloads loader source runtime entry entry.importPath
  | package {own : Archive} {next : σ} {u : Walk σ}
    (comes : Comes loader (rootPaths runtime entry) (.ofEntry source entry) own.importPath u)
    (loads : u.Loads loader own.importPath own next)
    (again : Brings loader own.imports (u.entering own.importPath next) own.importPath) :
    Reloads loader source runtime entry own.importPath

/-! ### What is linked -/

/-- How many linked archives have the import path. -/
def Walk.count (w : Walk σ) (p : String) : Nat :=
  (w.linked.map (·.importPath)).count p

/-- Finishing a path links its archive, unless that is known under its own import path already. -/
theorem Settled.count_eq (settled : Settled inner path outer archive after) (p : String) :
    after.count p = inner.count p +
      if archive.importPath = p ∧ (archive.importPath = path ∨ inner.finished.contains p = false) then 1 else 0 := by
  rw [Walk.count, settled.linked]
  by_cases named : archive.importPath = p
  · subst named
    by_cases own : archive.importPath = path
    · simp [own, Walk.count]
    · cases done : inner.finished.contains archive.importPath <;> simp [own, Walk.count]
  · split <;> simp [named, Walk.count]

/-- Only archives of finished paths are linked. -/
def Walk.Listed (w : Walk σ) : Prop :=
  ∀ p, w.finished.contains p = false → w.count p = 0

theorem Settled.listed (settled : Settled inner path outer archive after) (listed : inner.Listed) : after.Listed := by
  intro p unfinished
  rw [Bool.eq_false_iff, Ne, settled.finished, not_or, not_or] at unfinished
  rw [settled.count_eq, if_neg fun both => unfinished.2.1 both.1.symm, listed p (Bool.eq_false_iff.mpr unfinished.2.2)]

/-- No archive is linked before its import path is finished. -/
theorem Visits.listed (visits : Visits loader paths w w') (listed : w.Listed) : w'.Listed := by
  induction visits with
  | nil w => exact listed
  | skip _ _ ih => exact ih listed
  | load _ _ _ _ settled _ nested later => exact later (settled.listed (nested listed))

/-- Paths stay finished, and archives stay linked. -/
structure Walk.Grows (w w' : Walk σ) : Prop where
  finished : ∀ p, w.finished.contains p = true → w'.finished.contains p = true
  count : ∀ p, w.count p ≤ w'.count p

theorem Walk.Grows.trans (first : u.Grows v) (later : v.Grows w) : u.Grows w where
  finished p done := later.finished p (first.finished p done)
  count p := (first.count p).trans (later.count p)

theorem Settled.grows (settled : Settled inner path outer archive after) : inner.Grows after where
  finished p done := (settled.finished p).mpr (.inr (.inr done))
  count p := settled.count_eq p ▸ Nat.le_add_right ..

/-- Visits neither forget a finished path nor unlink an archive. -/
theorem Visits.grows (visits : Visits loader paths w w') : w.Grows w' := by
  induction visits with
  | nil w => exact ⟨fun _ => id, fun _ => le_rfl⟩
  | skip _ _ ih => exact ih
  | load _ _ _ _ settled _ nested later =>
    -- Entering a path changes neither what is finished nor what is linked.
    have grown := settled.grows.trans later
    exact ⟨fun p done => grown.finished p (nested.finished p done), fun p => (nested.count p).trans (grown.count p)⟩

/-! ### No more than twice -/

/-- What the imports of a visited path bring, the path brings. -/
theorem Brings.inside (fresh : w.finished.contains path = false) (idle : path ∉ w.pending)
    (loaded : loader.load path w.source = (.ok archive, next))
    (brings : Brings loader archive.imports (w.entering path next) p) : Brings loader (path :: paths) w p := by
  obtain ⟨q, u, other, after, comes, loads⟩ := brings
  exact ⟨q, u, other, after, .inside fresh idle loaded comes, loads⟩

theorem Brings.later (first : Visits loader [path] w v) (brings : Brings loader paths v p) :
    Brings loader (path :: paths) w p := by
  obtain ⟨q, u, other, after, comes, loads⟩ := brings
  exact ⟨q, u, other, after, .later first comes, loads⟩

/-- The count of an import path changes only if an archive of it is loaded. -/
theorem Visits.brings_of_count_ne (visits : Visits loader paths w w') (changed : w'.count p ≠ w.count p) :
    Brings loader paths w p := by
  induction visits with
  | nil w => exact absurd rfl changed
  | skip done later ih => exact (ih changed).later (.skip done (.nil _))
  | @load path rest archive next w inner after w' fresh idle loaded imports settled later nested ih =>
    by_cases named : archive.importPath = p
    · exact ⟨path, w, archive, next, .here path rest w, ⟨fresh, idle, loaded⟩, named⟩
    have kept : after.count p = inner.count p := by
      rw [settled.count_eq, if_neg fun both => named both.1, Nat.add_zero]
    by_cases same : w'.count p = after.count p
    · exact (nested fun unchanged => changed (same.trans (kept.trans unchanged))).inside fresh idle loaded
    · exact (ih same).later (.load fresh idle loaded imports settled (.nil _))

/-- An archive that is served under another path is linked only as the first one of its import path. So the others
remain to be counted. -/
theorem Visits.count_le {limit : Nat} (visits : Visits loader paths w w') (listed : w.Listed) (positive : 0 < limit)
    (few : w.count p ≤ limit)
    (own : ∀ u archive next inner, Comes loader paths w p u → u.Loads loader p archive next → archive.importPath = p →
      u.Listed → Visits loader archive.imports (u.entering p next) inner → inner.count p < limit) :
    w'.count p ≤ limit := by
  induction visits with
  | nil w => exact few
  | skip done later ih =>
    exact ih listed few fun u archive next inner comes => own u archive next inner (.later (.skip done (.nil _)) comes)
  | @load path rest archive next w inner after w' fresh idle loaded imports settled later nested ih =>
    have imported : inner.count p ≤ limit :=
      nested listed few fun u archive next inner comes => own u archive next inner (.inside fresh idle loaded comes)
    have innerListed : inner.Listed := imports.listed listed
    have linked : after.count p ≤ limit := by
      rw [settled.count_eq]
      split
      next new =>
        obtain ⟨named, direct | unfinished⟩ := new
        · have same : path = p := direct.symm.trans named
          subst same
          exact own w archive next inner (.here path rest w) ⟨fresh, idle, loaded⟩ named listed imports
        · rw [innerListed p unfinished]
          exact positive
      next => exact imported
    refine ih (settled.listed innerListed) linked fun u archive next inner comes => ?_
    exact own u archive next inner (.later (.load fresh idle loaded imports settled (.nil _)) comes)

/-- An import path stays single unless an archive of it is loaded while its own imports are visited. -/
theorem Visits.count_le_one (visits : Visits loader paths w w') (listed : w.Listed) (few : w.count p ≤ 1)
    (once : ∀ u own next, Comes loader paths w p u → u.Loads loader p own next → own.importPath = p →
      ¬ Brings loader own.imports (u.entering p next) p) : w'.count p ≤ 1 := by
  refine visits.count_le listed Nat.one_pos few fun u own next inner comes loads named listed imports => ?_
  have unchanged : inner.count p = u.count p := by
    by_contra changed
    exact once u own next comes loads named (imports.brings_of_count_ne changed)
  rw [unchanged, listed p loads.fresh]
  exact Nat.one_pos

theorem Comes.pending_subset (comes : Comes loader paths w path u) : w.pending ⊆ u.pending := by
  induction comes with
  | here path rest w => exact fun _ => id
  | inside _ _ _ _ ih => exact fun q held => ih (List.mem_cons_of_mem _ held)
  | later first _ ih => exact first.pending_eq ▸ ih

/-- While a path is pending, it is linked at most once more. -/
theorem Visits.count_le_one_of_pending (visits : Visits loader paths w w') (listed : w.Listed) (few : w.count p ≤ 1)
    (held : p ∈ w.pending) : w'.count p ≤ 1 :=
  visits.count_le_one listed few fun _ _ _ comes loads => absurd (comes.pending_subset held) loads.idle

/-- Two are the most: after the first of them the path is either finished or pending. -/
theorem Visits.count_le_two (visits : Visits loader paths w w') (listed : w.Listed) (few : w.count p ≤ 2) :
    w'.count p ≤ 2 := by
  refine visits.count_le listed Nat.two_pos few fun u own next inner _ loads _ listed imports => ?_
  have none : (u.entering p next).count p = 0 := listed p loads.fresh
  have few : (u.entering p next).count p ≤ 1 := none ▸ Nat.zero_le 1
  exact Nat.lt_succ_of_le (imports.count_le_one_of_pending listed few List.mem_cons_self)

/-! ### Loading once more -/

/-- The walks differ at most in how the finished paths are stored. -/
structure Walk.Alike (w v : Walk σ) : Prop where
  source : w.source = v.source
  pending : w.pending = v.pending
  linked : w.linked = v.linked
  requests : w.requests = v.requests
  finished : ∀ p, w.finished.contains p = true ↔ v.finished.contains p = true

namespace Walk.Alike

theorem refl (w : Walk σ) : w.Alike w := ⟨rfl, rfl, rfl, rfl, fun _ => .rfl⟩

theorem not_finished (alike : w.Alike v) (fresh : w.finished.contains path = false) :
    v.finished.contains path ≠ true :=
  mt (alike.finished path).mpr (Bool.eq_false_iff.mp fresh)

theorem entering (alike : w.Alike v) (path : String) (next : σ) : (w.entering path next).Alike (v.entering path next) where
  source := rfl
  pending := congrArg (path :: ·) alike.pending
  linked := alike.linked
  requests := congrArg (path :: ·) alike.requests
  finished := alike.finished

theorem settled {inner' after' : Walk σ} {outer' : List String} (alike : inner.Alike inner') (same : outer = outer')
    (here : Settled inner path outer archive after) (there : Settled inner' path outer' archive after') :
    after.Alike after' where
  source := by rw [here.source, there.source, alike.source]
  pending := by rw [here.pending, there.pending, same]
  linked := by simp only [here.linked, there.linked, alike.linked, alike.finished]
  requests := by rw [here.requests, there.requests, alike.requests]
  finished p := by rw [here.finished, there.finished, alike.finished]

end Walk.Alike

/-- The walk goes by what is finished, not by how it is stored. -/
theorem Visits.alike (visits : Visits loader paths w w') (alike : w.Alike v) (others : Visits loader paths v v') :
    w'.Alike v' := by
  induction visits generalizing v v' with
  | nil w =>
    cases others
    exact alike
  | skip done _ ih =>
    cases others with
    | skip _ others => exact ih alike others
    | load fresh => exact absurd ((alike.finished _).mp done) (Bool.eq_false_iff.mp fresh)
  | load fresh _ loaded _ settled _ nested later =>
    cases others with
    | skip done => exact absurd done (alike.not_finished fresh)
    | load _ _ answer imports settles others =>
      rw [← alike.source, loaded] at answer
      cases answer
      exact later ((nested (alike.entering _ _) imports).settled alike.pending settled settles) others

/-- A walk that succeeds goes through with whatever it loads. -/
theorem Comes.settled (comes : Comes loader paths w path u) (loads : u.Loads loader path archive next)
    (alike : w.Alike v) (visits : Visits loader paths v v') :
    ∃ u' inner after, u.Alike u' ∧ Visits loader archive.imports (u'.entering path next) inner ∧
      Settled inner path u'.pending archive after ∧ after.Grows v' := by
  induction comes generalizing v v' with
  | here path rest w =>
    cases visits with
    | skip done => exact absurd done (alike.not_finished loads.fresh)
    | load _ _ answer imports settled later =>
      rw [← alike.source, loads.answer] at answer
      cases answer
      exact ⟨v, _, _, alike, imports, settled, later.grows⟩
  | inside fresh _ loaded _ ih =>
    cases visits with
    | skip done => exact absurd done (alike.not_finished fresh)
    | load _ _ answer imports settles later =>
      rw [← alike.source, loaded] at answer
      cases answer
      obtain ⟨u', inner, after, same, nested, settled, grows⟩ := ih loads (alike.entering _ _) imports
      exact ⟨u', inner, after, same, nested, settled, grows.trans (settles.grows.trans later.grows)⟩
  | later first _ ih =>
    obtain ⟨between, begins, rest⟩ := visits.split_cons
    exact ih loads (first.alike alike begins) rest

/-- What is brought is finished in the end. -/
theorem Brings.finished (brings : Brings loader paths w p) (alike : w.Alike v) (visits : Visits loader paths v v') :
    v'.finished.contains p = true := by
  obtain ⟨path, u, archive, next, comes, loads, named⟩ := brings
  obtain ⟨_, _, after, _, _, settled, grows⟩ := comes.settled loads alike visits
  exact grows.finished p ((settled.finished p).mpr (.inr (.inl named.symm)))

/-- A path gets finished while it is pending only by an archive that is linked. -/
theorem Visits.count_pos (visits : Visits loader paths w w') (held : p ∈ w.pending)
    (start : w.finished.contains p = true → 0 < w.count p) (done : w'.finished.contains p = true) : 0 < w'.count p := by
  induction visits with
  | nil w => exact start done
  | skip _ _ ih => exact ih held start done
  | @load path _ archive _ w inner after _ _ idle _ _ settled _ nested later =>
    refine later (settled.pending ▸ held) (fun finished => ?_) done
    have imported := nested (List.mem_cons_of_mem path held) start
    rw [settled.count_eq]
    rcases (settled.finished p).mp finished with rfl | rfl | before
    · exact absurd held idle
    · split
      next => exact Nat.succ_pos _
      next old =>
        exact imported (Bool.not_eq_false _ ▸ fun unfinished => old ⟨rfl, .inr unfinished⟩)
    · exact Nat.add_pos_left (imported before) _

/-- An archive that is brought while its path is pending is linked, although the path will be linked again. -/
theorem Brings.count_pos (brings : Brings loader paths w p) (alike : w.Alike v) (visits : Visits loader paths v v')
    (held : p ∈ w.pending) (fresh : w.finished.contains p = false) : 0 < v'.count p :=
  visits.count_pos (alike.pending ▸ held) (fun done => absurd done (alike.not_finished fresh))
    (brings.finished alike visits)

/-! ### The whole walk -/

theorem Walk.ofEntry_count (source : σ) (entry : Archive) (p : String) : (Walk.ofEntry source entry).count p = 0 := rfl

theorem Walk.ofEntry_listed (source : σ) (entry : Archive) : (Walk.ofEntry source entry).Listed :=
  fun p _ => ofEntry_count source entry p

/-- How often a successful walk with the entry package links the import path. -/
theorem count_of_ofEntry {order : List Archive} {final : Walk σ}
    (succeeds : ofEntry loader runtime entry source = (.ok order, final)) :
    ∃ w, Visits loader (rootPaths runtime entry) (.ofEntry source entry) w ∧
      ∀ p, (order.map (·.importPath)).count p = w.count p + if entry.importPath = p then 1 else 0 := by
  obtain ⟨w, visits, _, rfl⟩ := visits_of_ofEntry succeeds
  refine ⟨w, visits, fun p => ?_⟩
  rw [List.map_append, List.count_append, List.map_reverse, List.count_reverse, List.map_singleton,
    List.count_singleton, Walk.count]
  simp only [beq_iff_eq]

section

variable (visits : Visits loader (rootPaths runtime entry) (.ofEntry source entry) w)
include visits

/-- Counting the entry package, no import path is linked more than twice. -/
theorem Visits.total_le_two (p : String) : w.count p + (if entry.importPath = p then 1 else 0) ≤ 2 := by
  have listed := Walk.ofEntry_listed source entry
  split
  next same =>
    have held : p ∈ (Walk.ofEntry source entry).pending := List.mem_singleton.mpr same.symm
    exact Nat.succ_le_succ (visits.count_le_one_of_pending listed (Nat.zero_le 1) held)
  next => exact visits.count_le_two listed (Nat.zero_le 2)

/-- An import path that is linked twice was reloaded. -/
theorem Visits.reloads (twice : 2 ≤ w.count p + if entry.importPath = p then 1 else 0) :
    Reloads loader source runtime entry p := by
  by_cases same : entry.importPath = p
  · subst same
    rw [if_pos rfl] at twice
    refine .entry (visits.brings_of_count_ne fun none => ?_)
    rw [none, Walk.ofEntry_count] at twice
    contradiction
  · rw [if_neg same, Nat.add_zero] at twice
    by_contra never
    have listed := Walk.ofEntry_listed source entry
    have once : w.count p ≤ 1 := by
      refine visits.count_le_one listed (Nat.zero_le 1) fun u own next comes loads named again => never ?_
      subst named
      exact .package comes loads again
    omega

/-- An import path that was reloaded is linked twice. -/
theorem Reloads.two_le (reloads : Reloads loader source runtime entry p) :
    2 ≤ w.count p + if entry.importPath = p then 1 else 0 := by
  cases reloads with
  | entry again =>
    rw [if_pos rfl]
    exact Nat.succ_le_succ (again.count_pos (.refl _) visits List.mem_cons_self Std.TreeSet.contains_emptyc)
  | @package own next u comes loads again =>
    obtain ⟨u', inner, after, alike, imports, settled, grows⟩ := comes.settled loads (.refl _) visits
    have first := again.count_pos (alike.entering _ _) imports List.mem_cons_self loads.fresh
    have total := settled.count_eq own.importPath
    rw [if_pos ⟨rfl, .inl rfl⟩] at total
    have kept := grows.count own.importPath
    omega

end

/-- Whatever the loader serves, a successful walk links no import path more than twice, and one twice only if it is that
of the entry package, or of a package that was served under its own path, and another archive of that import path was
loaded while the imports of the package were visited. If that happens to none, no two archives have the same import
path. -/
theorem ofEntry_nodup_iff (loader : Loader σ ε) (runtime : String) (entry : Archive) (source : σ)
    (order : List Archive) (final : Walk σ) (succeeds : ofEntry loader runtime entry source = (.ok order, final)) :
    ((order.map (·.importPath)).Nodup ↔ ∀ p, ¬ Reloads loader source runtime entry p) ∧
    ∀ p, (order.map (·.importPath)).count p ≤ 2 ∧
      ((order.map (·.importPath)).count p = 2 ↔ Reloads loader source runtime entry p) := by
  obtain ⟨w, visits, total⟩ := count_of_ofEntry succeeds
  have most : ∀ p, (order.map (·.importPath)).count p ≤ 2 := fun p => total p ▸ visits.total_le_two p
  have twice : ∀ p, 2 ≤ (order.map (·.importPath)).count p ↔ Reloads loader source runtime entry p := by
    intro p
    rw [total p]
    exact ⟨visits.reloads, Reloads.two_le visits⟩
  refine ⟨?_, fun p => ⟨most p, ?_⟩⟩
  · rw [List.nodup_iff_count_le_one]
    refine forall_congr' fun p => ?_
    rw [← twice p, Nat.not_le, Nat.lt_succ_iff]
  · rw [← twice p]
    exact ⟨Nat.le_of_eq ∘ Eq.symm, Nat.le_antisymm (most p)⟩

namespace Masked

def package (path : String) (imports : List String) : Archive := { importPath := path, name := path, imports }

/-- One package is served under an alias too, and another one has the import path of the entry package. -/
def answer : String → Except Unit Archive
  | "runtime" => .ok (package "runtime" [])
  | "lib" | "alias" => .ok (package "lib" ["runtime"])
  | "mask" => .ok (package "main" [])
  | _ => .error ()

def store : Loader Unit Unit where
  load path state := (answer path, state)
  capacity := 4

theorem order_alias : (ofEntry store "runtime" (package "main" ["alias", "lib"]) ()).1 =
    .ok [package "runtime" [], package "lib" ["runtime"], package "main" ["alias", "lib"]] := by
  decide +kernel

theorem order_mask : (ofEntry store "runtime" (package "main" ["mask"]) ()).1 =
    .ok [package "runtime" [], package "main" [], package "main" ["mask"]] := by
  decide +kernel

end Masked

open Masked in
/-- An alias does no harm, and a mask does: `main` is loaded while it is pending. -/
theorem ofEntry_nodup_iff_masked :
    (∃ order final, ofEntry store "runtime" (package "main" ["alias", "lib"]) () = (.ok order, final)) ∧
    (∀ p, ¬ Reloads store () "runtime" (package "main" ["alias", "lib"]) p) ∧
    Reloads store () "runtime" (package "main" ["mask"]) "main" := by
  have succeeds : ofEntry store "runtime" (package "main" ["alias", "lib"]) () = (.ok _, _) :=
    Prod.ext order_alias rfl
  obtain ⟨distinct, -⟩ := ofEntry_nodup_iff store "runtime" (package "main" ["alias", "lib"]) () _ _ succeeds
  obtain ⟨-, counts⟩ := ofEntry_nodup_iff store "runtime" (package "main" ["mask"]) () _ _ (Prod.ext order_mask rfl)
  exact ⟨⟨_, _, succeeds⟩, distinct.mp (by decide), (counts "main").2.mp (by decide)⟩

open Masked in
/-- A loader that serves `main` under another path has it linked twice. -/
theorem ofEntry_not_nodup :
    ¬ ∀ (loader : Loader Unit Unit) (runtime : String) (entry : Archive) (order : List Archive),
      (ofEntry loader runtime entry ()).1 = .ok order → (order.map (·.importPath)).Nodup := by
  intro distinct
  exact absurd (distinct _ _ _ _ order_mask) (by decide)

end Linkage.LinkOrder
