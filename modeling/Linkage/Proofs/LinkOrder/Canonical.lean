import Linkage.Proofs.LinkOrder.Visits
import Mathlib.Data.List.Chain
import Mathlib.Data.List.Nodup

/-!
# Link order from a canonical loader

A loader is canonical if an archive that it serves under any path is also what it serves under the archive's own import
path. A path may then be an alias of a package that is still being loaded. Such an alias never gets finished, because
its imports lead back to a pending path: no pending path is finished, and no archive is linked twice or lost.
-/
namespace Linkage.LinkOrder

variable {σ ε : Type} {serve : String → Except ε Archive} {entry : Archive}

def Serves (loader : Loader σ ε) (serve : String → Except ε Archive) : Prop :=
  ∀ path state, (loader.load path state).1 = serve path

def Canonical (serve : String → Except ε Archive) : Prop :=
  ∀ path archive, serve path = .ok archive → serve archive.importPath = .ok archive

/-- No archive has the import path of the entry package, unless it is served under that path. -/
def Unaliased (serve : String → Except ε Archive) (entry : Archive) : Prop :=
  ∀ path archive, serve path = .ok archive → archive.importPath = entry.importPath → path = entry.importPath

inductive Reachable (serve : String → Except ε Archive) (roots : List String) : String → Prop
  | root {path : String} (member : path ∈ roots) : Reachable serve roots path
  | step {path imported : String} {archive : Archive} (reachable : Reachable serve roots path)
      (served : serve path = .ok archive) (imports : imported ∈ archive.imports) : Reachable serve roots imported

theorem Reachable.mono {roots more : List String} {path : String} (subset : ∀ p ∈ roots, Reachable serve more p)
    (reachable : Reachable serve roots path) : Reachable serve more path := by
  induction reachable with
  | root member => exact subset _ member
  | step _ served imports ih => exact .step ih served imports

/-- Linked archives, last one first: what each one imports is linked before it. -/
def Ordered (serve : String → Except ε Archive) : List Archive → Prop
  | [] => True
  | archive :: earlier => (∀ q ∈ archive.imports, ∃ b ∈ earlier, serve q = .ok b) ∧ Ordered serve earlier

namespace Ordered

theorem of_append {later earlier : List Archive} (ordered : Ordered serve (later ++ earlier)) :
    Ordered serve earlier := by
  induction later with
  | nil => exact ordered
  | cons _ _ ih => exact ih ordered.2

/-- The imports of a linked archive are linked, since each was linked before it. -/
theorem imports {linked : List Archive} {a : Archive} (ordered : Ordered serve linked) (member : a ∈ linked) :
    ∀ q ∈ a.imports, ∃ b ∈ linked, serve q = .ok b := by
  obtain ⟨later, earlier, rfl⟩ := List.append_of_mem member
  intro q imported
  obtain ⟨b, before, served⟩ := ordered.of_append.1 q imported
  exact ⟨b, List.mem_append_right later (List.mem_cons_of_mem a before), served⟩

/-- What can be reached from linked packages is linked. -/
theorem mem_of_reachable {linked : List Archive} (ordered : Ordered serve linked) {roots : List String}
    (start : ∀ r ∈ roots, ∃ b ∈ linked, serve r = .ok b) {path : String} (reachable : Reachable serve roots path) :
    ∃ b ∈ linked, serve path = .ok b := by
  -- Induction on the way to the path: each archive on it is linked, and so are its imports.
  induction reachable with
  | root member => exact start _ member
  | step _ served imported ih =>
    obtain ⟨b, member, same⟩ := ih
    rw [served] at same
    cases same
    exact ordered.imports member _ imported

/-- An archive does not reach itself: everything that its imports reach was linked before it. -/
theorem irrefl {linked : List Archive} {a : Archive} (ordered : Ordered serve linked)
    (distinct : (linked.map (·.importPath)).Nodup) (member : a ∈ linked) {path : String}
    (reachable : Reachable serve a.imports path) : serve path ≠ .ok a := by
  intro served
  -- All that the imports lead to is linked before the archive, and it is linked only once.
  obtain ⟨later, earlier, rfl⟩ := List.append_of_mem member
  obtain ⟨b, before, same⟩ := ordered.of_append.2.mem_of_reachable ordered.of_append.1 reachable
  rw [served] at same
  cases same
  rw [List.map_append, List.map_cons] at distinct
  exact (List.nodup_cons.mp (List.nodup_append.mp distinct).2.1).1 (List.mem_map_of_mem before)

end Ordered

/-- The pending paths, innermost first, import one another; what the entry package imports is not asked. -/
def Chained (serve : String → Except ε Archive) (entry : Archive) (pending : List String) : Prop :=
  pending.IsChain fun inner outer =>
    outer ≠ entry.importPath → ∃ archive, serve outer = .ok archive ∧ inner ∈ archive.imports

/-- What holds of a walk between any two of its visits. -/
structure Walk.Sound (serve : String → Except ε Archive) (w : Walk σ) : Prop where
  apart : ∀ p ∈ w.pending, w.finished.contains p = false
  listed : ∀ a ∈ w.linked, w.finished.contains a.importPath = true
  distinct : (w.linked.map (·.importPath)).Nodup
  served : ∀ p, w.finished.contains p = true → ∃ a ∈ w.linked, serve p = .ok a
  ordered : Ordered serve w.linked

/-- A pending path other than that of the entry package waits for an import that is pending too. -/
theorem Chained.exists_inner {path : String} {outer : List String} (chained : Chained serve entry (path :: outer))
    {p : String} (member : p ∈ outer) (other : p ≠ entry.importPath) :
    ∃ archive, serve p = .ok archive ∧ ∃ q ∈ archive.imports, q ∈ path :: outer := by
  induction outer generalizing path with
  | nil => cases member
  | cons next rest ih =>
    obtain ⟨link, chained⟩ := List.isChain_cons_cons.mp chained
    rcases List.mem_cons.mp member with rfl | deeper
    · obtain ⟨archive, served, imports⟩ := link other
      exact ⟨archive, served, path, imports, List.mem_cons_self⟩
    · obtain ⟨archive, served, q, imports, pending⟩ := ih chained deeper
      exact ⟨archive, served, q, imports, List.mem_cons_of_mem path pending⟩

namespace Walk.Sound

variable {inner after w w' : Walk σ} {path : String} {outer : List String} {archive : Archive}

/-- An archive served under a second path while its own path is pending would close a cycle, and all that it imports
is finished by then. -/
theorem importPath_not_pending (canonical : Canonical serve) (unaliased : Unaliased serve entry)
    (sound : inner.Sound serve) (pending : inner.pending = path :: outer)
    (chained : Chained serve entry (path :: outer)) (idle : path ∉ outer) (served : serve path = .ok archive)
    (imported : ∀ q ∈ archive.imports, inner.finished.contains q = true) : archive.importPath ∉ outer := by
  intro member
  by_cases same : archive.importPath = entry.importPath
  · exact idle ((unaliased path archive served same).trans same.symm ▸ member)
  -- The archive is what its own path serves, and that path is pending because of one of its imports. That import is
  -- then pending too, so it cannot be finished.
  · obtain ⟨twin, servedTwin, q, imports, held⟩ := chained.exists_inner member same
    rw [canonical path archive served] at servedTwin
    cases servedTwin
    have unfinished := sound.apart q (pending ▸ held)
    rw [imported q imports] at unfinished
    cases unfinished

theorem mem_settled (canonical : Canonical serve) (sound : inner.Sound serve) (served : serve path = .ok archive)
    (settled : Settled inner path outer archive after) : archive ∈ after.linked := by
  have own : serve archive.importPath = .ok archive := canonical path archive served
  rw [settled.linked]
  split
  next before =>
    obtain ⟨twin, linked, same⟩ := sound.served _ before.2
    rw [own] at same
    cases same
    exact linked
  next => exact List.mem_cons_self

theorem subset_settled (settled : Settled inner path outer archive after) : inner.linked ⊆ after.linked := by
  intro a linked
  rw [settled.linked]
  split
  next => exact linked
  next => exact List.mem_cons_of_mem archive linked

/-- An archive is linked for its own import path or for one that is not finished, so import paths stay distinct. -/
theorem settled_distinct (sound : inner.Sound serve) (unfinished : inner.finished.contains path = false)
    (settled : Settled inner path outer archive after) : (after.linked.map (·.importPath)).Nodup := by
  rw [settled.linked]
  split
  next => exact sound.distinct
  -- A namesake that was linked before has finished its path. The archive was then not requested under that path, which
  -- was pending, but under an alias; so it is not linked again.
  next new =>
    refine List.nodup_cons.mpr ⟨fun twice => ?_, sound.distinct⟩
    obtain ⟨a, linked, (same : a.importPath = archive.importPath)⟩ := List.mem_map.mp twice
    have finished : inner.finished.contains archive.importPath = true := same ▸ sound.listed a linked
    refine new ⟨fun direct => ?_, finished⟩
    rw [direct, unfinished] at finished
    cases finished

/-- The invariant survives the moment at which the innermost path is finished. -/
theorem settle (canonical : Canonical serve) (unaliased : Unaliased serve entry)
    (sound : inner.Sound serve) (pending : inner.pending = path :: outer)
    (chained : Chained serve entry (path :: outer)) (idle : path ∉ outer) (served : serve path = .ok archive)
    (imported : ∀ q ∈ archive.imports, inner.finished.contains q = true)
    (settled : Settled inner path outer archive after) : after.Sound serve where
  apart p held := by
    -- Both paths that get finished are pending no more.
    have elsewhere : archive.importPath ∉ outer :=
      importPath_not_pending canonical unaliased sound pending chained idle served imported
    rw [settled.pending] at held
    rw [Bool.eq_false_iff, Ne, settled.finished, not_or, not_or]
    exact ⟨fun same => idle (same ▸ held), fun same => elsewhere (same ▸ held),
      Bool.eq_false_iff.mp (sound.apart p (pending ▸ List.mem_cons_of_mem path held))⟩
  listed a linked := by
    rw [settled.finished]
    rw [settled.linked] at linked
    split at linked
    next => exact .inr (.inr (sound.listed a linked))
    next =>
      rcases List.mem_cons.mp linked with rfl | old
      · exact .inr (.inl rfl)
      · exact .inr (.inr (sound.listed a old))
  distinct := settled_distinct sound (sound.apart path (pending ▸ List.mem_cons_self)) settled
  served p finished := by
    have member := mem_settled canonical sound served settled
    rcases (settled.finished p).mp finished with rfl | rfl | old
    · exact ⟨archive, member, served⟩
    · exact ⟨archive, member, canonical path archive served⟩
    · obtain ⟨a, linked, same⟩ := sound.served p old
      exact ⟨a, subset_settled settled linked, same⟩
  ordered := by
    rw [settled.linked]
    split
    next => exact sound.ordered
    next => exact ⟨fun q imports => sound.served q (imported q imports), sound.ordered⟩

end Walk.Sound

/-- What visiting `paths` does to a sound walk. -/
structure Extends (serve : String → Except ε Archive) (paths : List String) (w w' : Walk σ) : Prop where
  sound : w'.Sound serve
  pending : w'.pending = w.pending
  finished : ∀ p, w.finished.contains p = true → w'.finished.contains p = true
  visited : ∀ path ∈ paths, w'.finished.contains path = true
  linked : ∃ added, w'.linked = added ++ w.linked ∧
    ∀ a ∈ added, ∃ path, Reachable serve paths path ∧ serve path = .ok a

namespace Extends

variable {path : String} {paths rest : List String} {w inner after w' : Walk σ} {archive : Archive}

theorem none (sound : w.Sound serve) : Extends serve [] w w :=
  ⟨sound, rfl, fun _ => id, by simp, [], rfl, by simp⟩

theorem skip (sound : w.Sound serve) (done : w.finished.contains path = true) : Extends serve [path] w w :=
  ⟨sound, rfl, fun _ => id, fun _ member => List.mem_singleton.mp member ▸ done, [], rfl, by simp⟩

theorem cons (first : Extends serve [path] w after) (later : Extends serve rest after w') :
    Extends serve (path :: rest) w w' where
  sound := later.sound
  pending := later.pending.trans first.pending
  finished p done := later.finished p (first.finished p done)
  visited p member := by
    rcases List.mem_cons.mp member with rfl | member
    · exact later.finished p (first.visited p List.mem_cons_self)
    · exact later.visited p member
  linked := by
    obtain ⟨early, linkedEarly, reachedEarly⟩ := first.linked
    obtain ⟨late, linkedLate, reachedLate⟩ := later.linked
    refine ⟨late ++ early, by rw [linkedLate, linkedEarly, List.append_assoc], fun a member => ?_⟩
    rcases List.mem_append.mp member with member | member
    · obtain ⟨p, reachable, served⟩ := reachedLate a member
      exact ⟨p, reachable.mono fun r root => .root (List.mem_cons_of_mem path root), served⟩
    · obtain ⟨p, reachable, served⟩ := reachedEarly a member
      exact ⟨p, reachable.mono fun r root => .root (List.mem_cons.mpr (.inl (List.mem_singleton.mp root))), served⟩

/-- Visiting a path that is not finished extends the walk by what its imports reach, and by its archive. -/
theorem load {source : σ} (canonical : Canonical serve) (unaliased : Unaliased serve entry)
    (imported : Extends serve archive.imports (w.entering path source) inner)
    (chained : Chained serve entry (path :: w.pending)) (idle : path ∉ w.pending) (served : serve path = .ok archive)
    (settled : Settled inner path w.pending archive after) : Extends serve [path] w after where
  sound := imported.sound.settle canonical unaliased imported.pending chained idle served imported.visited settled
  pending := settled.pending
  finished p done := (settled.finished p).mpr (.inr (.inr (imported.finished p done)))
  visited p member := (settled.finished p).mpr (.inl (List.mem_singleton.mp member))
  linked := by
    obtain ⟨added, linked, reached⟩ := imported.linked
    have deep : ∀ a ∈ added, ∃ p, Reachable serve [path] p ∧ serve p = .ok a := by
      intro a member
      obtain ⟨p, reachable, origin⟩ := reached a member
      exact ⟨p, reachable.mono fun q imports => .step (.root List.mem_cons_self) served imports, origin⟩
    rw [settled.linked]
    split
    next => exact ⟨added, linked, deep⟩
    next =>
      refine ⟨archive :: added, congrArg (archive :: ·) linked, fun a member => ?_⟩
      rcases List.mem_cons.mp member with rfl | member
      · exact ⟨path, .root List.mem_cons_self, served⟩
      · exact deep a member

end Extends

theorem Walk.Sound.entering {w : Walk σ} {path : String} (sound : w.Sound serve)
    (fresh : w.finished.contains path = false) (source : σ) : (w.entering path source).Sound serve where
  apart p held := by
    rcases List.mem_cons.mp held with rfl | held
    · exact fresh
    · exact sound.apart p held
  listed := sound.listed
  distinct := sound.distinct
  served := sound.served
  ordered := sound.ordered

theorem Chained.entering {path : String} {pending : List String} {archive : Archive}
    (chained : Chained serve entry (path :: pending)) (served : serve path = .ok archive) :
    ∀ q ∈ archive.imports, Chained serve entry (q :: path :: pending) := by
  intro q imports
  exact List.isChain_cons_cons.mpr ⟨fun _ => ⟨archive, served, imports⟩, chained⟩

/-- The main induction: a sequence of visits extends the walk by what the visited paths reach. -/
theorem Visits.extends {loader : Loader σ ε} (serves : Serves loader serve) (canonical : Canonical serve)
    (unaliased : Unaliased serve entry) {paths : List String} {w w' : Walk σ} (visits : Visits loader paths w w')
    (sound : w.Sound serve) (chained : ∀ path ∈ paths, Chained serve entry (path :: w.pending)) :
    Extends serve paths w w' := by
  -- Induction on the visits. Those of the imports start from a longer chain of pending paths.
  induction visits with
  | nil w => exact .none sound
  | @skip path rest w w' done later ih =>
    exact (Extends.skip sound done).cons (ih sound fun p member => chained p (List.mem_cons_of_mem path member))
  | @load path rest archive source w inner after w' fresh idle loaded imports settled later nested ih =>
    have served : serve path = .ok archive := by rw [← serves path w.source, loaded]
    have here := chained path List.mem_cons_self
    have imported := nested (sound.entering fresh source) (here.entering served)
    have first := imported.load canonical unaliased here idle served settled
    refine first.cons (ih first.sound fun p member => ?_)
    rw [settled.pending]
    exact chained p (List.mem_cons_of_mem path member)

/-! ### The runtime package -/

/-- A package that is visited first is linked right after all that its imports lead to, and nothing else. -/
theorem Visits.linked_of_first {loader : Loader σ ε} (serves : Serves loader serve) (canonical : Canonical serve)
    (unaliased : Unaliased serve entry) {path : String} {w w' : Walk σ} (visits : Visits loader [path] w w')
    (sound : w.Sound serve) (chained : Chained serve entry (path :: w.pending)) (empty : w.linked = [])
    (fresh : w.finished.contains path = false) :
    ∃ archive earlier, serve path = .ok archive ∧ w'.linked = archive :: earlier := by
  cases visits with
  | skip done later => rw [done] at fresh; cases fresh
  | @load _ _ archive source _ inner after _ _ idle loaded imports settled later =>
    cases later
    have served : serve path = .ok archive := by rw [← serves path w.source, loaded]
    have imported := imports.extends serves canonical unaliased (sound.entering fresh source) (chained.entering served)
    refine ⟨archive, inner.linked, served, ?_⟩
    rw [settled.linked]
    refine if_neg fun before => ?_
    -- An archive that is linked before would be reached from its own imports.
    obtain ⟨twin, linked, same⟩ := imported.sound.served _ before.2
    rw [canonical path archive served] at same
    cases same
    obtain ⟨added, all, reached⟩ := imported.linked
    obtain ⟨p, reachable, again⟩ := reached archive (by simpa [all, Walk.entering, empty] using linked)
    exact imported.sound.ordered.irrefl imported.sound.distinct linked reachable again

/-! ### The whole walk -/

theorem Walk.ofEntry_sound (serve : String → Except ε Archive) (source : σ) (entry : Archive) :
    (Walk.ofEntry source entry).Sound serve where
  apart _ _ := Std.TreeSet.contains_emptyc
  listed _ member := absurd member List.not_mem_nil
  distinct := .nil
  served _ finished := absurd finished (by rw [Walk.ofEntry, Std.TreeSet.contains_emptyc]; decide)
  ordered := trivial

theorem Walk.ofEntry_chained (serve : String → Except ε Archive) (source : σ) (entry : Archive) (path : String) :
    Chained serve entry (path :: (Walk.ofEntry source entry).pending) :=
  List.isChain_cons_cons.mpr ⟨fun other => absurd rfl other, List.isChain_singleton _⟩

/-- In the end exactly the archives that the roots reach are linked. -/
theorem Extends.mem_linked_iff {roots : List String} {source : σ} {w : Walk σ}
    (walked : Extends serve roots (.ofEntry source entry) w) (a : Archive) :
    a ∈ w.linked ↔ ∃ path, Reachable serve roots path ∧ serve path = .ok a := by
  constructor
  · intro member
    obtain ⟨added, linked, reached⟩ := walked.linked
    exact reached a (by simpa [linked, Walk.ofEntry] using member)
  · rintro ⟨path, reachable, served⟩
    have start : ∀ r ∈ roots, ∃ b ∈ w.linked, serve r = .ok b :=
      fun r root => walked.sound.served r (walked.visited r root)
    obtain ⟨b, member, same⟩ := walked.sound.ordered.mem_of_reachable start reachable
    rw [served] at same
    cases same
    exact member

theorem rootPaths_of_ne {runtime : String} (other : entry.importPath ≠ runtime) :
    rootPaths runtime entry = runtime :: entry.imports := if_pos other

theorem imports_subset_rootPaths (runtime : String) (entry : Archive) :
    ∀ q ∈ entry.imports, q ∈ rootPaths runtime entry := by
  intro q member
  unfold rootPaths
  split
  · exact List.mem_cons_of_mem runtime member
  · exact member

/-- Imports stand before their importer, for the entry package as well. -/
theorem Extends.imports_before {runtime : String} {source : σ} {w : Walk σ}
    (walked : Extends serve (rootPaths runtime entry) (.ofEntry source entry) w)
    {front back : List Archive} {a : Archive} (split : w.linked.reverse ++ [entry] = front ++ a :: back) :
    ∀ q ∈ a.imports, ∃ b ∈ front, serve q = .ok b := by
  intro q imports
  -- The archive is the entry package, whose imports are all visited, or one of those linked before it.
  rcases List.eq_nil_or_concat back with rfl | ⟨middle, last, rfl⟩
  · obtain ⟨same, rest⟩ := List.append_inj' split rfl
    cases rest
    have visited := walked.visited q (imports_subset_rootPaths runtime _ q imports)
    obtain ⟨b, member, served⟩ := walked.sound.served q visited
    exact ⟨b, same ▸ List.mem_reverse.mpr member, served⟩
  · rw [List.concat_eq_append, ← List.cons_append, ← List.append_assoc] at split
    obtain ⟨same, _⟩ := List.append_inj' split rfl
    have linked : w.linked = middle.reverse ++ a :: front.reverse := by
      rw [← List.reverse_inj, same]
      simp
    obtain ⟨b, member, served⟩ := (linked ▸ walked.sound.ordered).of_append.1 q imports
    exact ⟨b, List.mem_reverse.mp member, served⟩

/-- Only what the runtime package needs stands before it. -/
theorem Visits.runtime_first {loader : Loader σ ε} (serves : Serves loader serve) (canonical : Canonical serve)
    (unaliased : Unaliased serve entry) {runtime : String} {source : σ} {w : Walk σ}
    (visits : Visits loader (runtime :: entry.imports) (.ofEntry source entry) w) :
    ∃ earlier archive later, w.linked.reverse = earlier ++ archive :: later ∧ serve runtime = .ok archive ∧
      (∀ a, a ∈ earlier ++ [archive] ↔ ∃ path, Reachable serve [runtime] path ∧ serve path = .ok a) ∧
      (archive.imports = [] → earlier = []) := by
  -- What the visit of the runtime package links is a whole program of its own, and nothing is put before it later.
  obtain ⟨first, toFirst, rest⟩ := visits.split_cons
  have sound := Walk.ofEntry_sound serve source entry
  have chained := Walk.ofEntry_chained serve source entry
  have walked := toFirst.extends serves canonical unaliased sound fun path _ => chained path
  obtain ⟨archive, earlier, served, linked⟩ := toFirst.linked_of_first serves canonical unaliased sound
    (chained runtime) rfl Std.TreeSet.contains_emptyc
  have remaining := rest.extends serves canonical unaliased walked.sound fun path _ => walked.pending ▸ chained path
  obtain ⟨added, all, _⟩ := remaining.linked
  have reached : ∀ a, a ∈ archive :: earlier ↔ ∃ path, Reachable serve [runtime] path ∧ serve path = .ok a :=
    fun a => linked ▸ walked.mem_linked_iff a
  refine ⟨earlier.reverse, archive, added.reverse, by simp [all, linked], served, fun a => ?_, fun alone => ?_⟩
  · rw [← reached a]
    simp [or_comm]
  · -- Without imports, only the runtime package itself is reached.
    have only : ∀ path, Reachable serve [runtime] path → path = runtime := by
      intro path reachable
      induction reachable with
      | root member => exact List.mem_singleton.mp member
      | step _ again imports ih =>
        rw [ih, served] at again
        cases again
        rw [alone] at imports
        cases imports
    rw [List.reverse_eq_nil_iff, List.eq_nil_iff_forall_not_mem]
    intro a member
    obtain ⟨path, reachable, again⟩ := (reached a).mp (List.mem_cons_of_mem archive member)
    rw [only path reachable, served] at again
    cases again
    have distinct := walked.sound.distinct
    rw [linked, List.map_cons] at distinct
    exact (List.nodup_cons.mp distinct).1 (List.mem_map_of_mem member)

/-- With a canonical loader that serves no alias of the entry package, a successful walk links the entry package last,
after exactly the packages that imports lead to, each once and after all that it imports. The runtime package comes
first with what its imports lead to. -/
theorem ofEntry_order (serve : String → Except ε Archive) (loader : Loader σ ε) (runtime : String) (entry : Archive)
    (source : σ) (order : List Archive) (final : Walk σ) (serves : Serves loader serve)
    (canonical : Canonical serve) (unaliased : Unaliased serve entry)
    (succeeds : ofEntry loader runtime entry source = (.ok order, final)) :
    (order.map (·.importPath)).Nodup ∧
    (∀ front a back, order = front ++ a :: back → ∀ q ∈ a.imports, ∃ b ∈ front, serve q = .ok b) ∧
    ∃ others, order = others ++ [entry] ∧
      (∀ a, a ∈ others ↔ ∃ path, Reachable serve (rootPaths runtime entry) path ∧ serve path = .ok a) ∧
      (entry.importPath ≠ runtime → ∃ earlier archive later, others = earlier ++ archive :: later ∧
        serve runtime = .ok archive ∧
        (∀ a, a ∈ earlier ++ [archive] ↔ ∃ path, Reachable serve [runtime] path ∧ serve path = .ok a) ∧
        (archive.imports = [] → earlier = [])) := by
  obtain ⟨w, visits, pending, rfl⟩ := visits_of_ofEntry succeeds
  have walked := visits.extends serves canonical unaliased (Walk.ofEntry_sound serve source entry)
    fun path _ => Walk.ofEntry_chained serve source entry path
  refine ⟨?_, fun front a back split => walked.imports_before split, w.linked.reverse, rfl, fun a => ?_,
    fun other => ?_⟩
  -- The path of the entry package is pending until the end, so no archive of that path is linked before.
  · rw [List.map_append, List.map_reverse, List.map_singleton, ← List.reverse_cons, List.nodup_reverse]
    refine List.nodup_cons.mpr ⟨fun twice => ?_, walked.sound.distinct⟩
    obtain ⟨a, linked, (same : a.importPath = entry.importPath)⟩ := List.mem_map.mp twice
    have finished := walked.sound.listed a linked
    rw [same, walked.sound.apart entry.importPath (by simp [pending])] at finished
    cases finished
  · rw [List.mem_reverse]
    exact walked.mem_linked_iff a
  · rw [rootPaths_of_ne other] at visits
    exact visits.runtime_first serves canonical unaliased

namespace Aliased

def runtime : Archive := { importPath := "runtime", name := "runtime" }

def lib : Archive := { importPath := "lib", name := "lib", imports := ["runtime"] }

def main : Archive := { importPath := "main", name := "main", imports := ["alias", "lib"] }

def answer : String → Except Unit Archive
  | "runtime" => .ok runtime
  | "lib" | "alias" => .ok lib
  | _ => .error ()

def loader : Loader Unit Unit where
  load path state := (answer path, state)
  capacity := 3

end Aliased

open Aliased in
/-- Package `lib` is served under an alias as well, and is linked once. -/
theorem ofEntry_order_alias :
    Canonical answer ∧ Unaliased answer main ∧ (ofEntry loader "runtime" main ()).1 = .ok [runtime, lib, main] ∧
    ([runtime, lib, main].map (·.importPath)).Nodup ∧
    (∀ q ∈ main.imports, ∃ b ∈ [runtime, lib], answer q = .ok b) ∧
    ∃ others, [runtime, lib, main] = others ++ [main] ∧
      ∀ a, a ∈ others ↔ ∃ path, Reachable answer (rootPaths "runtime" main) path ∧ answer path = .ok a := by
  have canonical : Canonical answer := by
    intro path archive served
    unfold answer at served
    split at served <;> cases served <;> rfl
  have unaliased : Unaliased answer main := by
    intro path archive served same
    unfold answer at served
    split at served <;> cases served <;> exact absurd same (by decide)
  have succeeds : ofEntry loader "runtime" main () = (.ok [runtime, lib, main], (ofEntry loader "runtime" main ()).2) :=
    rfl
  obtain ⟨distinct, imports, others, split, reachable, -⟩ :=
    ofEntry_order answer loader "runtime" main () _ _ (fun _ _ => rfl) canonical unaliased succeeds
  exact ⟨canonical, unaliased, rfl, distinct, imports [runtime, lib] main [] rfl, others, split, reachable⟩

end Linkage.LinkOrder
