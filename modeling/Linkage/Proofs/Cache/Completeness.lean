import Linkage.Proofs.Cache.Answers
import Linkage.Proofs.Cache.Effects
import Linkage.Proofs.Interface.Faults
import Linkage.Proofs.Interface.RoundTrip
import Mathlib.Logic.Relation

/-!
# Loads from a complete cache

A cache is complete if all that its packages import is stored too, no package imports itself through others, and an
interface refers only to packages behind those imports, and to members that they list. Each package can be loaded from
such a cache, after whatever has been loaded from it before. An import that is installed already is passed over, and
what it imports with it; nothing is missed by that, since what is installed was loaded together with its own imports.
-/
namespace Linkage.Cache

open Relation (TransGen ReflTransGen)

section Stock

variable {c : Cache} {d : Disk} {stock : String → Option Archive} {path q package name : String} {a : Archive}

/-- The first package imports the second one. -/
def Imports (stock : String → Option Archive) (path q : String) : Prop :=
  ∃ a, stock path = some a ∧ q ∈ a.imports

/-- The interface of a stored package lists a member of that name. -/
def Lists (stock : String → Option Archive) (package name : String) : Prop :=
  ∃ a i, stock package = some a ∧ Interface.decode a.exportData = .ok i ∧ ∃ o ∈ i.members, o.name = name

/-- The interface that the data holds can be linked under the path once all that the path imports is installed. -/
def Linkable (stock : String → Option Archive) (path : String) (data : Bytes) : Prop :=
  data = [] ∨ ∃ i, Interface.decode data = .ok i ∧ (∀ q ∈ i.imports, TransGen (Imports stock) path q) ∧
    ∀ o ∈ i.members, ∀ package name, o.type.Names package name →
      package = path ∨ package = i.path ∨ TransGen (Imports stock) path package ∧ Lists stock package name

/-- The archives of a stock, which can all be read back and linked, one behind the other. -/
structure Complete (stock : String → Option Archive) : Prop where
  acyclic : ∀ path, ¬ TransGen (Imports stock) path path
  imports : ∀ path q, Imports stock path q → ∃ a, stock q = some a
  importPath : ∀ path a, stock path = some a → a.importPath = path
  inOrder : ∀ path a, stock path = some a → ∀ t ∈ a.positions, t.check = .ok ()
  linkable : ∀ path a, stock path = some a → Linkable stock path a.exportData
  fits : ∀ path a, stock path = some a → a.encode.length < 2 ^ 64

/-- The entry of each package of the stock is the encoding of its archive. -/
def Stores (c : Cache) (d : Disk) (stock : String → Option Archive) : Prop :=
  ∀ path a, stock path = some a → c.stream? d path = some { data := a.encode }

/-- The registry is empty, or loads of stored packages have filled it. -/
inductive Filled (c : Cache) (d : Disk) (stock : String → Option Archive) : Registry → Prop
  | empty : Filled c d stock .empty
  | load {m : Registry} {path : String} {a : Archive} (filled : Filled c d stock m) (stored : stock path = some a)
    (loaded : (c.load d path m).1 = .ok (some a)) : Filled c d stock (c.load d path m).2.packages

theorem Complete.stored_imports (complete : Complete stock) (stored : stock path = some a) :
    ∀ q ∈ a.imports, ∃ b, stock q = some b :=
  fun q member => complete.imports path q ⟨a, stored, member⟩

/-- What is stored can be decoded under its own path. -/
theorem Stores.holds (stores : Stores c d stock) (complete : Complete stock) (stored : stock path = some a) :
    c.Holds d path a := by
  refine ⟨_, stores path a stored, decode_eq_ok_iff.mpr ⟨?_, complete.importPath path a stored⟩⟩
  have read := Archive.read_encode (complete.inOrder path a stored) (complete.fits path a stored) path [] none
  rwa [List.append_nil] at read

/-- The cache holds the archives of the stock and no others in their place. -/
theorem Stores.stored_of_holds {b : Archive} (stores : Stores c d stock) (complete : Complete stock)
    (stored : stock path = some a) (holds : c.Holds d path b) : stock path = some b := by
  rw [holds.eq (stores.holds complete stored)]
  exact stored

/-! ### What is installed -/

/-- What is installed was linked from the stock, after all that it imports. -/
structure Faithful (stock : String → Option Archive) (m : Registry) : Prop where
  imports : ∀ path q, m.contains path = true → Imports stock path q → m.contains q = true
  members : ∀ path p i a, m.get? path = some p → stock path = some a → Interface.decode a.exportData = .ok i →
    p.members = i.members

namespace Faithful

variable {m m' : Registry}

theorem empty : Faithful stock .empty where
  imports path q present := by
    obtain ⟨p, found⟩ := Registry.contains_iff.mp present
    simp at found
  members path p i a found := by simp at found

/-- A faithful registry is closed under imports. -/
theorem contains_of_reached (faithful : Faithful stock m) (present : m.contains path = true)
    (reached : ReflTransGen (Imports stock) path q) : m.contains q = true := by
  induction reached with
  | refl => exact present
  | tail _ imports ih => exact faithful.imports _ _ ih imports

/-- An installed package exports what its archive lists. -/
theorem exports (faithful : Faithful stock m) (present : m.contains package = true) (lists : Lists stock package name) :
    m.Exports package name := by
  obtain ⟨p, found⟩ := Registry.contains_iff.mp present
  obtain ⟨a, i, stored, decoded, o, listed, named⟩ := lists
  refine ⟨p, found, ?_⟩
  rw [Package.lookup?, List.find?_isSome]
  refine ⟨o, ?_, decide_eq_true named⟩
  rw [List.mem_reverse, faithful.members package p i a found stored decoded]
  exact listed

/-- Once the imports of a package are installed, so is all that is behind them. -/
theorem contains_of_behind (faithful : Faithful stock m) (stored : stock path = some a)
    (imported : ∀ q ∈ a.imports, m.contains q = true) (behind : TransGen (Imports stock) path q) :
    m.contains q = true := by
  obtain ⟨first, ⟨b, found, member⟩, reached⟩ := TransGen.head'_iff.mp behind
  cases stored.symm.trans found
  exact faithful.contains_of_reached (imported first member) reached

/-- Installing an archive behind its imports keeps the registry faithful. -/
theorem installed (faithful : Faithful stock m) (stored : stock path = some a)
    (imported : ∀ q ∈ a.imports, m.contains q = true) (done : m.install path a = .ok m') : Faithful stock m' where
  imports path' q present imports := by
    apply contains_install_of_contains done
    rcases contains_of_install done present with rfl | before
    · obtain ⟨b, found, member⟩ := imports
      cases stored.symm.trans found
      exact imported q member
    · exact faithful.imports path' q before imports
  members path' p i b found stored' decoded := by
    by_cases here : path' = path
    · subst here
      cases stored.symm.trans stored'
      obtain ⟨p', built, rfl⟩ := Registry.install_eq_ok_iff.mp done
      rw [Registry.get?_insert, if_pos (Package.path_of_ofExportData built)] at found
      cases found
      rcases Package.ofExportData_eq_ok_iff.mp built with ⟨none, -⟩ | ⟨-, j, decoded', linked⟩
      · exact absurd none (Interface.ne_nil_of_decode decoded)
      · cases decoded.symm.trans decoded'
        exact linked.members
    · rw [get?_install done here] at found
      exact faithful.members path' p i b found stored' decoded

/-- A package can be installed once its imports are. -/
theorem exists_install (faithful : Faithful stock m) (complete : Complete stock) (stored : stock path = some a)
    (imported : ∀ q ∈ a.imports, m.contains q = true) : ∃ m', m.install path a = .ok m' := by
  rw [Registry.exists_install_iff]
  refine (complete.linkable path a stored).imp_right ?_
  rintro ⟨i, decoded, imports, references⟩
  refine ⟨i, decoded, fun q member => ?_, fun o listed package name names => ?_⟩
  · exact faithful.contains_of_behind stored imported (imports q member)
  · refine (references o listed package name names).imp_right (Or.imp_right ?_)
    rintro ⟨behind, lists⟩
    exact faithful.exports (faithful.contains_of_behind stored imported behind) lists

end Faithful

/-! ### Loads -/

theorem contains_install_iff {m m' : Registry} (done : m.install path a = .ok m') :
    m'.contains q = true ↔ q = path ∨ m.contains q = true := by
  refine ⟨contains_of_install done, ?_⟩
  rintro (rfl | before)
  · exact contains_install done
  · exact contains_install_of_contains done before

/-- What a package reaches is itself and what its imports reach. -/
theorem reached_iff (stored : stock path = some a) :
    ReflTransGen (Imports stock) path q ↔ q = path ∨ ∃ p ∈ a.imports, ReflTransGen (Imports stock) p q := by
  rw [ReflTransGen.cases_head_iff, eq_comm]
  refine or_congr_right ⟨?_, ?_⟩
  · rintro ⟨p, ⟨b, found, member⟩, reached⟩
    cases stored.symm.trans found
    exact ⟨p, member, reached⟩
  · rintro ⟨p, member, reached⟩
    exact ⟨p, ⟨a, stored, member⟩, reached⟩

/-- What is on its way when a package is loaded is also above all that the package imports. -/
theorem above_imports {loading : List String} (stored : stock path = some a)
    (above : ∀ p ∈ loading, TransGen (Imports stock) p path) :
    ∀ p ∈ path :: loading, ∀ q ∈ a.imports, TransGen (Imports stock) p q := by
  refine List.forall_mem_cons.mpr ⟨fun q member => ?_, fun p held q member => ?_⟩
  · exact .single ⟨a, stored, member⟩
  · exact (above p held).tail ⟨a, stored, member⟩

mutual

/-- The load of a stored package succeeds, and installs it and all that it imports. -/
theorem Loads.complete (stores : Stores c d stock) (complete : Complete stock) {loading : List String} {path : String}
    {a : Archive} {i after : Installation} {answer : Except Error (Option Archive)} (stored : stock path = some a)
    (above : ∀ p ∈ loading, TransGen (Imports stock) p path) (faithful : Faithful stock i.packages) :
    Loads c d loading path i answer after → answer = .ok (some a) ∧ Faithful stock after.packages ∧
      ∀ q, after.packages.contains q = true ↔
        i.packages.contains q = true ∨ ReflTransGen (Imports stock) path q
  | .miss missing => by
    rw [stores path a stored] at missing
    cases missing
  | .refused found refused => by
    obtain ⟨s, found', decoded⟩ := stores.holds complete stored
    cases found.symm.trans found'
    cases decoded.symm.trans refused
  | .stopped holds imports => by
    have own := stores.stored_of_holds complete stored holds
    have begun : Faithful stock (i.noting path).packages := faithful
    have within := imports.complete stores complete (complete.stored_imports own) (above_imports own above) begun
    cases within.1
  | .unlinked holds imports unlinked => by
    have own := stores.stored_of_holds complete stored holds
    have begun : Faithful stock (i.noting path).packages := faithful
    obtain ⟨-, kept, present⟩ :=
      imports.complete stores complete (complete.stored_imports own) (above_imports own above) begun
    obtain ⟨m, installed⟩ := kept.exists_install complete own fun q member => (present q).mpr (.inr ⟨q, member, .refl⟩)
    cases unlinked.symm.trans installed
  | .installed holds imports installed => by
    have own := stores.stored_of_holds complete stored holds
    have begun : Faithful stock (i.noting path).packages := faithful
    obtain ⟨-, kept, present⟩ :=
      imports.complete stores complete (complete.stored_imports own) (above_imports own above) begun
    refine ⟨congrArg _ (own.symm.trans stored), ?_, fun q => ?_⟩
    · exact kept.installed own (fun q member => (present q).mpr (.inr ⟨q, member, .refl⟩)) installed
    · rw [contains_install_iff installed, present, reached_iff own]
      exact or_left_comm

/-- The load of stored imports succeeds, and installs them and all that they import. -/
theorem LoadsAll.complete (stores : Stores c d stock) (complete : Complete stock) {loading paths : List String}
    {i after : Installation} {answer : Except Error Unit} (stored : ∀ p ∈ paths, ∃ a, stock p = some a)
    (above : ∀ p ∈ loading, ∀ q ∈ paths, TransGen (Imports stock) p q) (faithful : Faithful stock i.packages) :
    LoadsAll c d loading paths i answer after → answer = .ok () ∧ Faithful stock after.packages ∧
      ∀ q, after.packages.contains q = true ↔
        i.packages.contains q = true ∨ ∃ p ∈ paths, ReflTransGen (Imports stock) p q
  | .nil => ⟨rfl, faithful, by simp⟩
  | @LoadsAll.skip _ _ loading rest path _ _ _ known later => by
    rw [List.forall_mem_cons] at stored
    have present : i.packages.contains path = true := by
      -- An import that is on its way would import itself.
      refine known.resolve_right fun held => complete.acyclic path ?_
      exact above path held path List.mem_cons_self
    obtain ⟨done, kept, contains⟩ := later.complete stores complete stored.2
      (fun p held q member => above p held q (List.mem_cons_of_mem path member)) faithful
    refine ⟨done, kept, fun q => ?_⟩
    rw [contains, List.exists_mem_cons_iff, ← or_assoc]
    refine or_congr_left (or_iff_left_of_imp fun reached => ?_).symm
    exact faithful.contains_of_reached present reached
  | @LoadsAll.load _ _ loading rest path _ _ _ _ _ unknown first later => by
    rw [List.forall_mem_cons] at stored
    obtain ⟨a, own⟩ := stored.1
    obtain ⟨-, kept, contains⟩ :=
      first.complete stores complete own (fun p held => above p held path List.mem_cons_self) faithful
    obtain ⟨done, kept', contains'⟩ := later.complete stores complete stored.2
      (fun p held q member => above p held q (List.mem_cons_of_mem path member)) kept
    refine ⟨done, kept', fun q => ?_⟩
    rw [contains', contains, List.exists_mem_cons_iff, or_assoc]
  | @LoadsAll.stopped _ _ loading rest path _ _ _ unknown first => by
    rw [List.forall_mem_cons] at stored
    obtain ⟨a, own⟩ := stored.1
    have failed := first.complete stores complete own (fun p held => above p held path List.mem_cons_self) faithful
    cases failed.1

end

/-- Loads of stored packages keep the registry faithful, so any sequence of them may come first. -/
theorem Filled.faithful {m : Registry} (stores : Stores c d stock) (complete : Complete stock)
    (filled : Filled c d stock m) : Faithful stock m := by
  induction filled with
  | empty => exact .empty
  | load filled stored loaded ih =>
    exact ((c.loads_load d _ _).complete stores complete stored (List.forall_mem_nil _) ih).2.1

/-- From a complete cache each package can be loaded, whatever has been loaded from it before. The load gives the stored
archive, and what is installed after it is what was installed before, the package, and all that it imports, at once or
through others. -/
theorem load_of_complete {m : Registry} (stores : Stores c d stock) (complete : Complete stock)
    (filled : Filled c d stock m) (stored : stock path = some a) :
    (c.load d path m).1 = .ok (some a) ∧ ∀ q, (c.load d path m).2.packages.contains q = true ↔
      m.contains q = true ∨ q = path ∨ TransGen (Imports stock) path q := by
  obtain ⟨answer, -, contains⟩ :=
    (c.loads_load d path m).complete stores complete stored (List.forall_mem_nil _) (filled.faithful stores complete)
  refine ⟨answer, fun q => ?_⟩
  rw [contains, Relation.reflTransGen_iff_eq_or_transGen]

end Stock

namespace Indirect

def baseInterface : Interface where
  path := "base"
  name := "base"
  members := [⟨"Node", .type, .pointer (.named "base" "Node")⟩]

/-- The consumer refers to a member of base, which it imports through list only. -/
def consumerInterface : Interface where
  path := "consumer"
  name := "consumer"
  imports := ["base"]
  members := [⟨"Head", .var, .slice (.named "base" "Node")⟩]

def base : Archive where
  importPath := "base"
  name := "base"
  exportData := baseInterface.encode

def list : Archive where
  importPath := "list"
  name := "list"
  imports := ["base"]
  positions := some ⟨#[⟨"f.src", 1, 5, #[0, 3]⟩]⟩

def consumer : Archive where
  importPath := "consumer"
  name := "consumer"
  imports := ["list"]
  exportData := consumerInterface.encode

def calls : List Call := [.openAs "1", .put consumer, .put list, .put base]

def opened : Cache × Disk := afterCalls ({ dir := "c" }, Reopened.made) calls

def stock (path : String) : Option Archive := (Shelf.after {} calls).archives[path]?

def height (path : String) : Nat := if path = "consumer" then 2 else if path = "list" then 1 else 0

theorem stored_consumer : stock "consumer" = some consumer := by
  simp [stock, Shelf.after, calls, Shelf.answer, consumer, list, base, Std.TreeMap.getElem_insert]

theorem stored_list : stock "list" = some list := by
  simp [stock, Shelf.after, calls, Shelf.answer, consumer, list, base, Std.TreeMap.getElem_insert]

theorem stored_base : stock "base" = some base := by
  simp [stock, Shelf.after, calls, Shelf.answer, consumer, list, base]

theorem stored {path : String} {a : Archive} (found : stock path = some a) :
    a.importPath = path ∧ (a = consumer ∨ a = list ∨ a = base) := by
  refine ((Shelf.filledBy_after calls).put path a found).imp_right fun put => ?_
  simpa [calls] using put

theorem lower_of_imports {path q : String} (imports : Imports stock path q) : height q < height path := by
  obtain ⟨a, found, member⟩ := imports
  obtain ⟨rfl, rfl | rfl | rfl⟩ := stored found <;> simp_all [consumer, list, base, height]

/-- Imports lower the height, so no package of this stock is behind itself. -/
theorem lower {path q : String} (behind : TransGen (Imports stock) path q) : height q < height path := by
  induction behind with
  | single imports => exact lower_of_imports imports
  | tail _ imports ih => exact Nat.lt_trans (lower_of_imports imports) ih

theorem stores : Stores opened.1 opened.2 stock := by
  have distinct : Distinct calls := by
    have among : calls.flatMap Call.paths ⊆ ["consumer", "list", "base"] := by decide
    exact distinct_of_nodup among (by decide +kernel)
  have roomy : ({ dir := "c" } : Cache).Roomy := by
    unfold Roomy
    decide +kernel
  have trimmed : ∀ version, .openAs version ∈ calls → Text.trim version = version := by
    intro version member
    obtain rfl : version = "1" := by simpa [calls] using member
    decide +kernel
  obtain ⟨filled, sameDir, keeps⟩ :=
    keeps_after Reopened.begins.keeps roomy distinct trimmed calls (List.Subset.refl calls)
  have tells := tells_of_filledBy distinct (List.Subset.refl calls) filled
  intro path a found
  have roomy' : opened.1.Roomy := by
    rw [Roomy, archives, opened, sameDir]
    exact roomy
  rw [opened, keeps.stream?_eq roomy' tells (tells.used path a found)]
  exact congrArg _ found

theorem imports_base : TransGen (Imports stock) "consumer" "base" :=
  .tail (.single ⟨consumer, stored_consumer, List.mem_singleton_self _⟩) ⟨list, stored_list, List.mem_singleton_self _⟩

theorem complete : Complete stock where
  acyclic path circular := Nat.lt_irrefl _ (lower circular)
  imports path q imports := by
    obtain ⟨a, found, member⟩ := imports
    obtain ⟨-, rfl | rfl | rfl⟩ := stored found
    · obtain rfl := List.mem_singleton.mp member
      exact ⟨list, stored_list⟩
    · obtain rfl := List.mem_singleton.mp member
      exact ⟨base, stored_base⟩
    · cases member
  importPath path a found := (stored found).1
  inOrder path a found := by
    obtain ⟨-, rfl | rfl | rfl⟩ := stored found
    · exact nofun
    · exact Archive.checkPositions_eq_ok.mp (by decide +kernel)
    · exact nofun
  linkable path a found := by
    have decoded : Interface.decode baseInterface.encode = .ok baseInterface :=
      Interface.decode_encode (by decide +kernel)
    have decoded' : Interface.decode consumerInterface.encode = .ok consumerInterface :=
      Interface.decode_encode (by decide +kernel)
    have lists : Lists stock "base" "Node" :=
      ⟨base, baseInterface, stored_base, decoded, _, List.mem_singleton_self _, rfl⟩
    obtain ⟨rfl, rfl | rfl | rfl⟩ := stored found
    · refine .inr ⟨consumerInterface, decoded', ?_, ?_⟩
      · exact List.forall_mem_singleton.mpr imports_base
      · refine List.forall_mem_singleton.mpr ?_
        rintro _ _ (_ | _ | ⟨⟨⟩⟩)
        exact .inr (.inr ⟨imports_base, lists⟩)
    · exact .inl rfl
    · refine .inr ⟨baseInterface, decoded, nofun, ?_⟩
      refine List.forall_mem_singleton.mpr ?_
      rintro _ _ (_ | ⟨⟨⟩⟩)
      exact .inl rfl
  fits path a found := by
    obtain ⟨-, rfl | rfl | rfl⟩ := stored found <;> decide +kernel

end Indirect

open Indirect in
/-- Package `list` is installed by an earlier load, and `base` comes along with it. -/
theorem load_of_complete_indirect :
    Stores opened.1 opened.2 stock ∧ Complete stock ∧ stock "consumer" = some consumer ∧
      Filled opened.1 opened.2 stock (opened.1.load opened.2 "list" .empty).2.packages ∧
      (opened.1.load opened.2 "consumer" (opened.1.load opened.2 "list" .empty).2.packages).1 = .ok (some consumer) := by
  have first := load_of_complete stores complete .empty stored_list
  have filled := Filled.empty.load stored_list first.1
  exact ⟨stores, complete, stored_consumer, filled, (load_of_complete stores complete filled stored_consumer).1⟩

end Linkage.Cache
