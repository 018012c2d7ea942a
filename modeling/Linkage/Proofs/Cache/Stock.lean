import Linkage.Proofs.Cache.Loading

/-!
# Loads that cannot fail

If nothing that is stored depends on what is installed, each load finds what is stored for its path and nothing else:
which imports are loaded with it, which of them are missing and which lead back does not matter.
-/
namespace Linkage

namespace Archive

/-- Nothing that another package needs to be installed for, a position table in order, and an encoding that fits into
memory. -/
structure SelfContained (a : Archive) : Prop where
  interface : a.exportData = [] ∨ ∃ i, Interface.decode a.exportData = .ok i ∧ i.imports = [] ∧
    ∀ reference ∈ i.references, reference.1 = a.importPath ∨ reference.1 = i.path
  inOrder : ∀ t ∈ a.positions, t.check = .ok ()
  fits : a.encode.length < 2 ^ 64

namespace SelfContained

variable {a : Archive}

theorem read_encode (selfContained : a.SelfContained) (path : String) : read path { data := a.encode } = .ok a := by
  have restored := Archive.read_encode selfContained.inOrder selfContained.fits path [] none
  rwa [List.append_nil] at restored

/-- An archive that needs nothing of other packages can be installed anywhere. -/
theorem install (selfContained : a.SelfContained) (m : Registry) : ∃ m', m.install a.importPath a = .ok m' := by
  have linked : ∃ p, Package.ofExportData a.importPath a.name a.exportData m = .ok p := by
    by_cases none : a.exportData = []
    · exact ⟨_, Package.ofExportData_eq_ok_iff.mpr (.inl ⟨none, rfl⟩)⟩
    · obtain ⟨i, decoded, noImports, own⟩ := selfContained.interface.resolve_left none
      let p : Package := { path := a.importPath, name := i.name, members := i.members }
      have linked : p.LinkedFrom a.importPath i m :=
        ⟨rfl, rfl, rfl, by rw [noImports]; rfl, fun reference member => (own reference member).imp_right .inl⟩
      exact ⟨p, Package.ofExportData_eq_ok_iff.mpr (.inr ⟨none, i, decoded, linked⟩)⟩
  obtain ⟨p, built⟩ := linked
  exact ⟨_, Registry.install_eq_ok_iff.mpr ⟨p, built, rfl⟩⟩

end SelfContained
end Archive

namespace Cache

/-- For each of the paths there is nothing, or an archive that can be installed beside whatever is installed. The
archives import nothing but these paths. -/
structure Stocked (c : Cache) (d : Disk) (stock : String → Option Archive) (used : List String) : Prop where
  stored : ∀ path ∈ used,
    (c.stream? d path = none ∧ stock path = none) ∨ ∃ a, c.Holds d path a ∧ stock path = some a
  installs : ∀ path a, stock path = some a → ∀ m : Registry, ∃ m', m.install path a = .ok m'
  imports : ∀ path a, stock path = some a → ∀ imported ∈ a.imports, imported ∈ used

variable {c : Cache} {d : Disk} {stock : String → Option Archive} {used : List String} {path : String} {a : Archive}

/-- A cache holds one archive under a path. -/
theorem Holds.eq {b : Archive} (holds : c.Holds d path a) (other : c.Holds d path b) : a = b := by
  obtain ⟨s, stored, decoded⟩ := holds
  obtain ⟨s', stored', decoded'⟩ := other
  cases stored.symm.trans stored'
  cases decoded.symm.trans decoded'
  rfl

namespace Stocked

/-- A directory of plain encodings is stocked. -/
theorem of_selfContained
    (stored : ∀ path ∈ used, c.stream? d path = (stock path).map fun a => { data := a.encode })
    (sound : ∀ path (a : Archive), stock path = some a →
      a.importPath = path ∧ a.SelfContained ∧ ∀ imported ∈ a.imports, imported ∈ used) : Stocked c d stock used where
  stored path member := by
    have streamed := stored path member
    cases found : stock path with
    | none =>
      rw [found] at streamed
      exact .inl ⟨streamed, rfl⟩
    | some a =>
      rw [found] at streamed
      obtain ⟨own, selfContained, -⟩ := sound path a found
      exact .inr ⟨a, ⟨_, streamed, decode_eq_ok_iff.mpr ⟨selfContained.read_encode path, own⟩⟩, rfl⟩
  installs path a found m := by
    obtain ⟨rfl, selfContained, -⟩ := sound path a found
    exact selfContained.install m
  imports path a found := (sound path a found).2.2

theorem of_missing (stocked : Stocked c d stock used) (member : path ∈ used) (missing : c.stream? d path = none) :
    stock path = none := by
  rcases stocked.stored path member with ⟨-, none⟩ | ⟨a, ⟨s, streamed, -⟩, -⟩
  · exact none
  · rw [missing] at streamed
    cases streamed

/-- What the cache holds is what the stock says. -/
theorem of_holds (stocked : Stocked c d stock used) (member : path ∈ used) (holds : c.Holds d path a) :
    stock path = some a := by
  rcases stocked.stored path member with ⟨missing, -⟩ | ⟨b, held, found⟩
  · obtain ⟨s, streamed, -⟩ := holds
    rw [missing] at streamed
    cases streamed
  · rw [holds.eq held, found]

/-- No entry of a stocked cache is refused. -/
theorem not_refused (stocked : Stocked c d stock used) (member : path ∈ used) {s : Stream} {e : Error}
    (streamed : c.stream? d path = some s) : decode path s ≠ .error e := by
  rcases stocked.stored path member with ⟨missing, -⟩ | ⟨b, ⟨s', streamed', decoded⟩, -⟩
  · rw [missing] at streamed
    cases streamed
  · cases streamed.symm.trans streamed'
    rw [decoded]
    exact nofun

mutual

/-- No load fails, and each finds what is stored for its path. -/
theorem answer_eq (stocked : Stocked c d stock used) {loading : List String} {path : String} {i after : Installation}
    {answer : Except Error (Option Archive)} (member : path ∈ used) :
    Loads c d loading path i answer after → answer = .ok (stock path)
  | .miss missing => by rw [stocked.of_missing member missing]
  | .refused streamed refused => absurd refused (stocked.not_refused member streamed)
  | .stopped holds imports => by
    have found := stocked.of_holds member holds
    have done := stocked.answers_eq (stocked.imports path _ found) imports
    cases done
  | .unlinked holds _ unlinked => by
    obtain ⟨m, installed⟩ := stocked.installs path _ (stocked.of_holds member holds) _
    rw [installed] at unlinked
    cases unlinked
  | .installed holds _ _ => by rw [stocked.of_holds member holds]

theorem answers_eq (stocked : Stocked c d stock used) {loading paths : List String} {i after : Installation}
    {answer : Except Error Unit} (members : ∀ path ∈ paths, path ∈ used) :
    LoadsAll c d loading paths i answer after → answer = .ok ()
  | .nil => rfl
  | .skip _ later => stocked.answers_eq (List.forall_mem_cons.mp members).2 later
  | .load _ _ later => stocked.answers_eq (List.forall_mem_cons.mp members).2 later
  | .stopped _ first => by
    have found := stocked.answer_eq (List.forall_mem_cons.mp members).1 first
    cases found

end

/-- A load of a stocked cache answers with the stock, at once or after its imports. -/
theorem load_eq (stocked : Stocked c d stock used) (member : path ∈ used) (m : Registry) :
    (c.load d path m).1 = .ok (stock path) :=
  stocked.answer_eq member (c.loads_load d path m)

end Stocked
end Cache
end Linkage
