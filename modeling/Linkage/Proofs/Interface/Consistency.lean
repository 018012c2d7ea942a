import Linkage.Proofs.Interface.Installation
import Linkage.Proofs.Interface.RoundTrip

/-!
# Registries are consistent

Packages are installed one after the other, some from encoded archives, and an attempt can fail. As long as no path is
installed twice, the registry links each package to the packages as it holds them, and whatever a type refers to is
exported by an installed package, or the type belongs to the package itself.
-/
namespace Linkage

/-! ### References of types -/

/-- The type refers to a member of a package, at any depth. -/
inductive TypeExpr.Names : TypeExpr → String → String → Prop
  | named {package name : String} : Names (.named package name) package name
  | pointer {element : TypeExpr} {package name : String} (inner : Names element package name) :
    Names (.pointer element) package name
  | slice {element : TypeExpr} {package name : String} (inner : Names element package name) :
    Names (.slice element) package name
  | key {key value : TypeExpr} {package name : String} (inner : Names key package name) :
    Names (.map key value) package name
  | value {key value : TypeExpr} {package name : String} (inner : Names value package name) :
    Names (.map key value) package name
  | param {params results : List TypeExpr} {t : TypeExpr} {package name : String} (member : t ∈ params)
    (inner : Names t package name) : Names (.func params results) package name
  | result {params results : List TypeExpr} {t : TypeExpr} {package name : String} (member : t ∈ results)
    (inner : Names t package name) : Names (.func params results) package name

namespace TypeExpr

theorem referencesAll_eq (ts : List TypeExpr) : referencesAll ts = ts.flatMap references := by
  induction ts with
  | nil => rfl
  | cons t rest ih => rw [referencesAll, ih, List.flatMap_cons]

/-- What a type names anywhere inside of it is among its references. -/
theorem Names.mem_references {t : TypeExpr} {package name : String} (names : t.Names package name) :
    (package, name) ∈ t.references := by
  induction names with
  | named => exact List.mem_singleton_self _
  | pointer _ ih => exact ih
  | slice _ ih => exact ih
  | key _ ih => exact List.mem_append_left _ ih
  | value _ ih => exact List.mem_append_right _ ih
  | param member _ ih =>
    rw [references, referencesAll_eq, referencesAll_eq]
    exact List.mem_append_left _ (List.mem_flatMap_of_mem member ih)
  | result member _ ih =>
    rw [references, referencesAll_eq, referencesAll_eq]
    exact List.mem_append_right _ (List.mem_flatMap_of_mem member ih)

end TypeExpr

namespace Registry

variable {m m' : Registry} {p : Package} {a : Archive}

structure Consistent (m : Registry) : Prop where
  -- Every package is installed under its own path.
  path : ∀ path p, m.get? path = some p → p.path = path
  -- A package is linked to the packages that are installed now.
  imports : ∀ path p, m.get? path = some p → ∀ q ∈ p.imports, m.get? q.path = some q
  -- A type refers to its own package or to what an installed package exports.
  references : ∀ path p, m.get? path = some p → ∀ member ∈ p.members, ∀ package name,
    member.type.Names package name → package = p.path ∨ m.Exports package name

theorem consistent_empty : Consistent empty := by
  constructor <;> simp

/-- A package whose imports and references are there can be added without breaking anything. -/
theorem Consistent.insert (consistent : m.Consistent) (fresh : m.get? p.path = none)
    (imports : ∀ q ∈ p.imports, m.get? q.path = some q)
    (references : ∀ member ∈ p.members, ∀ package name, member.type.Names package name →
      package = p.path ∨ m.Exports package name) : (m.insert p).Consistent := by
  have more := extends_insert fresh
  have known (path : String) (q : Package) (found : (m.insert p).get? path = some q) :
      path = p.path ∧ q = p ∨ m.get? path = some q := by
    rw [get?_insert] at found
    split at found
    next same => exact .inl ⟨same.symm, (Option.some.inj found).symm⟩
    next => exact .inr found
  constructor
  · intro path q found
    rcases known path q found with ⟨rfl, rfl⟩ | old
    · rfl
    · exact consistent.path path q old
  · intro path q found r imported
    rcases known path q found with ⟨rfl, rfl⟩ | old
    · exact more r.path r (imports r imported)
    · exact more r.path r (consistent.imports path q old r imported)
  · intro path q found member listed package name names
    rcases known path q found with ⟨rfl, rfl⟩ | old
    · exact (references member listed package name names).imp_right more.exports
    · exact (consistent.references path q old member listed package name names).imp_right more.exports

/-- Export data is empty or carries the path that it is installed under. -/
def Carries (path : String) (data : Bytes) : Prop :=
  data = [] ∨ ∀ i, Interface.decode data = .ok i → i.path = path

/-- The encoding of an interface carries it, under its own import path. -/
theorem carries_encode {i : Interface} (small : i.encode.length < 2 ^ 64) : Carries i.path i.encode := by
  right
  intro j found
  cases (Interface.decode_encode small).symm.trans found
  rfl

/-- An installation that succeeds keeps the registry consistent. -/
theorem Consistent.install {path : String} (consistent : m.Consistent) (fresh : m.get? path = none)
    (carries : Carries path a.exportData) (installed : m.install path a = .ok m') : m'.Consistent := by
  obtain ⟨p, built, rfl⟩ := install_eq_ok_iff.mp installed
  rcases Package.ofExportData_eq_ok_iff.mp built with ⟨-, rfl⟩ | ⟨some_data, i, decoded, linked⟩
  · exact consistent.insert fresh (by simp) (by simp)
  · have own : i.path = path := carries.resolve_left some_data i decoded
    apply consistent.insert (by rw [linked.path]; exact fresh)
    · intro q imported
      -- The link is to what the registry holds for some path, and that is the path of the package.
      have member : some q ∈ i.imports.map m.get? := linked.imports ▸ List.mem_map_of_mem imported
      obtain ⟨path, -, found⟩ := List.mem_map.mp member
      rw [consistent.path path q found]
      exact found
    · intro member listed package name names
      have referred : (package, name) ∈ i.references :=
        List.mem_flatMap.mpr ⟨member, linked.members ▸ listed, names.mem_references⟩
      have resolved := linked.references (package, name) referred
      rw [own, ← or_assoc, or_self] at resolved
      rw [linked.path]
      exact resolved

/-! ### Sequences of calls -/

/-- A call to install a package: from an archive, or from data that an archive is read from first. -/
inductive Call where
  | install (path : String) (archive : Archive)
  | receive (path : String) (stream : Stream)

namespace Call

def path : Call → String
  | .install path _ | .receive path _ => path

/-- The archive that the call is about, if there is one in its data. -/
def archive? : Call → Option Archive
  | .install _ a => some a
  | .receive path s => (Archive.read path s).toOption

def perform (m : Registry) : Call → Except ArchiveFault Registry
  | .install path a => m.install path a
  | .receive path s => (·.2) <$> m.receive path s

/-- Each call that succeeds installs one archive, whether it read that from a stream or was given it. -/
theorem perform_eq_ok {call : Call} (done : call.perform m = .ok m') :
    ∃ a, call.archive? = some a ∧ m.install call.path a = .ok m' := by
  cases call with
  | install path a => exact ⟨a, rfl, done⟩
  | receive path s =>
    cases received : m.receive path s with
    | error fault => simp [perform, received, Functor.map, Except.map] at done
    | ok found =>
      obtain ⟨a, m''⟩ := found
      simp only [perform, received, Functor.map, Except.map, Except.ok.injEq] at done
      subst done
      obtain ⟨read, installed⟩ := receive_eq_ok_iff.mp received
      exact ⟨a, by rw [archive?, read]; rfl, installed⟩

end Call

/-- A registry that calls are made on, and the paths that they have installed so far, latest first. -/
structure Session where
  registry : Registry := .empty
  installed : List String := []

namespace Session

/-- The session after a call. One that fails changes nothing. -/
def after (s : Session) (call : Call) : Session :=
  match call.perform s.registry with
  | .ok registry => ⟨registry, call.path :: s.installed⟩
  | .error _ => s

/-- The sessions that begin with an empty registry and install no path twice. -/
inductive Reached : Session → Prop
  | start : Reached {}
  | call {s : Session} (reached : Reached s) (call : Call) (fresh : call.path ∉ s.installed)
    (carries : ∀ a, call.archive? = some a → Carries call.path a.exportData) : Reached (s.after call)

end Session

/-- Whatever calls are made, and whether or not they succeed, the registry is consistent and holds the paths that were
installed. -/
theorem consistent_of_reached {s : Session} (reached : s.Reached) :
    s.registry.Consistent ∧ ∀ path, s.registry.contains path = true ↔ path ∈ s.installed := by
  induction reached with
  | start => exact ⟨consistent_empty, fun path => by simp [contains_iff]⟩
  | @call s reached call fresh carries ih =>
    obtain ⟨consistent, installed⟩ := ih
    unfold Session.after
    cases done : call.perform s.registry with
    | error fault => exact ⟨consistent, installed⟩
    | ok registry =>
      obtain ⟨a, known, success⟩ := Call.perform_eq_ok done
      have absent : s.registry.get? call.path = none := by
        rw [← installed, contains_iff] at fresh
        exact Option.eq_none_iff_forall_ne_some.mpr fun p found => fresh ⟨p, found⟩
      refine ⟨consistent.install absent (carries a known) success, fun path => ?_⟩
      obtain ⟨p, built, rfl⟩ := install_eq_ok_iff.mp success
      rw [contains_iff, get?_insert, Package.path_of_ofExportData built]
      split
      next same => simp [same]
      next other => rw [← contains_iff, installed, List.mem_cons, or_iff_right (Ne.symm other)]

namespace Retry

def runtimeInterface : Interface where
  path := "rt"
  name := "rt"
  members := [⟨"T", .type, .basic "int"⟩]

def runtime : Archive := { importPath := "rt", name := "rt", exportData := runtimeInterface.encode }

/-- Refers to the runtime package and to a type of its own that it does not export. -/
def libInterface : Interface where
  path := "lib"
  name := "lib"
  imports := ["rt"]
  members := [⟨"F", .func, .func [.slice (.map (.basic "string") (.named "rt" "T"))] [.pointer (.named "lib" "t")]⟩]

def lib : Archive := { importPath := "lib", name := "lib", exportData := libInterface.encode }

/-- The first call fails, since the runtime package is not installed yet. -/
def session : Session :=
  ((({} : Session).after (.install "lib" lib)).after (.receive "rt" ⟨runtime.encode, none⟩)).after (.install "lib" lib)

end Retry

open Retry in
/-- The session fails on the way, since `lib` comes before its import, and is consistent nevertheless. -/
theorem consistent_of_reached_retry :
    session.Reached ∧ session.installed = ["lib", "rt"] ∧ session.registry.Consistent ∧
    session.registry.contains "lib" = true := by
  have lib_carries : ∀ a, (Call.install "lib" lib).archive? = some a → Carries "lib" a.exportData := by
    rintro a ⟨⟩
    exact carries_encode (i := libInterface) (by decide +kernel)
  have runtime_carries :
      ∀ a, (Call.receive "rt" ⟨runtime.encode, none⟩).archive? = some a → Carries "rt" a.exportData := by
    have read : (Call.receive "rt" ⟨runtime.encode, none⟩).archive? = some runtime := by decide +kernel
    intro a known
    obtain rfl := Option.some.inj (read.symm.trans known)
    exact carries_encode (i := runtimeInterface) (by decide +kernel)
  have failed := Session.Reached.start.call (.install "lib" lib) List.not_mem_nil lib_carries
  have received := failed.call (.receive "rt" ⟨runtime.encode, none⟩) (by decide +kernel) runtime_carries
  have reached : session.Reached := received.call (.install "lib" lib) (by decide +kernel) lib_carries
  have installed : session.installed = ["lib", "rt"] := by decide +kernel
  obtain ⟨consistent, known⟩ := consistent_of_reached reached
  exact ⟨reached, installed, consistent, (known "lib").mpr (installed ▸ List.mem_cons_self)⟩

end Registry
end Linkage
