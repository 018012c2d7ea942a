import Linkage.Interface.Package

/-!
# Installing a package

An interface is linked under a path exactly if the registry holds all that it imports and all members of other packages
that its types refer to. Installing the package changes the registry at that path only.
-/
namespace Linkage

variable {m m' : Registry} {path name : String} {data : Bytes} {p : Package} {i : Interface} {a : Archive}

theorem bind_eq_ok_iff {ε α β : Type} {first : Except ε α} {next : α → Except ε β} {b : β} :
    (first >>= next) = .ok b ↔ ∃ a, first = .ok a ∧ next a = .ok b := by
  cases first <;> simp [bind, Except.bind]

namespace Registry

/-- The package is installed and exports a member of that name. -/
def Exports (m : Registry) (package name : String) : Prop :=
  ∃ p, m.get? package = some p ∧ (p.lookup? name).isSome

@[simp] theorem get?_empty (path : String) : empty.get? path = none := Std.TreeMap.getElem?_emptyc

/-- An installed package replaces the one under its path. -/
theorem get?_insert (m : Registry) (p : Package) (path : String) :
    (m.insert p).get? path = if p.path = path then some p else m.get? path := by
  simp only [get?, insert, Std.TreeMap.getElem?_insert, Std.LawfulEqOrd.compare_eq_iff_eq]

theorem contains_iff : m.contains path = true ↔ ∃ p, m.get? path = some p := by
  rw [contains, Std.TreeMap.contains_eq_isSome_getElem?, Option.isSome_iff_exists]
  exact Iff.rfl

/-- All that is installed in the one registry is installed in the other. -/
def Extends (m m' : Registry) : Prop := ∀ path p, m.get? path = some p → m'.get? path = some p

theorem extends_insert (fresh : m.get? p.path = none) : m.Extends (m.insert p) := by
  intro path q found
  rw [get?_insert, if_neg]
  · exact found
  · rintro rfl
    rw [fresh] at found
    cases found

/-- What a registry exports, a larger one exports too. -/
theorem Extends.exports {package : String} (more : m.Extends m') (exported : m.Exports package name) :
    m'.Exports package name := by
  obtain ⟨p, found, known⟩ := exported
  exact ⟨p, more package p found, known⟩

end Registry

namespace Package

/-- The package is what the interface gives when it is linked under a path. Its types may refer to the package itself,
under that path or under the one that the interface carries, also where they name what it does not export. -/
structure LinkedFrom (p : Package) (under : String) (i : Interface) (m : Registry) : Prop where
  path : p.path = under
  name : p.name = i.name
  members : p.members = i.members
  imports : i.imports.map m.get? = p.imports.map some
  references : ∀ reference ∈ i.references,
    reference.1 = under ∨ reference.1 = i.path ∨ m.Exports reference.1 reference.2

theorem linkImports_cons (path first : String) (m : Registry) (rest : List String) :
    linkImports path m (first :: rest) =
      match m.get? first with
      | none => .error (.unresolvedPackage path first)
      | some p => (p :: ·) <$> linkImports path m rest := by
  rw [linkImports]
  cases m.get? first <;> rfl

/-- The imports that are linked are those that the registry has under these paths. -/
theorem linkImports_eq_ok_iff {paths : List String} {imports : List Package} :
    linkImports path m paths = .ok imports ↔ paths.map m.get? = imports.map some := by
  induction paths generalizing imports with
  | nil => cases imports <;> simp [linkImports]
  | cons first rest ih =>
    rw [linkImports_cons, List.map_cons]
    cases found : m.get? first with
    | none => cases imports <;> simp
    | some p =>
      cases imports with
      | nil => cases linkImports path m rest <;> simp [Functor.map, Except.map]
      | cons q others =>
        rw [List.map_cons, List.cons.injEq, Option.some.injEq, ← ih]
        cases linkImports path m rest <;> simp [Functor.map, Except.map]

theorem checkReferences_cons (path package name : String) (own : List String) (m : Registry)
    (rest : List (String × String)) :
    checkReferences path own m ((package, name) :: rest) =
      if package ∈ own then checkReferences path own m rest
      else match m.get? package with
        | none => .error (.unresolvedPackage path package)
        | some p =>
          if (p.lookup? name).isNone then .error (.unresolvedMember path package name)
          else checkReferences path own m rest := by
  rw [checkReferences]
  by_cases inside : package ∈ own
  · simp [inside]
  · cases found : m.get? package with
    | none => simp [inside, throw, throwThe, MonadExceptOf.throw, bind, Except.bind]
    | some p => cases (p.lookup? name).isNone <;> simp [inside, throw, throwThe, MonadExceptOf.throw, bind, Except.bind]

/-- A reference holds if it is to the package itself or to something exported. -/
theorem checkReferences_eq_ok_iff {own : List String} {references : List (String × String)} :
    checkReferences path own m references = .ok () ↔
      ∀ reference ∈ references, reference.1 ∈ own ∨ m.Exports reference.1 reference.2 := by
  induction references with
  | nil => simp [checkReferences]
  | cons first rest ih =>
    obtain ⟨package, name⟩ := first
    rw [checkReferences_cons, List.forall_mem_cons, ← ih]
    by_cases inside : package ∈ own
    · simp [inside]
    · cases found : m.get? package with
      | none => simp [inside, Registry.Exports, found]
      | some p => cases exported : p.lookup? name <;> simp [inside, Registry.Exports, found, exported]

/-- An interface can be linked exactly if its imports and its references are there. -/
theorem ofInterface_eq_ok_iff : ofInterface path i m = .ok p ↔ p.LinkedFrom path i m := by
  have own : checkReferences path [path, i.path] m i.references = .ok () ↔ ∀ reference ∈ i.references,
      reference.1 = path ∨ reference.1 = i.path ∨ m.Exports reference.1 reference.2 := by
    simp only [checkReferences_eq_ok_iff, List.mem_cons, List.not_mem_nil, or_false, or_assoc]
  simp only [ofInterface, bind_eq_ok_iff, linkImports_eq_ok_iff, own]
  constructor
  · rintro ⟨imports, linked, _, checked, built⟩
    cases built
    exact ⟨rfl, rfl, rfl, linked, checked⟩
  · intro whole
    cases p
    obtain ⟨rfl, rfl, rfl, linked, checked⟩ := whole
    exact ⟨_, linked, (), checked, rfl⟩

/-- Export data is linked if it is empty or holds an interface that is. -/
theorem ofExportData_eq_ok_iff :
    ofExportData path name data m = .ok p ↔
      data = [] ∧ p = { path, name } ∨ data ≠ [] ∧ ∃ i, Interface.decode data = .ok i ∧ p.LinkedFrom path i m := by
  unfold ofExportData
  cases data with
  | nil => simp [pure, Except.pure, eq_comm]
  | cons b rest =>
    cases found : Interface.decode (b :: rest) with
    | error cause => simp [throw, throwThe, MonadExceptOf.throw]
    | ok i => simp [ofInterface_eq_ok_iff]

theorem path_of_ofExportData (built : ofExportData path name data m = .ok p) : p.path = path := by
  rcases ofExportData_eq_ok_iff.mp built with ⟨-, rfl⟩ | ⟨-, i, -, linked⟩
  · rfl
  · exact linked.path

end Package

namespace Registry

/-- An installation adds the package that is built from the export data. -/
theorem install_eq_ok_iff :
    m.install path a = .ok m' ↔ ∃ p, Package.ofExportData path a.name a.exportData m = .ok p ∧ m' = m.insert p := by
  rw [install, bind_eq_ok_iff]
  simp only [pure, Except.pure, Except.ok.injEq, eq_comm (a := m')]

/-- An archive that arrives is read, then installed. -/
theorem receive_eq_ok_iff {s : Stream} :
    m.receive path s = .ok (a, m') ↔ Archive.read path s = .ok a ∧ m.install path a = .ok m' := by
  simp only [receive, bind_eq_ok_iff, pure, Except.pure, Except.ok.injEq, Prod.mk.injEq]
  constructor
  · rintro ⟨_, read, _, installed, rfl, rfl⟩
    exact ⟨read, installed⟩
  · rintro ⟨read, installed⟩
    exact ⟨a, read, m', installed, rfl, rfl⟩

end Registry
end Linkage
