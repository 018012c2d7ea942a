import Linkage.Proofs.Interface.Consistency

/-!
# Why a package is not installed

A package is refused for the first thing that is wrong with it: its interface cannot be decoded, it imports what is not
installed, or a type refers to what no installed package exports. Of the references in nested types, the first one is
the leftmost. A package that is not refused is installed under its path, and nothing else changes.
-/
namespace Linkage

/-- The entry of the list is the first one that is bad. -/
def FirstOf {α : Type} (bad : α → Prop) (xs : List α) (x : α) : Prop :=
  ∃ front back, xs = front ++ x :: back ∧ (∀ y ∈ front, ¬ bad y) ∧ bad x

section FirstOf

variable {α β : Type} {bad : α → Prop} {xs ys : List α} {x y : α}

theorem not_firstOf_nil : ¬ FirstOf bad [] x := by
  rintro ⟨front, back, empty, -⟩
  exact absurd empty (by simp)

theorem firstOf_cons : FirstOf bad (y :: ys) x ↔ bad y ∧ x = y ∨ ¬ bad y ∧ FirstOf bad ys x := by
  constructor
  · rintro ⟨front, back, split, before, holds⟩
    cases front with
    | nil =>
      obtain ⟨rfl, -⟩ := List.cons.inj split
      exact .inl ⟨holds, rfl⟩
    | cons first front =>
      obtain ⟨rfl, rfl⟩ := List.cons.inj split
      rw [List.forall_mem_cons] at before
      exact .inr ⟨before.1, front, back, rfl, before.2, holds⟩
  · rintro (⟨holds, rfl⟩ | ⟨fine, front, back, rfl, before, holds⟩)
    · exact ⟨[], ys, rfl, nofun, holds⟩
    · exact ⟨y :: front, back, rfl, List.forall_mem_cons.mpr ⟨fine, before⟩, holds⟩

/-- The first bad element stands in the front, or in the back if the front has none. -/
theorem firstOf_append : FirstOf bad (xs ++ ys) x ↔ FirstOf bad xs x ∨ (∀ y ∈ xs, ¬ bad y) ∧ FirstOf bad ys x := by
  induction xs with
  | nil => simp [not_firstOf_nil]
  | cons y rest ih =>
    rw [List.cons_append, firstOf_cons, firstOf_cons, ih, List.forall_mem_cons, and_or_left, or_assoc, and_assoc]

/-- The first bad element of a sequence of lists is the first one of the first list that has any. -/
theorem firstOf_flatMap {items : List β} {f : β → List α} :
    FirstOf bad (items.flatMap f) x ↔ ∃ front item back, items = front ++ item :: back ∧
      (∀ other ∈ front, ∀ y ∈ f other, ¬ bad y) ∧ FirstOf bad (f item) x := by
  induction items with
  | nil => simp [not_firstOf_nil]
  | cons item rest ih =>
    rw [List.flatMap_cons, firstOf_append, ih]
    constructor
    · rintro (here | ⟨fine, front, other, back, rfl, before, later⟩)
      · exact ⟨[], item, rest, rfl, nofun, here⟩
      · exact ⟨item :: front, other, back, rfl, List.forall_mem_cons.mpr ⟨fine, before⟩, later⟩
    · rintro ⟨front, other, back, split, before, found⟩
      cases front with
      | nil =>
        obtain ⟨rfl, -⟩ := List.cons.inj split
        exact .inl found
      | cons first front =>
        obtain ⟨rfl, rfl⟩ := List.cons.inj split
        rw [List.forall_mem_cons] at before
        exact .inr ⟨before.1, front, other, back, rfl, before.2, found⟩

end FirstOf

/-! ### References in nested types -/

namespace TypeExpr

variable {bad : String → String → Prop} {t : TypeExpr} {package name : String}

mutual

theorem names_of_mem_references : (t : TypeExpr) → (package, name) ∈ t.references → t.Names package name
  | .basic _, member => by cases member
  | .named _ _, member => by
    obtain ⟨rfl, rfl⟩ := Prod.mk.inj (List.mem_singleton.mp member)
    exact .named
  | .pointer element, member => .pointer (names_of_mem_references element member)
  | .slice element, member => .slice (names_of_mem_references element member)
  | .map key value, member => by
    rcases List.mem_append.mp member with inKey | inValue
    · exact .key (names_of_mem_references key inKey)
    · exact .value (names_of_mem_references value inValue)
  | .func params results, member => by
    rcases List.mem_append.mp member with inParams | inResults
    · obtain ⟨t, listed, names⟩ := exists_names_of_mem_referencesAll params inParams
      exact .param listed names
    · obtain ⟨t, listed, names⟩ := exists_names_of_mem_referencesAll results inResults
      exact .result listed names

theorem exists_names_of_mem_referencesAll :
    (ts : List TypeExpr) → (package, name) ∈ referencesAll ts → ∃ t ∈ ts, t.Names package name
  | [], member => by cases member
  | t :: rest, member => by
    rcases List.mem_append.mp member with here | later
    · exact ⟨t, List.mem_cons_self, names_of_mem_references t here⟩
    · obtain ⟨u, listed, names⟩ := exists_names_of_mem_referencesAll rest later
      exact ⟨u, List.mem_cons_of_mem t listed, names⟩

end

/-- The references of a type are what it names. -/
theorem mem_references_iff : (package, name) ∈ t.references ↔ t.Names package name :=
  ⟨names_of_mem_references t, Names.mem_references⟩

/-- No reference at any depth of the type is bad. -/
def Free (bad : String → String → Prop) (t : TypeExpr) : Prop :=
  ∀ package name, t.Names package name → ¬ bad package name

/-- Of the bad references at any depth of the type, the first one: a key comes before its value, and the parameters of a
function before its results. -/
inductive FirstBad (bad : String → String → Prop) : TypeExpr → String → String → Prop
  | named {package name : String} (holds : bad package name) : FirstBad bad (.named package name) package name
  | pointer {element : TypeExpr} {package name : String} (inner : FirstBad bad element package name) :
    FirstBad bad (.pointer element) package name
  | slice {element : TypeExpr} {package name : String} (inner : FirstBad bad element package name) :
    FirstBad bad (.slice element) package name
  | key {key value : TypeExpr} {package name : String} (inner : FirstBad bad key package name) :
    FirstBad bad (.map key value) package name
  | value {key value : TypeExpr} {package name : String} (before : key.Free bad)
    (inner : FirstBad bad value package name) : FirstBad bad (.map key value) package name
  | param {front back results : List TypeExpr} {t : TypeExpr} {package name : String} (before : ∀ u ∈ front, u.Free bad)
    (inner : FirstBad bad t package name) : FirstBad bad (.func (front ++ t :: back) results) package name
  | result {params front back : List TypeExpr} {t : TypeExpr} {package name : String}
    (inParams : ∀ u ∈ params, u.Free bad) (before : ∀ u ∈ front, u.Free bad) (inner : FirstBad bad t package name) :
    FirstBad bad (.func params (front ++ t :: back)) package name

/-- A reference as an entry of a list. -/
def Listed (bad : String → String → Prop) (reference : String × String) : Prop := bad reference.1 reference.2

/-- A type is free of bad names if none of its references is bad. -/
theorem free_iff : t.Free bad ↔ ∀ reference ∈ t.references, ¬ Listed bad reference := by
  constructor
  · intro free reference member
    exact free reference.1 reference.2 (mem_references_iff.mp member)
  · intro free package name names
    exact free (package, name) (mem_references_iff.mpr names)

theorem free_all_iff {ts : List TypeExpr} :
    (∀ t ∈ ts, t.Free bad) ↔ ∀ reference ∈ referencesAll ts, ¬ Listed bad reference := by
  rw [referencesAll_eq]
  constructor
  · intro free reference member
    obtain ⟨t, listed, inType⟩ := List.mem_flatMap.mp member
    exact free_iff.mp (free t listed) reference inType
  · intro free t listed
    exact free_iff.mpr fun reference inType => free reference (List.mem_flatMap.mpr ⟨t, listed, inType⟩)

theorem firstOf_all_iff {ts : List TypeExpr}
    (each : ∀ t ∈ ts, t.FirstBad bad package name ↔ FirstOf (Listed bad) t.references (package, name)) :
    FirstOf (Listed bad) (referencesAll ts) (package, name) ↔ ∃ front t back, ts = front ++ t :: back ∧
      (∀ u ∈ front, u.Free bad) ∧ t.FirstBad bad package name := by
  rw [referencesAll_eq, firstOf_flatMap]
  constructor
  · rintro ⟨front, t, back, rfl, before, found⟩
    exact ⟨front, t, back, rfl, fun u member => free_iff.mpr (before u member), (each t (by simp)).mpr found⟩
  · rintro ⟨front, t, back, rfl, before, found⟩
    exact ⟨front, t, back, rfl, fun u member => free_iff.mp (before u member), (each t (by simp)).mp found⟩

mutual

/-- The first bad reference of a type is the first one that a walk through it meets. -/
theorem firstBad_iff : (t : TypeExpr) →
    (t.FirstBad bad package name ↔ FirstOf (Listed bad) t.references (package, name))
  | .basic _ => by
    refine iff_of_false ?_ not_firstOf_nil
    rintro ⟨⟩
  | .named _ _ => by
    rw [references, firstOf_cons]
    constructor
    · rintro ⟨holds⟩
      exact .inl ⟨holds, rfl⟩
    · rintro (⟨holds, same⟩ | ⟨-, later⟩)
      · obtain ⟨rfl, rfl⟩ := Prod.mk.inj same
        exact .named holds
      · exact absurd later not_firstOf_nil
  | .pointer element => by
    rw [references, ← firstBad_iff element]
    constructor
    · intro first
      cases first with
      | pointer inner => exact inner
    · exact .pointer
  | .slice element => by
    rw [references, ← firstBad_iff element]
    constructor
    · intro first
      cases first with
      | slice inner => exact inner
    · exact .slice
  | .map key value => by
    rw [references, firstOf_append, ← firstBad_iff key, ← firstBad_iff value, ← free_iff]
    constructor
    · intro first
      cases first with
      | key inner => exact .inl inner
      | value before inner => exact .inr ⟨before, inner⟩
    · rintro (inner | ⟨before, inner⟩)
      · exact .key inner
      · exact .value before inner
  | .func params results => by
    rw [references, firstOf_append, firstOf_all_iff (firstBad_all_iff params),
      firstOf_all_iff (firstBad_all_iff results), ← free_all_iff]
    constructor
    · intro first
      cases first with
      | param before inner => exact .inl ⟨_, _, _, rfl, before, inner⟩
      | result inParams before inner => exact .inr ⟨inParams, _, _, _, rfl, before, inner⟩
    · rintro (⟨front, t, back, rfl, before, inner⟩ | ⟨inParams, front, t, back, rfl, before, inner⟩)
      · exact .param before inner
      · exact .result inParams before inner

theorem firstBad_all_iff : (ts : List TypeExpr) →
    ∀ t ∈ ts, t.FirstBad bad package name ↔ FirstOf (Listed bad) t.references (package, name)
  | [] => fun _ member => absurd member List.not_mem_nil
  | t :: rest => List.forall_mem_cons.mpr ⟨firstBad_iff t, firstBad_all_iff rest⟩

end

end TypeExpr

/-! ### What is wrong with an interface -/

namespace Registry

variable {m : Registry} {path package name : String}

/-- What is said of a reference that no installed package exports. -/
inductive Lacks (m : Registry) (path : String) : String → String → ArchiveFault → Prop
  | package {package name : String} (unknown : m.get? package = none) :
    Lacks m path package name (.unresolvedPackage path package)
  | member {package name : String} {p : Package} (known : m.get? package = some p) (absent : p.lookup? name = none) :
    Lacks m path package name (.unresolvedMember path package name)

/-- A reference from an interface that is linked under a path. It is to another package, and that does not export it, if
it is installed at all. -/
def Unresolved (m : Registry) (path : String) (i : Interface) (package name : String) : Prop :=
  package ≠ path ∧ package ≠ i.path ∧ ¬ m.Exports package name

/-- Why the package of an archive is not installed under a path. -/
inductive Refuses (m : Registry) (path : String) (a : Archive) : ArchiveFault → Prop
  | undecodable {cause : Wire.Error} (some_data : a.exportData ≠ [])
    (refused : Interface.decode a.exportData = .error cause) : Refuses m path a (.malformedInterface path cause)
  | unknownImport {i : Interface} {imported : String} (decoded : Interface.decode a.exportData = .ok i)
    (first : FirstOf (fun q => m.contains q = false) i.imports imported) :
    Refuses m path a (.unresolvedPackage path imported)
  | reference {i : Interface} {front back : List Member} {o : Member} {package name : String} {fault : ArchiveFault}
    (decoded : Interface.decode a.exportData = .ok i) (imports : ∀ q ∈ i.imports, m.contains q = true)
    (split : i.members = front ++ o :: back) (before : ∀ u ∈ front, u.type.Free (m.Unresolved path i))
    (first : o.type.FirstBad (m.Unresolved path i) package name) (lacks : m.Lacks path package name fault) :
    Refuses m path a fault

end Registry

/-- A sequence fails in its first part, or in its second one after the first succeeded. -/
theorem bind_eq_error_iff {ε α β : Type} {first : Except ε α} {next : α → Except ε β} {e : ε} :
    (first >>= next) = .error e ↔ first = .error e ∨ ∃ a, first = .ok a ∧ next a = .error e := by
  cases first <;> simp [bind, Except.bind]

variable {m m' : Registry} {path name : String} {data : Bytes} {p : Package} {i : Interface} {a : Archive}
  {fault : ArchiveFault}

namespace Package

/-- The first import that is not installed is the one that is reported. -/
theorem linkImports_eq_error_iff {paths : List String} :
    linkImports path m paths = .error fault ↔
      ∃ imported, FirstOf (fun q => m.contains q = false) paths imported ∧ fault = .unresolvedPackage path imported := by
  induction paths with
  | nil =>
    refine iff_of_false nofun ?_
    rintro ⟨imported, first, -⟩
    exact not_firstOf_nil first
  | cons path' rest ih =>
    rw [linkImports_cons]
    simp only [firstOf_cons]
    cases found : m.get? path' with
    | none =>
      have unknown : m.contains path' = false := by
        rw [← Bool.not_eq_true, Registry.contains_iff, found]
        simp
      simp only [unknown, true_and, not_true_eq_false, false_and, or_false, exists_eq_left, Except.error.injEq]
      exact eq_comm
    | some p =>
      have known : m.contains path' = true := Registry.contains_iff.mpr ⟨p, found⟩
      simp only [known, Bool.true_eq_false, false_and, not_false_eq_true, true_and, false_or, ← ih]
      cases linkImports path m rest <;> simp [Functor.map, Except.map]

/-- The first reference that leads nowhere is reported, as an unknown package or as an unknown member. -/
theorem checkReferences_eq_error_iff {own : List String} {references : List (String × String)} :
    checkReferences path own m references = .error fault ↔
      ∃ package name, FirstOf (TypeExpr.Listed fun package name => package ∉ own ∧ ¬ m.Exports package name) references
        (package, name) ∧ m.Lacks path package name fault := by
  induction references with
  | nil =>
    refine iff_of_false nofun ?_
    rintro ⟨package, name, first, -⟩
    exact not_firstOf_nil first
  | cons reference rest ih =>
    obtain ⟨package, name⟩ := reference
    rw [checkReferences_cons]
    simp only [firstOf_cons]
    by_cases resolved : package ∈ own ∨ m.Exports package name
    · have fine : ¬ TypeExpr.Listed (fun package name => package ∉ own ∧ ¬ m.Exports package name) (package, name) :=
        fun ⟨foreign, lacking⟩ => resolved.elim foreign lacking
      simp only [fine, false_and, not_false_eq_true, true_and, false_or, ← ih]
      by_cases inside : package ∈ own
      · rw [if_pos inside]
      · obtain ⟨p, found, known⟩ := resolved.resolve_left inside
        rw [if_neg inside, found]
        simp [Option.isSome_iff_ne_none.mp known]
    · obtain ⟨foreign, lacking⟩ := not_or.mp resolved
      have bad : TypeExpr.Listed (fun package name => package ∉ own ∧ ¬ m.Exports package name) (package, name) :=
        ⟨foreign, lacking⟩
      rw [if_neg foreign]
      simp only [bad, true_and, not_true_eq_false, false_and, or_false, Prod.mk.injEq, and_assoc, exists_eq_left,
        exists_and_left]
      constructor
      · intro failed
        cases found : m.get? package with
        | none =>
          rw [found] at failed
          cases failed
          exact .package found
        | some p =>
          cases absent : p.lookup? name with
          | none =>
            simp only [found, absent, Option.isNone_none, if_true, Except.error.injEq] at failed
            subst failed
            exact .member found absent
          | some o => exact absurd ⟨p, found, by rw [absent, Option.isSome_some]⟩ lacking
      · intro lacks
        cases lacks with
        | package unknown => rw [unknown]
        | member known absent => simp only [known, absent, Option.isNone_none, if_true]

/-- All imports are found exactly if all are installed. -/
theorem exists_linked_iff {paths : List String} :
    (∃ imports : List Package, paths.map m.get? = imports.map some) ↔ ∀ q ∈ paths, m.contains q = true := by
  induction paths with
  | nil => simp
  | cons q rest ih =>
    rw [List.forall_mem_cons, ← ih, Registry.contains_iff, List.map_cons]
    constructor
    · rintro ⟨_ | ⟨p, imports⟩, linked⟩
      · cases linked
      · obtain ⟨found, others⟩ := List.cons.inj linked
        exact ⟨⟨p, found⟩, imports, others⟩
    · rintro ⟨⟨p, found⟩, imports, others⟩
      exact ⟨p :: imports, by rw [found, others, List.map_cons]⟩

/-- The members are checked in order, and each type from left to right. -/
theorem checkReferences_own_eq_error_iff :
    checkReferences path [path, i.path] m i.references = .error fault ↔
      ∃ front o back package name, i.members = front ++ o :: back ∧
        (∀ u ∈ front, u.type.Free (m.Unresolved path i)) ∧ o.type.FirstBad (m.Unresolved path i) package name ∧
        m.Lacks path package name fault := by
  have bad : (fun package name => package ∉ [path, i.path] ∧ ¬ m.Exports package name) = m.Unresolved path i := by
    funext package name
    rw [Registry.Unresolved, List.mem_cons, List.mem_singleton, not_or, and_assoc]
  rw [checkReferences_eq_error_iff, bad]
  simp only [Interface.references, firstOf_flatMap, ← TypeExpr.free_iff, ← TypeExpr.firstBad_iff]
  constructor
  · rintro ⟨package, name, ⟨front, o, back, split, before, first⟩, lacks⟩
    exact ⟨front, o, back, package, name, split, before, first, lacks⟩
  · rintro ⟨front, o, back, package, name, split, before, first, lacks⟩
    exact ⟨package, name, ⟨front, o, back, split, before, first⟩, lacks⟩

/-- Imports are checked before any reference. -/
theorem ofInterface_eq_error_iff :
    ofInterface path i m = .error fault ↔
      (∃ imported, FirstOf (fun q => m.contains q = false) i.imports imported ∧
        fault = .unresolvedPackage path imported) ∨
      (∀ q ∈ i.imports, m.contains q = true) ∧ ∃ front o back package name, i.members = front ++ o :: back ∧
        (∀ u ∈ front, u.type.Free (m.Unresolved path i)) ∧ o.type.FirstBad (m.Unresolved path i) package name ∧
        m.Lacks path package name fault := by
  rw [ofInterface, bind_eq_error_iff, linkImports_eq_error_iff, ← exists_linked_iff,
    ← checkReferences_own_eq_error_iff]
  refine or_congr_right ?_
  constructor
  · rintro ⟨imports, linked, failed⟩
    refine ⟨⟨imports, linkImports_eq_ok_iff.mp linked⟩, ?_⟩
    rcases bind_eq_error_iff.mp failed with checked | ⟨_, -, built⟩
    · exact checked
    · cases built
  · rintro ⟨⟨imports, linked⟩, failed⟩
    exact ⟨imports, linkImports_eq_ok_iff.mpr linked, bind_eq_error_iff.mpr (.inl failed)⟩

/-- Of two members with one name the later one is found. -/
theorem lookup?_eq_some_iff {o : Member} :
    p.lookup? name = some o ↔
      ∃ front back, p.members = front ++ o :: back ∧ o.name = name ∧ ∀ u ∈ back, u.name ≠ name := by
  rw [lookup?, List.find?_eq_some_iff_append]
  simp only [decide_eq_true_eq, Bool.not_eq_true', decide_eq_false_iff_not]
  constructor
  · rintro ⟨named, front, back, split, before⟩
    refine ⟨back.reverse, front.reverse, ?_, named, fun u member => before u (List.mem_reverse.mp member)⟩
    rw [← List.reverse_reverse p.members, split, List.reverse_append, List.reverse_cons, List.append_assoc,
      List.singleton_append]
  · rintro ⟨front, back, split, named, behind⟩
    refine ⟨named, back.reverse, front.reverse, ?_, fun u member => behind u (List.mem_reverse.mp member)⟩
    rw [split, List.reverse_append, List.reverse_cons, List.append_assoc, List.singleton_append]

end Package

namespace Interface

theorem ne_nil_of_decode (decoded : decode data = .ok i) : data ≠ [] := by
  rintro rfl
  cases decoded

/-- The references of an interface are those of its members. -/
theorem forall_references_iff {P : String → String → Prop} :
    (∀ reference ∈ i.references, P reference.1 reference.2) ↔
      ∀ o ∈ i.members, ∀ package name, o.type.Names package name → P package name := by
  constructor
  · intro all o member package name names
    exact all (package, name) (List.mem_flatMap.mpr ⟨o, member, names.mem_references⟩)
  · intro all reference member
    obtain ⟨o, listed, inType⟩ := List.mem_flatMap.mp member
    exact all o listed reference.1 reference.2 (TypeExpr.mem_references_iff.mp inType)

end Interface

namespace Registry

/-- Export data that can be decoded is refused for its first violation. -/
theorem refuses_of_ofInterface (decoded : Interface.decode a.exportData = .ok i) :
    Package.ofInterface path i m = .error fault ↔ m.Refuses path a fault := by
  rw [Package.ofInterface_eq_error_iff]
  constructor
  · rintro (⟨imported, first, rfl⟩ | ⟨imports, front, o, back, package, name, split, before, first, lacks⟩)
    · exact .unknownImport decoded first
    · exact .reference decoded imports split before first lacks
  · intro refuses
    cases refuses with
    | undecodable _ refused =>
      rw [decoded] at refused
      cases refused
    | unknownImport decoded' first =>
      cases decoded.symm.trans decoded'
      exact .inl ⟨_, first, rfl⟩
    | reference decoded' imports split before first lacks =>
      cases decoded.symm.trans decoded'
      exact .inr ⟨imports, _, _, _, _, _, split, before, first, lacks⟩

/-- An installation fails for the first violation and for nothing else. -/
theorem install_eq_error_iff : m.install path a = .error fault ↔ m.Refuses path a fault := by
  have stops : m.install path a = .error fault ↔ Package.ofExportData path a.name a.exportData m = .error fault := by
    rw [install]
    cases Package.ofExportData path a.name a.exportData m <;> simp [bind, Except.bind, pure, Except.pure]
  rw [stops]
  by_cases none : a.exportData = []
  · refine iff_of_false ?_ ?_
    · rw [none]
      intro failed
      cases failed
    · intro refuses
      cases refuses with
      | undecodable some_data => exact some_data none
      | unknownImport decoded => exact Interface.ne_nil_of_decode decoded none
      | reference decoded => exact Interface.ne_nil_of_decode decoded none
  · have full : ¬ a.exportData.isEmpty = true := by rwa [List.isEmpty_iff]
    rw [Package.ofExportData, if_neg full]
    cases decoded : Interface.decode a.exportData with
    | ok i => exact refuses_of_ofInterface decoded
    | error cause =>
      constructor
      · intro failed
        cases failed
        exact .undecodable none decoded
      · intro refuses
        cases refuses with
        | undecodable _ refused =>
          cases decoded.symm.trans refused
          rfl
        | unknownImport found => cases decoded.symm.trans found
        | reference found => cases decoded.symm.trans found

theorem exists_linkedFrom_iff :
    (∃ p : Package, p.LinkedFrom path i m) ↔
      (∀ q ∈ i.imports, m.contains q = true) ∧ ∀ o ∈ i.members, ∀ package name, o.type.Names package name →
        package = path ∨ package = i.path ∨ m.Exports package name := by
  rw [← Package.exists_linked_iff, ← Interface.forall_references_iff]
  constructor
  · rintro ⟨p, linked⟩
    exact ⟨⟨p.imports, linked.imports⟩, linked.references⟩
  · rintro ⟨⟨imports, linked⟩, references⟩
    exact ⟨⟨path, i.name, imports, i.members⟩, rfl, rfl, rfl, linked, references⟩

/-- An archive without export data can always be installed. -/
theorem exists_install_iff :
    (∃ m', m.install path a = .ok m') ↔ a.exportData = [] ∨ ∃ i, Interface.decode a.exportData = .ok i ∧
      (∀ q ∈ i.imports, m.contains q = true) ∧ ∀ o ∈ i.members, ∀ package name, o.type.Names package name →
        package = path ∨ package = i.path ∨ m.Exports package name := by
  simp only [← exists_linkedFrom_iff, install_eq_ok_iff, Package.ofExportData_eq_ok_iff]
  constructor
  · rintro ⟨_, p, ⟨none, -⟩ | ⟨-, i, decoded, linked⟩, -⟩
    · exact .inl none
    · exact .inr ⟨i, decoded, p, linked⟩
  · rintro (none | ⟨i, decoded, p, linked⟩)
    · exact ⟨_, _, .inl ⟨none, rfl⟩, rfl⟩
    · exact ⟨_, p, .inr ⟨Interface.ne_nil_of_decode decoded, i, decoded, linked⟩, rfl⟩

/-- An archive without export data can always be installed. Any other can if its export data is an interface of which all
imports are installed, and of which each type, at any depth, refers only to the package itself or to what an installed
package exports. Then the registry changes at that path only: there it holds a package with the name and the members of
the interface, linked to the packages that were installed for the imports. If the archive cannot be installed, the fault
says which of all the things that are wrong comes first, and a session keeps its registry. -/
theorem install_outcome (m : Registry) (path : String) (a : Archive) :
    ((∃ m', m.install path a = .ok m') ↔ a.exportData = [] ∨ ∃ i, Interface.decode a.exportData = .ok i ∧
      (∀ q ∈ i.imports, m.contains q = true) ∧ ∀ o ∈ i.members, ∀ package name, o.type.Names package name →
        package = path ∨ package = i.path ∨ m.Exports package name) ∧
    (∀ m', m.install path a = .ok m' → ∃ p, (∀ q, m'.get? q = if q = path then some p else m.get? q) ∧ p.path = path ∧
      (a.exportData = [] → p.name = a.name ∧ p.imports = [] ∧ ∀ name, p.lookup? name = none) ∧
      ∀ i, Interface.decode a.exportData = .ok i →
        p.name = i.name ∧ i.imports.map m.get? = p.imports.map some ∧
        ∀ name o, p.lookup? name = some o ↔
          ∃ front back, i.members = front ++ o :: back ∧ o.name = name ∧ ∀ u ∈ back, u.name ≠ name) ∧
    (∀ fault, m.install path a = .error fault ↔ m.Refuses path a fault) ∧
    ∀ fault installed, m.install path a = .error fault →
      (Session.mk m installed).after (.install path a) = ⟨m, installed⟩ := by
  refine ⟨exists_install_iff, fun m' success => ?_, fun fault => install_eq_error_iff, fun fault installed failed => ?_⟩
  · obtain ⟨p, built, rfl⟩ := install_eq_ok_iff.mp success
    have own := Package.path_of_ofExportData built
    refine ⟨p, fun q => ?_, own, fun none => ?_, fun i decoded => ?_⟩
    · rw [get?_insert, own]
      simp only [eq_comm]
    · rcases Package.ofExportData_eq_ok_iff.mp built with ⟨-, rfl⟩ | ⟨full, -⟩
      · exact ⟨rfl, rfl, fun _ => rfl⟩
      · exact absurd none full
    · rcases Package.ofExportData_eq_ok_iff.mp built with ⟨none, -⟩ | ⟨-, j, decoded', linked⟩
      · exact absurd none (Interface.ne_nil_of_decode decoded)
      · cases decoded.symm.trans decoded'
        refine ⟨linked.name, linked.imports, fun name o => ?_⟩
        rw [Package.lookup?_eq_some_iff, linked.members]
  · have failed : Call.perform m (.install path a) = .error fault := failed
    rw [Session.after, failed]

end Registry
end Linkage
