import Linkage.Proofs.Selection.Sites
import Mathlib.Data.List.Forall2
import Mathlib.Logic.Equiv.Basic

/-!
# Reordered programs

Two programs that differ only in the order of their packages, of the declarations in a package and of the deps of a
declaration. There is then a renumbering of places that leads from each declaration of the one to its counterpart in
the other.
-/
namespace Linkage

/-- The lists hold related items in any order. -/
def ReorderedBy {α : Type} (R : α → α → Prop) (xs ys : List α) : Prop :=
  ∃ moved, xs.Perm moved ∧ List.Forall₂ R moved ys

def Declaration.Reordered (d e : Declaration) : Prop :=
  ∃ deps, d.deps.Perm deps ∧ e = { d with deps }

/-- The same archive, but for the order of its declarations and of their deps. -/
def Archive.Reordered (a b : Archive) : Prop :=
  ∃ declarations, ReorderedBy Declaration.Reordered a.declarations declarations ∧ b = { a with declarations }

/-- The same program, but for the order of its packages, of their declarations and of the deps of those. -/
def Reordered (pkgs pkgs' : List Archive) : Prop := ReorderedBy Archive.Reordered pkgs pkgs'

/-- The same declaration of the same package, but for the order of its deps. -/
def Site.Reordered (s t : Site) : Prop :=
  s.importPath = t.importPath ∧ s.declaration.Reordered t.declaration

/-- At `σ place` the second program has what the first one has at `place`. -/
def Renumbers (σ : Equiv.Perm Place) (pkgs pkgs' : List Archive) : Prop :=
  ∀ place, Option.Rel Site.Reordered (site? pkgs place) (site? pkgs' (σ place))

/-! ### Renumbering the items of a list -/

def shiftPerm (σ : Equiv.Perm ℕ) : Equiv.Perm ℕ where
  toFun
    | 0 => 0
    | i + 1 => σ i + 1
  invFun
    | 0 => 0
    | i + 1 => σ.symm i + 1
  left_inv i := by cases i <;> simp
  right_inv i := by cases i <;> simp

/-- The elements of two lists that are permutations of each other correspond by their indices. -/
theorem exists_renumbering_of_perm {α : Type} {xs ys : List α} (perm : xs.Perm ys) :
    ∃ σ : Equiv.Perm ℕ, ∀ i, ys[σ i]? = xs[i]? := by
  induction perm with
  | nil => exact ⟨Equiv.refl ℕ, fun _ => rfl⟩
  | cons x _ ih =>
    obtain ⟨σ, agrees⟩ := ih
    refine ⟨shiftPerm σ, fun i => ?_⟩
    cases i with
    | zero => rfl
    | succ i => simpa [shiftPerm] using agrees i
  | swap x y rest =>
    refine ⟨Equiv.swap 0 1, fun i => ?_⟩
    match i with
    | 0 => simp
    | 1 => simp
    | i + 2 => simp [Equiv.swap_apply_of_ne_of_ne]
  -- A number goes to the list in between first.
  | trans _ _ first second =>
    obtain ⟨σ, agreesFirst⟩ := first
    obtain ⟨τ, agreesSecond⟩ := second
    exact ⟨σ.trans τ, fun i => (agreesSecond (σ i)).trans (agreesFirst i)⟩

theorem forall₂_getElem? {α : Type} {R : α → α → Prop} {xs ys : List α} (related : List.Forall₂ R xs ys) (i : ℕ) :
    Option.Rel R xs[i]? ys[i]? := by
  induction related generalizing i with
  | nil => exact .none
  | cons here _ ih =>
    cases i with
    | zero => exact .some here
    | succ i => simpa using ih i

/-- Renumbering combines a permutation of the list with a change of its elements. -/
theorem ReorderedBy.exists_renumbering {α : Type} {R : α → α → Prop} {xs ys : List α}
    (reordered : ReorderedBy R xs ys) : ∃ σ : Equiv.Perm ℕ, ∀ i, Option.Rel R xs[i]? ys[σ i]? := by
  obtain ⟨moved, perm, related⟩ := reordered
  obtain ⟨σ, agrees⟩ := exists_renumbering_of_perm perm
  exact ⟨σ, fun i => agrees i ▸ forall₂_getElem? related (σ i)⟩

/-! ### Renumbering the places of a program -/

/-- Renumber packages by `π`, and the declarations of package `p` by `ρ p`. -/
def placePerm (π : Equiv.Perm ℕ) (ρ : ℕ → Equiv.Perm ℕ) : Equiv.Perm Place where
  toFun place := ⟨π place.package, ρ place.package place.index⟩
  invFun place := ⟨π.symm place.package, (ρ (π.symm place.package)).symm place.index⟩
  left_inv place := by simp
  right_inv place := by simp

theorem Archive.Reordered.exists_renumbering {a b : Archive} (reordered : a.Reordered b) :
    a.importPath = b.importPath ∧
      ∃ ρ : Equiv.Perm ℕ, ∀ i, Option.Rel Declaration.Reordered a.declarations[i]? b.declarations[ρ i]? := by
  obtain ⟨declarations, moved, rfl⟩ := reordered
  exact ⟨rfl, moved.exists_renumbering⟩

/-- Related packages have related sites, once their declarations are renumbered. -/
theorem Archive.Reordered.exists_siteRenumbering {pkgs pkgs' : List Archive} {p q : ℕ}
    (related : Option.Rel Archive.Reordered pkgs[p]? pkgs'[q]?) :
    ∃ ρ : Equiv.Perm ℕ, ∀ i, Option.Rel Site.Reordered (site? pkgs ⟨p, i⟩) (site? pkgs' ⟨q, ρ i⟩) := by
  generalize foundA : pkgs[p]? = a, foundB : pkgs'[q]? = b at related
  cases related with
  | none => exact ⟨Equiv.refl ℕ, fun i => by simp [site?, foundA, foundB]⟩
  | @some a b same =>
    obtain ⟨path, ρ, declarations⟩ := same.exists_renumbering
    refine ⟨ρ, fun i => ?_⟩
    have here := declarations i
    simp only [site?, foundA, foundB, Option.bind_eq_bind, Option.bind_some, Option.pure_def]
    generalize a.declarations[i]? = d, b.declarations[ρ i]? = e at here ⊢
    cases here with
    | none => exact .none
    | some related => exact .some ⟨path, related⟩

/-- A reordered program is the same up to the numbers of its places. -/
theorem Reordered.exists_renumbers {pkgs pkgs' : List Archive} (reordered : Reordered pkgs pkgs') :
    ∃ σ, Renumbers σ pkgs pkgs' := by
  obtain ⟨π, packages⟩ := reordered.exists_renumbering
  -- Each package renumbers its own declarations; together they renumber the places, package by package.
  choose ρ related using fun p => Archive.Reordered.exists_siteRenumbering (packages p)
  exact ⟨placePerm π ρ, fun place => related place.package place.index⟩

theorem Declaration.Reordered.symm {d e : Declaration} (reordered : d.Reordered e) : e.Reordered d := by
  obtain ⟨deps, perm, rfl⟩ := reordered
  exact ⟨d.deps, perm.symm, rfl⟩

theorem Site.Reordered.symm {s t : Site} (reordered : s.Reordered t) : t.Reordered s :=
  ⟨reordered.1.symm, reordered.2.symm⟩

/-- Reordering deps changes no filter, so the keys stay the same. -/
theorem Site.Reordered.keys_eq {s t : Site} (reordered : s.Reordered t) : s.keys = t.keys := by
  obtain ⟨path, deps, _, same⟩ := reordered
  rw [Site.keys, Site.keys, path, same]

theorem Site.Reordered.mem_deps {s t : Site} (reordered : s.Reordered t) (key : String) :
    key ∈ s.declaration.deps ↔ key ∈ t.declaration.deps := by
  obtain ⟨_, deps, perm, same⟩ := reordered
  rw [same]
  exact perm.mem_iff

namespace Renumbers

variable {σ : Equiv.Perm Place} {pkgs pkgs' : List Archive}

/-- Renumbering can be undone, which gives the second half of each equivalence for free. -/
theorem symm (renumbers : Renumbers σ pkgs pkgs') : Renumbers σ.symm pkgs' pkgs := by
  intro place
  have back := renumbers (σ.symm place)
  rw [Equiv.apply_symm_apply] at back
  generalize site? pkgs (σ.symm place) = here at back
  generalize site? pkgs' place = there at back
  cases back with
  | none => exact .none
  | some related => exact .some related.symm

theorem site? (renumbers : Renumbers σ pkgs pkgs') {place : Place} {s : Site} (found : site? pkgs place = some s) :
    ∃ t, Linkage.site? pkgs' (σ place) = some t ∧ s.Reordered t := by
  have related := renumbers place
  rw [found] at related
  generalize Linkage.site? pkgs' (σ place) = there at related
  cases related with
  | some related => exact ⟨_, rfl, related⟩

/-- What a declaration lists, it lists under its new number too. -/
theorem lists (renumbers : Renumbers σ pkgs pkgs') {user : Place} {key : String} (lists : Lists pkgs user key) :
    Lists pkgs' (σ user) key := by
  obtain ⟨s, found, member⟩ := lists
  obtain ⟨t, found', related⟩ := renumbers.site? found
  exact ⟨t, found', (related.mem_deps key).mp member⟩

end Renumbers
end Linkage
