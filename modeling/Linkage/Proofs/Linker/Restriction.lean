import Linkage.Proofs.Linker.Markers
import Linkage.Proofs.Selection.Restriction

/-!
# Links of programs without their dead declarations

The layout of a program has its live declarations only. So it is the same if the dead ones are taken out or changed,
and a link does the same with it, whatever its settings and its sink.
-/
namespace Linkage

open Selection (live)

namespace Layout

variable {s t : Selection} {declarations : Nat → Archive → List Declaration} {pkgs : List Archive}

theorem packages_redeclare (minify : Bool)
    (same : ∀ p pkg, pkgs[p]? = some pkg →
      t.ofPackage p { pkg with declarations := declarations p pkg } = s.ofPackage p pkg) :
    (redeclare declarations pkgs).zipIdx.flatMap (fun (pkg, p) => package minify t p pkg) =
      pkgs.zipIdx.flatMap (fun (pkg, p) => package minify s p pkg) := by
  rw [redeclare, zipIdx_mapIdx, List.flatMap_map]
  apply List.flatMap_congr
  rintro ⟨pkg, p⟩ member
  simp only [package, same p pkg (List.mem_zipIdx_iff_getElem?.mp member)]
  rfl

/-- A layout does not depend on the declarations of a package, but for those it selects. -/
theorem program_redeclare (settings : Settings)
    (same : ∀ p pkg, pkgs[p]? = some pkg →
      t.ofPackage p { pkg with declarations := declarations p pkg } = s.ofPackage p pkg) :
    program settings t (redeclare declarations pkgs) = program settings s pkgs := by
  have entry : (redeclare declarations pkgs).getLast? =
      pkgs.getLast?.map fun pkg => { pkg with declarations := declarations (pkgs.length - 1) pkg } :=
    List.getLast?_mapIdx
  cases last : pkgs.getLast? with
  | none => simp [program, entry, last]
  | some pkg =>
    have modules := packages_redeclare (settings.minifies pkg.minified) same
    simp [program, entry, last, modules]

end Layout

namespace Linker

variable {settings : Settings} {pkgs pkgs' : List Archive}

/-- A link writes a layout and then counts, so links with one layout differ in what they count at most. -/
theorem link_congr (packages : pkgs'.length = pkgs.length) (selected : (live pkgs').size = (live pkgs).size)
    (layout : Layout.program settings (live pkgs') pkgs' = Layout.program settings (live pkgs) pkgs)
    (maps : Bool) (sink : Sink) :
    link settings pkgs' maps sink =
      { link settings pkgs maps sink with
        tally := (link settings pkgs maps sink).tally.map fun t =>
          { t with declarations := declarationCount pkgs' } } := by
  have written : writing settings pkgs' = writing settings pkgs := by
    rw [writing, Emitter.layOut, layout, writing, Emitter.layOut]
  have counted (bytes : Nat) :
      tallyOf pkgs' bytes = { tallyOf pkgs bytes with declarations := declarationCount pkgs' } := by
    rw [tallyOf, packages, selected]
    rfl
  rw [link, emit_eq, written, link, emit_eq]
  cases writing settings pkgs { sink, maps } with
  | ok _ m =>
    dsimp only
    rw [counted]
    rfl
  | error e m => rfl

theorem program_liveOnly (settings : Settings) (pkgs : List Archive) :
    Layout.program settings (live (liveOnly pkgs)) (liveOnly pkgs) = Layout.program settings (live pkgs) pkgs := by
  refine Layout.program_redeclare settings fun p pkg found => ?_
  have kept : (liveOnly pkgs)[p]? = some { pkg with declarations := (live pkgs).ofPackage p pkg } := by
    simp [liveOnly, Selection.restrict, redeclare, found]
  exact Selection.ofPackage_all (fun place declared => (Selection.live_restrict place).trans declared) kept

theorem program_alterRest (settings : Settings) (change : Place → Declaration → Declaration) (pkgs : List Archive) :
    Layout.program settings (live ((live pkgs).alterRest change pkgs)) ((live pkgs).alterRest change pkgs) =
      Layout.program settings (live pkgs) pkgs :=
  Layout.program_redeclare settings fun p pkg _ => Selection.ofPackage_mapIdx Selection.live_alterRest p pkg

end Linker

/-- In a program without its dead declarations all are live, and a link of it does what a link of the whole program
does and counts the same, but for the declarations that are gone. Nor does it matter what is in dead declarations. -/
theorem link_liveOnly (pkgs : List Archive) :
    (∀ place, (live (liveOnly pkgs)).contains place = (declaration? (liveOnly pkgs) place).isSome) ∧
    (∀ settings maps sink, Linker.link settings (liveOnly pkgs) maps sink =
      { Linker.link settings pkgs maps sink with
        tally := (Linker.link settings pkgs maps sink).tally.map fun t =>
          { t with declarations := declarationCount (liveOnly pkgs) } }) ∧
    (∀ change settings maps sink, Linker.link settings ((live pkgs).alterRest change pkgs) maps sink =
      Linker.link settings pkgs maps sink) := by
  refine ⟨fun place => ?_, fun settings maps sink => ?_, fun change settings maps sink => ?_⟩
  · rw [isSome_declaration?]
    exact Selection.live_restrict place
  · have packages : (liveOnly pkgs).length = pkgs.length := List.length_mapIdx
    exact Linker.link_congr packages (Selection.size_live_restrict pkgs) (Linker.program_liveOnly settings pkgs)
      maps sink
  · have packages : ((live pkgs).alterRest change pkgs).length = pkgs.length := List.length_mapIdx
    have selected : (live ((live pkgs).alterRest change pkgs)).size = (live pkgs).size :=
      Selection.size_congr Selection.live_alterRest
    rw [Linker.link_congr packages selected (Linker.program_alterRest settings change pkgs) maps sink,
      Selection.declarationCount_alterRest]
    exact (Linker.link_congr rfl rfl rfl maps sink).symm

end Linkage
