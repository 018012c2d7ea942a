import Linkage.Proofs.SourceMap.Reading
import Mathlib.Data.List.Forall2

/-!
# Source maps of mappings

A source map holds a segment for each mapping that was added, counted from zero, and each source file once. So a reader
of its text gets the mappings back.
-/
namespace Linkage

/-- A mapping counts lines and columns from where it should, and its column fits in a word. -/
structure Mapping.Counted (m : Mapping) : Prop where
  line : 1 ≤ m.line
  column : m.column < 2 ^ 63
  origin : ∀ p ∈ m.origin, 1 ≤ p.line ∧ 1 ≤ p.column

/-- The source files of mappings, in their order. -/
def Mapping.files (mappings : List Mapping) : List String := mappings.filterMap fun m => m.origin.map (·.file)

namespace SourceMap

/-- The origin is that of the position, counted from zero. -/
structure Origin.Stands (sources : Array String) (o : Origin) (p : Position) : Prop where
  file : sources[o.file]? = some p.file
  line : o.line + 1 = p.line.toNat
  column : o.column + 1 = p.column.toNat

/-- The segment is that of the mapping, counted from zero. -/
structure Segment.Stands (sources : Array String) (s : Segment) (m : Mapping) : Prop where
  line : s.line + 1 = m.line
  column : s.column = m.column
  origin : Option.Rel (Origin.Stands sources) s.origin m.origin

/-- The map has the segments of the mappings, and their files without repetition. -/
structure Collects (m : SourceMap) (mappings : List Mapping) : Prop where
  segments : List.Forall₂ (Segment.Stands m.sources) m.segments.toList mappings
  sources : m.sources.toList = (Mapping.files mappings).eraseDups

/-! ### Sources -/

/-- A file gets a place at the end unless it has one. -/
theorem place_sources (sources : Array String) (file : String) :
    (place sources file).2.toList = sources.toList ++ if file ∈ sources.toList then [] else [file] := by
  cases found : sources.findIdx? (· = file) with
  | none =>
    have absent : file ∉ sources := by
      intro member
      have different := Array.findIdx?_eq_none_iff.mp found file member
      simp at different
    simp [place, found, absent]
  | some i =>
    obtain ⟨inside, same, -⟩ := Array.findIdx?_eq_some_iff_getElem.mp found
    have member : file ∈ sources := by
      rw [← of_decide_eq_true same]
      exact Array.getElem_mem inside
    simp [place, found, member]

/-- The place a file gets holds that file. -/
theorem place_found (sources : Array String) (file : String) :
    (place sources file).2[(place sources file).1]? = some file := by
  cases found : sources.findIdx? (· = file) with
  | none => simp [place, found]
  | some i =>
    obtain ⟨inside, same, -⟩ := Array.findIdx?_eq_some_iff_getElem.mp found
    simp [place, found, inside, of_decide_eq_true same]

theorem getElem?_place {sources : Array String} {i : Nat} {earlier : String} (there : sources[i]? = some earlier)
    (file : String) : (place sources file).2[i]? = some earlier := by
  rw [← Array.getElem?_toList] at there ⊢
  have inside := (List.getElem?_eq_some_iff.mp there).1
  rw [place_sources, List.getElem?_append_left inside, there]

theorem eraseDups_concat (list : List String) (last : String) :
    (list ++ [last]).eraseDups = list.eraseDups ++ if last ∈ list then [] else [last] := by
  rw [List.eraseDups_append]
  by_cases known : last ∈ list <;> simp [known, List.removeAll, List.eraseDups_cons]

theorem rel_mono {α β : Type} {r r' : α → β → Prop} (weaker : ∀ x y, r x y → r' x y) {x : Option α} {y : Option β} :
    Option.Rel r x y → Option.Rel r' x y
  | .none => .none
  | .some related => .some (weaker _ _ related)

/-- A segment keeps its file when another one gets a place. -/
theorem Segment.Stands.place {sources : Array String} {s : Segment} {m : Mapping} (stands : s.Stands sources m)
    (file : String) : s.Stands (SourceMap.place sources file).2 m :=
  ⟨stands.line, stands.column, rel_mono (fun _ _ origin => ⟨getElem?_place origin.file file, origin.line,
    origin.column⟩) stands.origin⟩

/-! ### Segments -/

/-- One more mapping adds its segment, and its file when that is new. -/
theorem Collects.add {m : SourceMap} {mappings : List Mapping} (collects : m.Collects mappings) {mapping : Mapping}
    (counted : mapping.Counted) : (m.add mapping).Collects (mappings ++ [mapping]) := by
  have line : mapping.line - 1 + 1 = mapping.line := Nat.sub_add_cancel counted.line
  rw [SourceMap.add]
  cases origin : mapping.origin with
  | none =>
    refine ⟨?_, by simp [collects.sources, Mapping.files, origin]⟩
    have last : Segment.Stands m.sources ⟨mapping.line - 1, mapping.column, none⟩ mapping :=
      ⟨line, rfl, origin ▸ .none⟩
    simpa using List.rel_append collects.segments (.cons last .nil)
  | some p =>
    obtain ⟨originLine, originColumn⟩ := counted.origin p origin
    dsimp only
    refine ⟨?_, ?_⟩
    · have earlier := collects.segments.imp fun _ _ stands => stands.place p.file
      have first : Origin.Stands (SourceMap.place m.sources p.file).2
          ⟨(SourceMap.place m.sources p.file).1, p.line.toNat - 1, p.column.toNat - 1⟩ p :=
        ⟨place_found m.sources p.file, Nat.sub_add_cancel originLine, Nat.sub_add_cancel originColumn⟩
      have last : Segment.Stands (SourceMap.place m.sources p.file).2
          ⟨mapping.line - 1, mapping.column,
            some ⟨(SourceMap.place m.sources p.file).1, p.line.toNat - 1, p.column.toNat - 1⟩⟩ mapping :=
        ⟨line, rfl, origin ▸ .some first⟩
      simpa using List.rel_append earlier (.cons last .nil)
    · have files : Mapping.files (mappings ++ [mapping]) = Mapping.files mappings ++ [p.file] := by
        simp [Mapping.files, origin]
      simp only [files, place_sources, collects.sources, eraseDups_concat, List.mem_eraseDups]

theorem foldl_add_collects {m : SourceMap} {earlier : List Mapping} (collects : m.Collects earlier)
    {mappings : List Mapping} (counted : ∀ mapping ∈ mappings, mapping.Counted) :
    (mappings.foldl SourceMap.add m).Collects (earlier ++ mappings) := by
  induction mappings generalizing m earlier with
  | nil => simpa using collects
  | cons mapping rest ih =>
    have next := collects.add (counted mapping List.mem_cons_self)
    simpa using ih next fun other member => counted other (List.mem_cons_of_mem mapping member)

/-- A map built from mappings has their segments and their files. -/
theorem ofMappings_collects (file : String) {mappings : List Mapping}
    (counted : ∀ mapping ∈ mappings, mapping.Counted) : (ofMappings file mappings).Collects mappings := by
  have fresh : Collects { file } [] := ⟨.nil, rfl⟩
  exact foldl_add_collects fresh counted

theorem Origin.Stands.small {sources : Array String} {o : Origin} {p : Position} (stands : o.Stands sources p)
    (few : sources.size ≤ 2 ^ 63) : o.Small := by
  have inside := (Array.getElem?_eq_some_iff.mp stands.file).1
  have line := stands.line
  have column := stands.column
  have lineWord := p.line.toNat_lt
  have columnWord := p.column.toNat_lt
  exact ⟨by omega, by omega, by omega⟩

/-- The segment of a counted mapping is small enough for its deltas to be read back. -/
theorem Segment.Stands.small {sources : Array String} {s : Segment} {m : Mapping} (stands : s.Stands sources m)
    (few : sources.size ≤ 2 ^ 63) (counted : m.Counted) : s.Small := by
  refine ⟨stands.column ▸ counted.column, fun o there => ?_⟩
  have related := stands.origin
  rw [there] at related
  generalize m.origin = position at related
  cases related with
  | some origin => exact origin.small few

/-- A reader gets from the text of a source map the mappings that were added, counted from zero, in their order. The
files they refer to are in the list of sources, each of them once, in the order of their first mapping. No list that fits
in memory has more sources than a word can number. -/
theorem decode_ofMappings (file : String) {mappings : List Mapping}
    (counted : ∀ mapping ∈ mappings, mapping.Counted) (ordered : mappings.Pairwise (·.line ≤ ·.line))
    (few : (ofMappings file mappings).sources.size ≤ 2 ^ 63) :
    (∃ segments, decode (ofMappings file mappings).mappings = some segments ∧
      List.Forall₂ (Segment.Stands (ofMappings file mappings).sources) segments mappings) ∧
    (ofMappings file mappings).sources.toList = (Mapping.files mappings).eraseDups := by
  obtain ⟨segments, sources⟩ := ofMappings_collects file counted
  have lines : (ofMappings file mappings).segments.toList.map (·.line + 1) = mappings.map (·.line) := by
    rw [← List.forall₂_eq_eq_eq, List.forall₂_map_left_iff, List.forall₂_map_right_iff]
    exact segments.imp fun _ _ stands => stands.line
  refine ⟨⟨_, decode_mappings (fun s member => ?_) ?_, segments⟩, sources⟩
  · obtain ⟨i, inside, rfl⟩ := List.getElem_of_mem member
    have stands := segments.get inside (segments.length_eq ▸ inside)
    exact stands.small few (counted _ (List.get_mem _ _))
  · have below := List.pairwise_map.mpr ordered
    rw [← lines, List.pairwise_map] at below
    exact below.imp fun before => Nat.le_of_succ_le_succ before

end SourceMap

namespace Backwards

/-- Two places of the source for one of the output, columns and origins that go back, and code without a source. -/
def added : List Mapping :=
  [⟨1, 5, some ⟨"b.src", 7, 9⟩⟩, ⟨1, 5, some ⟨"b.src", 7, 2⟩⟩, ⟨1, 2, none⟩, ⟨1, 2, none⟩,
    ⟨4, 3, some ⟨"a.src", 1, 1⟩⟩, ⟨4, 3, some ⟨"b.src", 7, 2⟩⟩]

def map : SourceMap := .ofMappings "out.js" added

end Backwards

open Backwards SourceMap in
/-- Mappings whose columns and origins go back read back as they were added, and each file is listed once. -/
theorem decode_ofMappings_backwards :
    (∀ mapping ∈ added, mapping.Counted) ∧ added.Pairwise (·.line ≤ ·.line) ∧ map.sources.size ≤ 2 ^ 63 ∧
    (∃ segments, decode map.mappings = some segments ∧ List.Forall₂ (Segment.Stands map.sources) segments added) ∧
    map.sources.toList = ["b.src", "a.src"] := by
  have counted : ∀ mapping ∈ added, mapping.Counted := by
    have rules : ∀ mapping ∈ added, 1 ≤ mapping.line ∧ mapping.column < 2 ^ 63 ∧
        ∀ p ∈ mapping.origin, 1 ≤ p.line ∧ 1 ≤ p.column := by decide
    exact fun mapping member => ⟨(rules mapping member).1, (rules mapping member).2.1, (rules mapping member).2.2⟩
  have ordered : added.Pairwise (·.line ≤ ·.line) := by decide
  have few : map.sources.size ≤ 2 ^ 63 := by decide +kernel
  obtain ⟨read, sources⟩ := decode_ofMappings "out.js" counted ordered few
  exact ⟨counted, ordered, few, read, sources.trans (by decide)⟩

end Linkage
