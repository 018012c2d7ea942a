import Linkage.SourceMap.Basic
import Linkage.Proofs.SourceMap.Vlq

/-!
# Reading source maps

A reader of revision 3 splits a text into lines at semicolons and a line into segments at commas. A segment has one
number or four, each of them relative to the segment before that has it, but for the column of the output, which
starts again with each line. From the text of a map it reads the segments of the map.
-/
namespace Linkage.SourceMap

/-! ### The reader -/

/-- The number at the front of a text, which is given relative to `previous`, and what follows it. -/
def readNumber (previous : Nat) (text : List Char) : Option (Nat × List Char) := do
  let (distance, rest) ← Vlq.read text
  let number ← ((previous : Int) + distance).toNat?
  return (number, rest)

/-- The segment with the given text. Before it, the line had come to `column`, and `origin` was the last origin. -/
def readSegment (line column : Nat) (origin : Origin) (text : List Char) : Option Segment := do
  let (column, rest) ← readNumber column text
  if rest.isEmpty then return ⟨line, column, none⟩
  let (originFile, rest) ← readNumber origin.file rest
  let (originLine, rest) ← readNumber origin.line rest
  let (originColumn, rest) ← readNumber origin.column rest
  if rest.isEmpty then return ⟨line, column, some ⟨originFile, originLine, originColumn⟩⟩ else none

/-- The segments of one line, and the last origin after them. -/
def readLine (line column : Nat) (origin : Origin) : List (List Char) → Option (List Segment × Origin)
  | [] => return ([], origin)
  | text :: rest => do
    let segment ← readSegment line column origin text
    let (segments, origin) ← readLine line segment.column (segment.origin.getD origin) rest
    return (segment :: segments, origin)

/-- The segments of lines, the first of which begins at `column`. -/
def readLines (line column : Nat) (origin : Origin) : List (List (List Char)) → Option (List Segment)
  | [] => return []
  | texts :: rest => do
    let (segments, origin) ← readLine line column origin texts
    return segments ++ (← readLines (line + 1) 0 origin rest)

/-- The texts between commas. There are none in an empty line. -/
def segmentTexts (line : List Char) : List (List Char) := if line.isEmpty then [] else line.splitOn ','

/-- All segments of a text. Its first line is the first of the output, and its first origin is relative to zero. -/
def decode (text : String) : Option (List Segment) :=
  readLines 0 0 ⟨0, 0, 0⟩ ((text.toList.splitOn ';').map segmentTexts)

/-! ### Segments -/

/-- The text of a segment has digits only, at least one. -/
structure Digits (text : List Char) : Prop where
  nonempty : text ≠ []
  digit : ∀ character ∈ text, (Vlq.digitValue? character).isSome = true

/-- A separator is no digit, so it stands in no segment. -/
theorem Digits.not_mem {text : List Char} (digits : Digits text) {separator : Char}
    (other : Vlq.digitValue? separator = none) : separator ∉ text := by
  intro member
  have digit := digits.digit separator member
  rw [other] at digit
  cases digit

namespace Cursor

variable {c : Cursor} {s : Segment}

/-- The cursor on the line of the segment. -/
def onLine (c : Cursor) (s : Segment) : Cursor := (c.moveTo s.line).2

/-- The text of a segment, without what separates it from the one before. -/
def fields (c : Cursor) (s : Segment) : List Char :=
  Vlq.encode (Vlq.delta s.column (c.onLine s).column) ++
    match s.origin with
    | none => []
    | some o =>
      Vlq.encode (Vlq.delta o.file c.origin.file) ++ Vlq.encode (Vlq.delta o.line c.origin.line) ++
        Vlq.encode (Vlq.delta o.column c.origin.column)

/-- The cursor behind a segment. -/
def after (c : Cursor) (s : Segment) : Cursor :=
  { c.onLine s with column := s.column, fresh := false, origin := s.origin.getD c.origin }

theorem onLine_eq (c : Cursor) (s : Segment) :
    c.onLine s = if c.line < s.line then { c with line := s.line, column := 0, fresh := true } else c := by
  rw [onLine, moveTo]
  split <;> rfl

theorem onLine_origin (c : Cursor) (s : Segment) : (c.onLine s).origin = c.origin := by
  rw [onLine_eq]
  split <;> rfl

theorem after_line (ahead : c.line ≤ s.line) : (c.after s).line = s.line := by
  rw [after, onLine_eq]
  split
  · rfl
  · change c.line = s.line
    omega

/-- A segment is written as the line ends it skips, a comma when the line has one already, and its fields. -/
theorem write_eq (c : Cursor) (s : Segment) :
    c.write s = (List.replicate (s.line - c.line) ';' ++
      ((if (c.onLine s).fresh then [] else [',']) ++ c.fields s), c.after s) := by
  have ends : (c.moveTo s.line).1 = List.replicate (s.line - c.line) ';' := by
    rw [moveTo]
    split
    next down => rfl
    next level => rw [Nat.sub_eq_zero_of_le (Nat.le_of_not_lt level), List.replicate_zero]
  have origin : (c.moveTo s.line).2.origin = c.origin := onLine_origin c s
  rw [← ends]
  obtain ⟨line, column, place⟩ := s
  cases place with
  | none =>
    simp only [write, after, fields, onLine, Option.getD_none, List.append_assoc, List.append_nil, ← origin]
    rfl
  | some o =>
    simp only [write, after, fields, onLine, Option.getD_some, List.append_assoc, origin]
    rfl

theorem fields_digits (c : Cursor) (s : Segment) : Digits (c.fields s) := by
  refine ⟨by simp [fields, Vlq.encode_ne_nil], fun character member => ?_⟩
  obtain ⟨line, column, origin⟩ := s
  cases origin with
  | none => exact Vlq.isSome_digitValue? (by simpa [fields] using member)
  | some o =>
    simp only [fields, List.mem_append] at member
    rcases member with number | (number | number) | number <;> exact Vlq.isSome_digitValue? number

end Cursor

/-- All numbers fit in words. -/
structure Origin.Small (o : Origin) : Prop where
  file : o.file < 2 ^ 63
  line : o.line < 2 ^ 63
  column : o.column < 2 ^ 63

structure Segment.Small (s : Segment) : Prop where
  column : s.column < 2 ^ 63
  origin : ∀ o ∈ s.origin, o.Small

structure Cursor.Small (c : Cursor) : Prop where
  column : c.column < 2 ^ 63
  origin : c.origin.Small

namespace Cursor

variable {c : Cursor} {s : Segment}

theorem Small.onLine_column (small : c.Small) (s : Segment) : (c.onLine s).column < 2 ^ 63 := by
  rw [onLine_eq]
  split
  · exact Nat.two_pow_pos 63
  · exact small.column

theorem Small.after (small : c.Small) (smallSegment : s.Small) : (c.after s).Small := by
  refine ⟨smallSegment.column, ?_⟩
  rw [Cursor.after]
  cases origin : s.origin with
  | none => exact small.origin
  | some o => exact smallSegment.origin o origin

end Cursor

/-- A number written as a delta is read back from the number before it. -/
theorem readNumber_delta {current previous : Nat} (now : current < 2 ^ 63) (before : previous < 2 ^ 63)
    (rest : List Char) :
    readNumber previous (Vlq.encode (Vlq.delta current previous) ++ rest) = some (current, rest) := by
  have distance := Vlq.toInt_delta now before
  have sum : (previous : Int) + (current - previous) = current := by omega
  rw [readNumber, Vlq.read_encode (by omega), distance]
  simp [sum, Int.toNat?]

namespace Cursor

variable {c : Cursor} {s : Segment}

/-- The fields of a segment read back as that segment, from the column and origin the cursor has there. -/
theorem readSegment_fields (small : c.Small) (smallSegment : s.Small) :
    readSegment s.line (c.onLine s).column c.origin (c.fields s) = some s := by
  have first := readNumber_delta smallSegment.column (small.onLine_column s)
  obtain ⟨line, column, origin⟩ := s
  cases origin with
  | none =>
    rw [readSegment, fields, first]
    rfl
  | some o =>
    have origins := smallSegment.origin o rfl
    have file := readNumber_delta origins.file small.origin.file
    have down := readNumber_delta origins.line small.origin.line
    have right := readNumber_delta origins.column small.origin.column []
    rw [List.append_nil] at right
    simp [readSegment, fields, first, file, down, right, Vlq.encode_ne_nil]

/-! ### Lines of segments -/

/-- The texts of segments that follow the cursor, line by line. The first line is the one that the cursor is on. -/
def lines (c : Cursor) : List Segment → List (List (List Char))
  | [] => [[]]
  | s :: rest =>
    List.replicate (s.line - c.line) [] ++ ((c.after s).lines rest).modifyHead (c.fields s :: ·)

theorem lines_ne_nil (c : Cursor) (segments : List Segment) : c.lines segments ≠ [] := by
  induction segments generalizing c with
  | nil => exact List.cons_ne_nil [] []
  | cons s rest ih => simp [lines, ih]

/-- One more segment adds its line ends and its fields in front of the first line. -/
theorem lines_cons (c : Cursor) (s : Segment) (rest : List Segment) :
    ∃ line later, (c.after s).lines rest = line :: later ∧
      c.lines (s :: rest) = List.replicate (s.line - c.line) [] ++ (c.fields s :: line) :: later := by
  obtain ⟨line, later, found⟩ := List.exists_cons_of_ne_nil (lines_ne_nil (c.after s) rest)
  refine ⟨line, later, found, ?_⟩
  rw [lines, found, List.modifyHead_cons]

/-- What the cursor writes for segments that follow it. -/
def text (c : Cursor) (segments : List Segment) : List Char := (writeSegments c [] segments).flatten

theorem writeSegments_eq (c : Cursor) (done : List (List Char)) (segments : List Segment) :
    writeSegments c done segments = done.reverse ++ writeSegments c [] segments := by
  induction segments generalizing c done with
  | nil => simp [writeSegments]
  | cons s rest ih =>
    simp only [writeSegments]
    rw [ih, ih _ [_]]
    simp

theorem text_cons (c : Cursor) (s : Segment) (rest : List Segment) :
    c.text (s :: rest) = (c.write s).1 ++ (c.write s).2.text rest := by
  simp only [text, writeSegments]
  rw [writeSegments_eq]
  simp

end Cursor

/-- The text of lines, each given by the texts of its segments. -/
def join (lines : List (List (List Char))) : List Char := [';'].intercalate (lines.map [','].intercalate)

theorem join_singleton (line : List (List Char)) : join [line] = [','].intercalate line :=
  List.intercalate_singleton

theorem join_cons (line : List (List Char)) {later : List (List (List Char))} (more : later ≠ []) :
    join (line :: later) = [','].intercalate line ++ ';' :: join later := by
  rw [join, List.map_cons, List.intercalate_cons_of_ne_nil (by simpa using more), List.append_assoc]
  rfl

theorem join_cons_cons (text next : List Char) (line : List (List Char)) (later : List (List (List Char))) :
    join ((text :: next :: line) :: later) = text ++ ',' :: join ((next :: line) :: later) := by
  by_cases last : later = []
  · simp [last, join_singleton, List.intercalate_cons_cons]
  · simp [join_cons _ last, List.intercalate_cons_cons]

/-- Empty lines in front are that many line ends. -/
theorem join_replicate (count : Nat) {later : List (List (List Char))} (more : later ≠ []) :
    join (List.replicate count [] ++ later) = List.replicate count ';' ++ join later := by
  induction count with
  | zero => rfl
  | succ count ih =>
    have others : List.replicate count [] ++ later ≠ [] := by simp [more]
    rw [List.replicate_succ, List.cons_append, join_cons _ others, ih]
    rfl

namespace Cursor

/-- Segments that follow another one go on with its line. -/
theorem append_text {c : Cursor} (earlier : List Char) (segments : List Segment) (begun : c.fresh = false) :
    earlier ++ c.text segments = join ((c.lines segments).modifyHead (earlier :: ·)) := by
  -- What separates two segments is written with the second one, so the text of the first is carried along.
  induction segments generalizing c earlier with
  | nil => simp [text, writeSegments, lines, join]
  | cons s rest ih =>
    obtain ⟨line, more, found, all⟩ := lines_cons c s rest
    have later : c.fields s ++ (c.after s).text rest = join ((c.fields s :: line) :: more) := by
      rw [ih (c.fields s) rfl, found, List.modifyHead_cons]
    rw [text_cons, write_eq, all]
    simp only [List.append_assoc, later]
    cases down : s.line - c.line with
    | zero =>
      have level : (c.onLine s).fresh = false := by
        rw [onLine_eq, if_neg (by omega), begun]
      simp [level, join_cons_cons]
    | succ count =>
      have start : (c.onLine s).fresh = true := by
        rw [onLine_eq, if_pos (by omega)]
      have ends := join_replicate count (List.cons_ne_nil (c.fields s :: line) more)
      rw [List.replicate_succ, List.replicate_succ, List.cons_append, List.cons_append, List.modifyHead_cons,
        join_cons [earlier] (by simp), ends]
      simp [start]

/-- The text the cursor writes is that of its lines, from the start of a line. -/
theorem text_eq_join {c : Cursor} (segments : List Segment) (start : c.fresh = true) :
    c.text segments = join (c.lines segments) := by
  cases segments with
  | nil => simp [text, writeSegments, lines, join]
  | cons s rest =>
    have fresh : (c.onLine s).fresh = true := by
      rw [onLine_eq]
      split
      · rfl
      · exact start
    have more : ((c.after s).lines rest).modifyHead (c.fields s :: ·) ≠ [] := by
      simp [lines_ne_nil]
    rw [text_cons, write_eq, lines, join_replicate _ more, ← append_text _ _ rfl]
    simp [fresh]

theorem lines_digits {c : Cursor} {segments : List Segment} {line : List (List Char)} {text : List Char}
    (member : line ∈ c.lines segments) (inside : text ∈ line) : Digits text := by
  induction segments generalizing c line text with
  | nil =>
    rw [lines, List.mem_singleton] at member
    subst member
    cases inside
  | cons s rest ih =>
    obtain ⟨first, later, found, all⟩ := lines_cons c s rest
    rw [all, List.mem_append, List.mem_cons] at member
    rcases member with ends | rfl | below
    · rw [List.eq_of_mem_replicate ends] at inside
      cases inside
    · rcases List.mem_cons.mp inside with rfl | next
      · exact fields_digits c s
      · exact ih (found ▸ List.mem_cons_self) next
    · exact ih (found ▸ List.mem_cons_of_mem first below) inside

end Cursor

/-! ### Lines of a text -/

/-- The commas of a line divide it into the segments it was joined from. -/
theorem segmentTexts_intercalate {line : List (List Char)} (digits : ∀ text ∈ line, Digits text) :
    segmentTexts ([','].intercalate line) = line := by
  cases line with
  | nil => rfl
  | cons text rest =>
    have nonempty : [','].intercalate (text :: rest) ≠ [] := by
      have first := (digits text List.mem_cons_self).nonempty
      by_cases last : rest = [] <;> simp [last, first, List.intercalate_cons_of_ne_nil]
    rw [segmentTexts, if_neg (by simpa using nonempty)]
    exact List.splitOn_intercalate ',' (fun text member => (digits text member).not_mem rfl) (List.cons_ne_nil _ _)

theorem not_mem_intercalate {line : List (List Char)} (digits : ∀ text ∈ line, Digits text) :
    ';' ∉ [','].intercalate line := by
  induction line with
  | nil => exact List.not_mem_nil
  | cons text rest ih =>
    have first : ';' ∉ text := (digits text List.mem_cons_self).not_mem rfl
    have others := ih fun other member => digits other (List.mem_cons_of_mem text member)
    by_cases last : rest = []
    · simpa [last] using first
    · simp [List.intercalate_cons_of_ne_nil last, first, others]

/-- Splitting at the separators undoes the joining. -/
theorem segmentTexts_join {lines : List (List (List Char))} (nonempty : lines ≠ [])
    (digits : ∀ line ∈ lines, ∀ text ∈ line, Digits text) :
    ((join lines).splitOn ';').map segmentTexts = lines := by
  rw [join, List.splitOn_intercalate]
  · rw [List.map_map]
    refine (List.map_congr_left fun line member => ?_).trans (List.map_id lines)
    exact segmentTexts_intercalate (digits line member)
  · intro text member
    obtain ⟨line, there, rfl⟩ := List.mem_map.mp member
    exact not_mem_intercalate (digits line there)
  · simpa using nonempty

/-! ### Segments of lines -/

/-- The first segment of a line is read by itself, and the rest of the line from its column and origin. -/
theorem readLines_cons {line column : Nat} {origin : Origin} {text : List Char} {s : Segment}
    (read : readSegment line column origin text = some s) (first : List (List Char))
    (later : List (List (List Char))) :
    readLines line column origin ((text :: first) :: later) =
      (readLines line s.column (s.origin.getD origin) (first :: later)).map (s :: ·) := by
  cases inLine : readLine line s.column (s.origin.getD origin) first with
  | none => simp [readLines, readLine, read, inLine]
  | some result =>
    cases below : readLines (line + 1) 0 result.2 later <;> simp [readLines, readLine, read, inLine, below]

theorem readLines_replicate (line count : Nat) (origin : Origin) (later : List (List (List Char))) :
    readLines line 0 origin (List.replicate count [] ++ later) = readLines (line + count) 0 origin later := by
  induction count generalizing line with
  | zero => rfl
  | succ count ih =>
    rw [List.replicate_succ, List.cons_append, Nat.add_comm count 1, ← Nat.add_assoc, ← ih]
    simp [readLines, readLine]

namespace Cursor

variable {c : Cursor} {s : Segment}

/-- Behind the line ends in front of a segment, reading starts where the cursor would write. -/
theorem readLines_onLine (ahead : c.line ≤ s.line) (later : List (List (List Char))) :
    readLines c.line c.column c.origin (List.replicate (s.line - c.line) [] ++ later) =
      readLines s.line (c.onLine s).column c.origin later := by
  cases down : s.line - c.line with
  | zero =>
    have level : c.line = s.line := by omega
    rw [onLine_eq, if_neg (by omega), ← level]
    rfl
  | succ count =>
    have further : c.line + 1 + count = s.line := by omega
    rw [onLine_eq, if_pos (by omega), ← further, ← readLines_replicate]
    simp [List.replicate_succ, readLines, readLine]

/-- The lines a cursor writes read back as the segments, when these stand in the order of their lines. -/
theorem readLines_lines {segments : List Segment} (small : c.Small) (all : ∀ s ∈ segments, s.Small)
    (ahead : ∀ s ∈ segments, c.line ≤ s.line) (ordered : segments.Pairwise (·.line ≤ ·.line)) :
    readLines c.line c.column c.origin (c.lines segments) = some segments := by
  induction segments generalizing c with
  | nil => rfl
  | cons s rest ih =>
    have here := ahead s List.mem_cons_self
    have smallSegment := all s List.mem_cons_self
    obtain ⟨next, ordered⟩ := List.pairwise_cons.mp ordered
    have line := after_line here
    have later := ih (small.after smallSegment) (fun t member => all t (List.mem_cons_of_mem s member))
      (fun t member => line ▸ next t member) ordered
    obtain ⟨first, more, found, written⟩ := lines_cons c s rest
    rw [line, found] at later
    rw [written, readLines_onLine here, readLines_cons (readSegment_fields small smallSegment)]
    exact congrArg (Option.map (s :: ·)) later

end Cursor

/-- From the text of a map its segments are read, if they go down the output and their numbers fit in words. -/
theorem decode_mappings {m : SourceMap} (small : ∀ s ∈ m.segments.toList, s.Small)
    (ordered : m.segments.toList.Pairwise (·.line ≤ ·.line)) : decode m.mappings = some m.segments.toList := by
  have zero := Nat.two_pow_pos 63
  have start : Cursor.Small {} := ⟨zero, ⟨zero, zero, zero⟩⟩
  have written : m.mappings.toList = join (Cursor.lines {} m.segments.toList) := by
    rw [mappings, String.toList_ofList]
    exact Cursor.text_eq_join m.segments.toList rfl
  rw [decode, written, segmentTexts_join (Cursor.lines_ne_nil _ _) fun _ member _ inside =>
    Cursor.lines_digits member inside]
  exact Cursor.readLines_lines start small (fun s _ => Nat.zero_le s.line) ordered

example : decode "KAMQ,H;;;ACND" =
    some [⟨0, 5, some ⟨0, 6, 8⟩⟩, ⟨0, 2, none⟩, ⟨3, 0, some ⟨1, 0, 7⟩⟩] := by decide +kernel

end Linkage.SourceMap
