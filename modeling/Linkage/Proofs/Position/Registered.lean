import Linkage.Proofs.Position.Lookup
import Mathlib.Data.List.Induction

/-!
# Tables that register files

A table that files are added to, one after the other, keeps the layout rules, and each handle that an added file owns
stands for the line and the column where the text before it ends. A file whose handles do not reach is refused, and
the table stays as it is.
-/
namespace Linkage

namespace SourceFile

variable {text source : Bytes}

/-! ### Line starts -/

/-- One more byte adds a line start exactly when it is a newline. -/
theorem offsetsAfterNewlines_concat (text : Bytes) (b : UInt8) :
    offsetsAfterNewlines (text ++ [b]) =
      offsetsAfterNewlines text ++ if b = newline then [UInt32.ofNat (text.length + 1)] else [] := by
  simp only [offsetsAfterNewlines, List.zipIdx_append, List.filterMap_append, List.zipIdx_singleton, Nat.zero_add]
  split <;> simp [*]

/-- The line starts of a longer text are those of its front and starts beyond it. -/
theorem exists_offsetsAfterNewlines_append (front back : Bytes) (small : (front ++ back).length < 2 ^ 32) :
    ∃ later, offsetsAfterNewlines (front ++ back) = offsetsAfterNewlines front ++ later ∧
      ∀ start ∈ later, front.length < start.toNat := by
  simp only [offsetsAfterNewlines, List.zipIdx_append, List.filterMap_append, Nat.zero_add]
  refine ⟨_, rfl, fun start member => ?_⟩
  obtain ⟨⟨b, i⟩, inBack, found⟩ := List.mem_filterMap.mp member
  obtain ⟨least, below, _⟩ := List.mem_zipIdx inBack
  rw [List.length_append] at small
  split at found
  next =>
    cases found
    rw [UInt32.toNat_ofNat_of_lt' (by simp only [UInt32.size]; omega)]
    omega
  next => cases found

/-- The line starts of a text, the last one of them apart. -/
structure Lines (text : Bytes) (earlier : List UInt32) (last : UInt32) : Prop where
  starts : 0 :: offsetsAfterNewlines text = earlier ++ [last]
  number : earlier.length = text.count newline
  column : last.toNat + (text.reverse.takeWhile (· ≠ newline)).length = text.length
  ascending : (earlier ++ [last]).Pairwise (· < ·)

theorem Lines.le_length {earlier : List UInt32} {last start : UInt32} (lines : Lines text earlier last)
    (member : start ∈ earlier ++ [last]) : start.toNat ≤ text.length := by
  have column := lines.column
  rcases List.mem_append.mp member with old | same
  · have before := (List.pairwise_append.mp lines.ascending).2.2 start old last (List.mem_singleton_self last)
    rw [UInt32.lt_iff_toNat_lt] at before
    omega
  · rw [List.mem_singleton.mp same]
    omega

/-- Every text small enough to be addressed divides into earlier line starts and a last one. -/
theorem exists_lines (text : Bytes) (small : text.length < 2 ^ 32) : ∃ earlier last, Lines text earlier last := by
  induction text using List.reverseRecOn with
  | nil => exact ⟨[], 0, rfl, rfl, rfl, List.pairwise_singleton _ _⟩
  | append_singleton text b ih =>
    rw [List.length_append, List.length_singleton] at small
    obtain ⟨earlier, last, lines⟩ := ih (by omega)
    have starts := offsetsAfterNewlines_concat text b
    by_cases ends : b = newline
    -- The line is complete, and the next one starts behind the newline.
    · have fits : (UInt32.ofNat (text.length + 1)).toNat = text.length + 1 := UInt32.toNat_ofNat_of_lt' small
      rw [if_pos ends] at starts
      refine ⟨earlier ++ [last], UInt32.ofNat (text.length + 1), ?_, ?_, ?_, ?_⟩
      · rw [starts, ← List.cons_append, lines.starts]
      · simp [lines.number, ends]
      · rw [fits]
        simp [ends]
      · refine List.pairwise_append.mpr ⟨lines.ascending, List.pairwise_singleton _ _, ?_⟩
        intro start old new same
        have reached := lines.le_length old
        rw [List.mem_singleton.mp same, UInt32.lt_iff_toNat_lt, fits]
        omega
    · rw [if_neg ends, List.append_nil] at starts
      refine ⟨earlier, last, starts ▸ lines.starts, ?_, ?_, lines.ascending⟩
      · simp [lines.number, ends]
      · simp [ends, ← Nat.add_assoc, ← lines.column]

variable {name : String} {base : UInt32}

/-- A registered source that fits the handle space is a well-formed file. -/
theorem ofSource_wellFormed (name : String) (positive : 0 < base.toNat) (fits : base.toNat + source.length + 1 < 2 ^ 32) :
    (ofSource name base source).WellFormed := by
  obtain ⟨earlier, last, lines⟩ := exists_lines source (by omega)
  have size : (UInt32.ofNat source.length).toNat = source.length :=
    UInt32.toNat_ofNat_of_lt' (by simp only [UInt32.size]; omega)
  refine ⟨positive, ?_, rfl, ?_, ?_⟩
  · simp only [ofSource, size]
    exact fits
  · simp only [ofSource, lines.starts]
    exact lines.ascending
  · simp only [ofSource, lines.starts, UInt32.le_iff_toNat_le, size]
    exact fun start member => lines.le_length member

/-- The line starts at or before an offset are those of the text up to it. -/
theorem takeWhile_lineStarts {offset : UInt32} (small : source.length < 2 ^ 32)
    (inside : offset.toNat ≤ source.length) {earlier : List UInt32} {last : UInt32}
    (lines : Lines (source.take offset.toNat) earlier last) :
    (0 :: offsetsAfterNewlines source).takeWhile (· ≤ offset) = earlier ++ [last] := by
  have length : (source.take offset.toNat).length = offset.toNat := List.length_take_of_le inside
  obtain ⟨later, starts, behind⟩ := exists_offsetsAfterNewlines_append (source.take offset.toNat)
    (source.drop offset.toNat) (by rwa [List.take_append_drop])
  rw [List.take_append_drop] at starts
  rw [starts, ← List.cons_append, lines.starts]
  refine Position.takeWhile_append_eq_left (fun start member => ?_) fun start member => ?_
  · have reached := lines.le_length member
    rw [decide_eq_true_eq, UInt32.le_iff_toNat_le]
    omega
  · have beyond := behind start member
    rw [decide_eq_true_eq, UInt32.le_iff_toNat_le]
    omega

/-- An offset of a text is where the text before it ends. -/
theorem lineColumn?_ofSource {offset line column : UInt32} (small : source.length + 1 < 2 ^ 32)
    (inside : offset.toNat ≤ source.length) :
    (ofSource name base source).lineColumn? offset = some (line, column) ↔
      line.toNat = 1 + (source.take offset.toNat).count newline ∧
      column.toNat = 1 + ((source.take offset.toNat).reverse.takeWhile (· ≠ newline)).length := by
  have length : (source.take offset.toNat).length = offset.toNat := List.length_take_of_le inside
  obtain ⟨_, _, all⟩ := exists_lines source (by omega)
  obtain ⟨earlier, last, lines⟩ := exists_lines (source.take offset.toNat) (by omega)
  have sorted : (0 :: offsetsAfterNewlines source).Pairwise (· < ·) := all.starts ▸ all.ascending
  rw [lineColumn?_of_split sorted (takeWhile_lineStarts (by omega) inside lines)]
  have number := lines.number
  have started := lines.column
  have counted : (source.take offset.toNat).count newline ≤ (source.take offset.toNat).length := List.count_le_length
  have line : (UInt32.ofNat (earlier.length + 1)).toNat = earlier.length + 1 :=
    UInt32.toNat_ofNat_of_lt' (by simp only [UInt32.size]; omega)
  have before : last ≤ offset := UInt32.le_iff_toNat_le.mpr (by omega)
  have column : (offset - last).toNat = offset.toNat - last.toNat := UInt32.toNat_sub_of_le _ _ before
  simp only [Option.map_eq_some_iff, checkedAdd_eq_some_iff, Prod.mk.injEq, ← UInt32.toNat_inj, column, line,
    UInt32.toNat_one]
  constructor
  · rintro ⟨c, total, first, second⟩
    omega
  · rintro ⟨first, second⟩
    exact ⟨_, by omega, by omega, rfl⟩

/-- What a handle of an added file stands for. -/
theorem place_ofSource {handle : UInt32} {p : Position} (small : source.length < 2 ^ 32)
    (rules : (ofSource name base source).WellFormed) :
    ((ofSource name base source).contains handle = true ∧ (ofSource name base source).name = p.file ∧
      (ofSource name base source).lineColumn? (handle - (ofSource name base source).base) = some (p.line, p.column)) ↔
    name = p.file ∧ ∃ offset ≤ source.length, handle.toNat = base.toNat + offset ∧
      p.line.toNat = 1 + (source.take offset).count newline ∧
      p.column.toNat = 1 + ((source.take offset).reverse.takeWhile (· ≠ newline)).length := by
  have size : (ofSource name base source).size.toNat = source.length := UInt32.toNat_ofNat_of_lt' small
  have fits := rules.fits
  have positive := rules.base_pos
  rw [contains_iff, size]
  rw [size] at fits
  change (base.toNat ≤ _ ∧ _ ≤ base.toNat + _) ∧ name = p.file ∧ lineColumn? _ (handle - base) = _ ↔ _
  constructor
  · rintro ⟨⟨least, greatest⟩, file, place⟩
    have offset : (handle - base).toNat = handle.toNat - base.toNat :=
      UInt32.toNat_sub_of_le _ _ (UInt32.le_iff_toNat_le.mpr least)
    rw [lineColumn?_ofSource (by omega) (by omega)] at place
    exact ⟨file, (handle - base).toNat, by omega, by omega, place⟩
  · rintro ⟨file, offset, inside, same, place⟩
    have least : base.toNat ≤ handle.toNat := by omega
    have offset : (handle - base).toNat = offset := by
      rw [UInt32.toNat_sub_of_le _ _ (UInt32.le_iff_toNat_le.mpr least)]
      omega
    refine ⟨⟨least, by omega⟩, file, (lineColumn?_ofSource (by omega) (by omega)).mpr ?_⟩
    rw [offset]
    exact place

end SourceFile

namespace PositionTable

/-! ### Adding a file -/

variable {t t' : PositionTable} {name : String} {source : Bytes} {base : UInt32}

/-- The least handle behind those of the last file. -/
def free (t : PositionTable) : Nat :=
  match t.files.back? with
  | some last => last.base.toNat + last.size.toNat + 1
  | none => 1

/-- The end of each file comes before the first handle of every later one. -/
def Spaced (t : PositionTable) : Prop :=
  t.files.toList.Pairwise fun f g => f.base.toNat + f.size.toNat < g.base.toNat

theorem Spaced.before_free (spaced : t.Spaced) {f : SourceFile} (member : f ∈ t.files.toList) :
    f.base.toNat + f.size.toNat < t.free := by
  unfold free
  rw [← Array.getLast?_toList]
  unfold Spaced at spaced
  rcases List.eq_nil_or_concat t.files.toList with empty | ⟨front, last, split⟩
  · rw [empty] at member
    cases member
  · rw [List.concat_eq_append] at split
    rw [split] at member spaced ⊢
    rw [List.getLast?_concat]
    rcases List.mem_append.mp member with earlier | same
    · have gap := (List.pairwise_append.mp spaced).2.2 f earlier last (List.mem_singleton_self last)
      dsimp only
      omega
    · rw [List.mem_singleton.mp same]
      exact Nat.lt_succ_self _

theorem WellFormed.before_free (rules : t.WellFormed) {f : SourceFile} (member : f ∈ t.files.toList) :
    f.base.toNat + f.size.toNat < t.free :=
  Spaced.before_free rules.disjoint member

/-- The handle 0 is never free: it stands for no position. -/
theorem free_pos (t : PositionTable) : 0 < t.free := by
  unfold free
  split <;> omega

/-- The first handle of the file that is added next. -/
def next? (t : PositionTable) : Option UInt32 :=
  match t.files.back? with
  | some last => last.next?
  | none => some 1

theorem next?_eq_some_iff : t.next? = some base ↔ base.toNat = t.free := by
  unfold next? free
  cases t.files.back? with
  | none => rw [Option.some.injEq, ← UInt32.toNat_inj, UInt32.toNat_one, eq_comm]
  | some last => rw [SourceFile.next?_eq_some_iff, eq_comm]

theorem register_eq (t : PositionTable) (name : String) (source : Bytes) :
    t.register name source = t.next?.bind fun base =>
      (SourceFile.ofSource name base source).next?.map fun _ =>
        (base, ⟨t.files.push (.ofSource name base source)⟩) := by
  unfold register next?
  simp only [Option.map_eq_bind]
  cases t.files.back? <;> rfl

/-- Of a text's length only the remainder counts that a word can hold. -/
theorem register_eq_some_iff_mod :
    t.register name source = some (base, t') ↔
      base.toNat = t.free ∧ t.free + source.length % 2 ^ 32 + 1 < 2 ^ 32 ∧
      t' = ⟨t.files.push (.ofSource name base source)⟩ := by
  have reaches : ∀ b, (∃ n, (SourceFile.ofSource name b source).next? = some n) ↔
      b.toNat + source.length % 2 ^ 32 + 1 < 2 ^ 32 := by
    intro b
    rw [← Option.isSome_iff_exists, SourceFile.isSome_next?_iff, SourceFile.ofSource, UInt32.toNat_ofNat']
  simp only [register_eq, Option.bind_eq_some_iff, Option.map_eq_some_iff, next?_eq_some_iff, Prod.mk.injEq,
    exists_and_right, reaches]
  constructor
  · rintro ⟨b, start, fits, rfl, rfl⟩
    exact ⟨start, start ▸ fits, rfl⟩
  · rintro ⟨start, fits, rfl⟩
    exact ⟨base, start, start ▸ fits, rfl, rfl⟩

/-- A short source is registered at the first free handle, provided that its end fits. -/
theorem register_eq_some_iff (small : source.length < 2 ^ 32) :
    t.register name source = some (base, t') ↔
      base.toNat = t.free ∧ t.free + source.length + 1 < 2 ^ 32 ∧
      t' = ⟨t.files.push (.ofSource name base source)⟩ := by
  rw [register_eq_some_iff_mod, Nat.mod_eq_of_lt small]

theorem register_eq_none_iff_mod :
    t.register name source = none ↔ 2 ^ 32 ≤ t.free + source.length % 2 ^ 32 + 1 := by
  rw [Option.eq_none_iff_forall_ne_some, ← Nat.not_lt]
  constructor
  · intro refused fits
    have first : (UInt32.ofNat t.free).toNat = t.free :=
      UInt32.toNat_ofNat_of_lt' (by simp only [UInt32.size]; omega)
    exact refused _ (register_eq_some_iff_mod.mpr ⟨first, fits, rfl⟩)
  · rintro large ⟨base, t'⟩ added
    exact large (register_eq_some_iff_mod.mp added).2.1

/-- A short source is refused exactly when its end does not fit the handle space. -/
theorem register_eq_none_iff (small : source.length < 2 ^ 32) :
    t.register name source = none ↔ 2 ^ 32 ≤ t.free + source.length + 1 := by
  rw [register_eq_none_iff_mod, Nat.mod_eq_of_lt small]

/-- A registration keeps the gaps between the files, also when the length is cut to 32 bits. -/
theorem Spaced.register (spaced : t.Spaced) (added : t.register name source = some (base, t')) : t'.Spaced := by
  obtain ⟨first, -, rfl⟩ := register_eq_some_iff_mod.mp added
  rw [Spaced, Array.toList_push]
  refine List.pairwise_append.mpr ⟨spaced, List.pairwise_singleton _ _, fun f old g new => ?_⟩
  rw [List.mem_singleton.mp new]
  have before := spaced.before_free old
  exact first ▸ before

/-- A registration of a short source keeps the rules of the table. -/
theorem WellFormed.register (rules : t.WellFormed) (small : source.length < 2 ^ 32)
    (added : t.register name source = some (base, t')) : t'.WellFormed := by
  refine ⟨?_, Spaced.register rules.disjoint added⟩
  obtain ⟨first, fits, rfl⟩ := (register_eq_some_iff small).mp added
  intro f member
  rw [Array.toList_push, List.mem_append, List.mem_singleton] at member
  rcases member with old | rfl
  · exact rules.files f old
  · exact SourceFile.ofSource_wellFormed name (first ▸ t.free_pos) (first ▸ fits)

/-! ### Adding files one after the other -/

/-- The answers to a list of names and texts that are added in turn, and the table as it ends. A refused file leaves
the table as it is. -/
def registerAll (t : PositionTable) : List (String × Bytes) → List (Option UInt32) × PositionTable
  | [] => ([], t)
  | (name, source) :: rest =>
    match t.register name source with
    | some (base, t') =>
      let (answers, final) := t'.registerAll rest
      (some base :: answers, final)
    | none =>
      let (answers, final) := t.registerAll rest
      (none :: answers, final)

theorem registerAll_cons_of_some {rest : List (String × Bytes)} (added : t.register name source = some (base, t')) :
    t.registerAll ((name, source) :: rest) = (some base :: (t'.registerAll rest).1, (t'.registerAll rest).2) := by
  rw [registerAll, added]

theorem registerAll_cons_of_none {rest : List (String × Bytes)} (refused : t.register name source = none) :
    t.registerAll ((name, source) :: rest) = (none :: (t.registerAll rest).1, (t.registerAll rest).2) := by
  rw [registerAll, refused]

/-- What every file that is added keeps, a list of them keeps. -/
theorem registerAll_induction {P : PositionTable → Prop} {calls : List (String × Bytes)} (start : P t)
    (keeps : ∀ {t t' : PositionTable} {name : String} {source : Bytes} {base : UInt32}, (name, source) ∈ calls →
      P t → t.register name source = some (base, t') → P t') : P (t.registerAll calls).2 := by
  induction calls generalizing t with
  | nil => exact start
  | cons call rest ih =>
    obtain ⟨name, source⟩ := call
    cases added : t.register name source with
    | none =>
      rw [registerAll_cons_of_none added]
      exact ih start fun later => keeps (List.mem_cons_of_mem _ later)
    | some answer =>
      rw [registerAll_cons_of_some added]
      exact ih (keeps List.mem_cons_self start added) fun later => keeps (List.mem_cons_of_mem _ later)

theorem WellFormed.registerAll {calls : List (String × Bytes)} (rules : t.WellFormed)
    (small : ∀ call ∈ calls, call.2.length < 2 ^ 32) : (t.registerAll calls).2.WellFormed :=
  registerAll_induction rules fun member rules added => rules.register (small _ member) added

/-- The files of a table after some calls are its own and one for each call that got a base. -/
theorem mem_files_registerAll {calls : List (String × Bytes)} (small : ∀ call ∈ calls, call.2.length < 2 ^ 32)
    {f : SourceFile} :
    f ∈ (t.registerAll calls).2.files.toList ↔ f ∈ t.files.toList ∨
      ∃ name source base, ((name, source), some base) ∈ calls.zip (t.registerAll calls).1 ∧
        f = .ofSource name base source := by
  induction calls generalizing t with
  | nil => simp [registerAll]
  | cons call rest ih =>
    obtain ⟨name, source⟩ := call
    obtain ⟨here, later⟩ := List.forall_mem_cons.mp small
    cases added : t.register name source with
    | none =>
      rw [registerAll_cons_of_none added]
      simp [ih later]
    | some answer =>
      obtain ⟨base, t'⟩ := answer
      rw [registerAll_cons_of_some added, ih later]
      obtain ⟨_, _, rfl⟩ := (register_eq_some_iff here).mp added
      simp only [Array.toList_push, List.mem_append, List.zip_cons_cons, List.mem_cons, List.not_mem_nil, or_false,
        or_assoc]
      refine or_congr_right ?_
      constructor
      · rintro (rfl | ⟨name, source, base, member, rfl⟩)
        · exact ⟨name, source, base, .inl rfl, rfl⟩
        · exact ⟨name, source, base, .inr member, rfl⟩
      · rintro ⟨name, source, base, same | member, rfl⟩
        · cases same
          exact .inl rfl
        · exact .inr ⟨name, source, base, member, rfl⟩

/-- A refused call leaves the table as it was. -/
theorem registerAll_concat_of_none {calls : List (String × Bytes)}
    (refused : (t.registerAll calls).2.register name source = none) :
    (t.registerAll (calls ++ [(name, source)])).2 = (t.registerAll calls).2 := by
  induction calls generalizing t with
  | nil => exact congrArg (·.2) (registerAll_cons_of_none refused)
  | cons call rest ih =>
    obtain ⟨first, text⟩ := call
    rw [List.cons_append]
    cases added : t.register first text with
    | none =>
      rw [registerAll_cons_of_none added] at refused ⊢
      rw [registerAll_cons_of_none added]
      exact ih refused
    | some answer =>
      rw [registerAll_cons_of_some added] at refused ⊢
      rw [registerAll_cons_of_some added]
      exact ih refused

end PositionTable

open SourceFile PositionTable

/-- However many files are added to an empty table, it keeps the layout rules. A handle stands for a place exactly if
it lies in an added file, at most as many bytes behind its first handle as its text has: the line counts the newlines
of the text before, and the column the bytes after the last of them. A file is refused exactly if its handles do not
reach, and then the table stays as it is. -/
theorem position?_registerAll (calls : List (String × Bytes)) (small : ∀ call ∈ calls, call.2.length < 2 ^ 32) :
    (registerAll .empty calls).2.check = .ok () ∧
    (∀ handle name line column, (registerAll .empty calls).2.position? handle = some ⟨name, line, column⟩ ↔
      ∃ source base, ((name, source), some base) ∈ calls.zip (registerAll .empty calls).1 ∧
        ∃ offset ≤ source.length, handle.toNat = base.toNat + offset ∧
          line.toNat = 1 + (source.take offset).count newline ∧
          column.toNat = 1 + ((source.take offset).reverse.takeWhile (· ≠ newline)).length) ∧
    (registerAll .empty calls).2.position? 0 = none ∧
    ∀ name source, source.length < 2 ^ 32 →
      ((registerAll .empty calls).2.register name source = none ↔
        2 ^ 32 ≤ (registerAll .empty calls).2.free + source.length + 1) ∧
      ((registerAll .empty calls).2.register name source = none →
        (registerAll .empty (calls ++ [(name, source)])).2 = (registerAll .empty calls).2) := by
  have rules : (registerAll .empty calls).2.WellFormed :=
    WellFormed.registerAll ⟨fun _ member => absurd member List.not_mem_nil, .nil⟩ small
  refine ⟨check_eq_ok_iff.mpr rules, fun handle name line column => ?_, rfl, fun name source fits => ?_⟩
  · rw [position?_eq_some_iff rules]
    constructor
    · rintro ⟨f, member, owns⟩
      rcases (mem_files_registerAll small).mp member with none | ⟨file, source, base, added, rfl⟩
      · cases none
      · have short := small _ (List.of_mem_zip added).1
        obtain ⟨rfl, place⟩ := (place_ofSource short (rules.files _ member)).mp owns
        exact ⟨source, base, added, place⟩
    · rintro ⟨source, base, added, place⟩
      have member := (mem_files_registerAll small).mpr (.inr ⟨name, source, base, added, rfl⟩)
      have short := small _ (List.of_mem_zip added).1
      exact ⟨_, member, (place_ofSource short (rules.files _ member)).mpr ⟨rfl, place⟩⟩
  · exact ⟨register_eq_none_iff fits, registerAll_concat_of_none⟩

namespace PositionTable

/-- A text that has a handle for each of its bytes, but none for its end. -/
def large : Bytes := List.replicate (2 ^ 32 - 1) 0

theorem length_large : large.length = 2 ^ 32 - 1 := List.length_replicate

def sample : List (String × Bytes) := [("a", [0x78, newline]), ("large", large), ("b", [])]

theorem registerAll_sample : (registerAll .empty sample).1 = [some 1, none, some 4] := by
  have first : register .empty "a" [0x78, newline] = some (1, ⟨#[.ofSource "a" 1 [0x78, newline]]⟩) :=
    (register_eq_some_iff (by decide)).mpr ⟨rfl, by decide, rfl⟩
  have behind : free ⟨#[.ofSource "a" 1 [0x78, newline]]⟩ = 4 := rfl
  have refused : register ⟨#[.ofSource "a" 1 [0x78, newline]]⟩ "large" large = none := by
    rw [register_eq_none_iff (by rw [length_large]; decide), length_large, behind]
    omega
  have last : register ⟨#[.ofSource "a" 1 [0x78, newline]]⟩ "b" [] =
      some (4, ⟨#[.ofSource "a" 1 [0x78, newline], .ofSource "b" 4 []]⟩) :=
    (register_eq_some_iff (by decide)).mpr ⟨behind.symm, by rw [behind]; decide, rfl⟩
  rw [sample, registerAll_cons_of_some first, registerAll_cons_of_none refused, registerAll_cons_of_some last]
  rfl

end PositionTable

/-- Of three calls the middle one is refused, and the places of the other two count lines and columns from 1. -/
theorem position?_registerAll_sample :
    (∀ call ∈ sample, call.2.length < 2 ^ 32) ∧ (registerAll .empty sample).2.check = .ok () ∧
    (registerAll .empty sample).2.position? 2 = some ⟨"a", 1, 2⟩ ∧
    (registerAll .empty sample).2.position? 3 = some ⟨"a", 2, 1⟩ ∧
    (registerAll .empty sample).2.position? 4 = some ⟨"b", 1, 1⟩ ∧
    (registerAll .empty sample).2.position? 0 = none := by
  have small : ∀ call ∈ sample, call.2.length < 2 ^ 32 := by simp [sample, length_large]
  obtain ⟨checked, places, zero, -⟩ := position?_registerAll sample small
  have first : (("a", [0x78, newline]), some 1) ∈ sample.zip (registerAll .empty sample).1 := by
    rw [registerAll_sample, sample]
    exact List.mem_cons_self
  have last : (("b", []), some 4) ∈ sample.zip (registerAll .empty sample).1 := by
    rw [registerAll_sample]
    simp [sample]
  refine ⟨small, checked, (places 2 "a" 1 2).mpr ⟨_, 1, first, 1, ?_⟩, (places 3 "a" 2 1).mpr ⟨_, 1, first, 2, ?_⟩,
    (places 4 "b" 1 1).mpr ⟨_, 4, last, 0, ?_⟩, zero⟩
  all_goals decide

end Linkage
