import Linkage.Proofs.Position.Places
import Linkage.Proofs.Position.Registered

/-!
# Checked tables

The check of a table compares each file with the one before it only, but it accepts exactly the tables in which all
pairs of files keep the layout rules. An error is about the first file with which the table breaks a rule, and says
which one. A file that is added to an accepted table owns handles behind all others, so that none of those changes its
place.
-/
namespace Linkage

/-- The file that an error is about. -/
def LayoutError.file : LayoutError → String
  | .zeroBase file | .handleOverflow file | .missingFirstLine file | .unorderedLines file | .lineOutOfRange file
  | .overlap file => file

/-- The file breaks the rule that the error says, on its own or with one of the files before it. -/
inductive Breaks (front : List SourceFile) (f : SourceFile) : LayoutError → Prop
  | zeroBase (zero : f.base = 0) : Breaks front f (.zeroBase f.name)
  | handleOverflow (large : 2 ^ 32 ≤ f.base.toNat + f.size.toNat + 1) : Breaks front f (.handleOverflow f.name)
  | missingFirstLine (other : f.lineStarts[0]? ≠ some 0) : Breaks front f (.missingFirstLine f.name)
  | unorderedLines (mixed : ¬ f.lineStarts.toList.Pairwise (· < ·)) : Breaks front f (.unorderedLines f.name)
  | lineOutOfRange {start : UInt32} (listed : start ∈ f.lineStarts.toList) (beyond : f.size < start) :
    Breaks front f (.lineOutOfRange f.name)
  | overlap {g : SourceFile} (before : g ∈ front) (reaches : f.base.toNat ≤ g.base.toNat + g.size.toNat) :
    Breaks front f (.overlap f.name)

namespace Breaks

variable {front more : List SourceFile} {f : SourceFile} {e : LayoutError}

/-- A broken rule names the file it is broken by. -/
theorem file_eq (breaks : Breaks front f e) : e.file = f.name := by
  cases breaks <;> rfl

/-- More files in front can only add to what a file collides with. -/
theorem mono (breaks : Breaks front f e) (grows : front ⊆ more) : Breaks more f e := by
  cases breaks with
  | zeroBase zero => exact .zeroBase zero
  | handleOverflow large => exact .handleOverflow large
  | missingFirstLine other => exact .missingFirstLine other
  | unorderedLines mixed => exact .unorderedLines mixed
  | lineOutOfRange listed beyond => exact .lineOutOfRange listed beyond
  | overlap before reaches => exact .overlap (grows before) reaches

end Breaks

/-- An error of a file's own layout check is a broken rule, whatever stands in front of the file. -/
theorem SourceFile.breaks_of_checkLayout {f : SourceFile} {e : LayoutError} (failed : f.checkLayout = .error e)
    (front : List SourceFile) : Breaks front f e := by
  unfold checkLayout at failed
  split at failed
  next zero =>
    cases failed
    exact .zeroBase zero
  split at failed
  next missing =>
    cases failed
    refine .handleOverflow (Nat.not_lt.mp fun fits => ?_)
    have reaches := isSome_next?_iff.mpr fits
    rw [missing] at reaches
    cases reaches
  split at failed
  next other =>
    cases failed
    exact .missingFirstLine other
  split at failed
  next mixed =>
    cases failed
    refine .unorderedLines fun sorted => ?_
    rw [ascending_iff.mpr sorted] at mixed
    cases mixed
  split at failed
  next beyond =>
    cases failed
    obtain ⟨start, last, large⟩ := (Option.any_eq_true _ _).mp beyond
    exact .lineOutOfRange (Array.mem_toList_iff.mpr (Array.mem_of_back? last)) (by simpa using large)
  next => cases failed

namespace PositionTable

variable {t t' : PositionTable} {e : LayoutError} {free : UInt32} {f : SourceFile} {files : List SourceFile}

/-- The check of a list of files is the check of its first, the order test, and the check of the rest. -/
theorem checkFrom_cons (free : UInt32) (f : SourceFile) (rest : List SourceFile) :
    checkFrom free (f :: rest) = match f.checkLayout with
      | .error e => .error e
      | .ok next => if f.base < free then .error (.overlap f.name) else checkFrom next rest := by
  rw [checkFrom]
  cases f.checkLayout with
  | error e => rfl
  | ok next => rfl

/-- A check that fails does so at a file that it would also fail at if no other came after it. -/
theorem exists_of_checkFrom (failed : checkFrom free files = .error e) :
    ∃ front f back, files = front ++ f :: back ∧ checkFrom free front = .ok () ∧
      checkFrom free (front ++ [f]) = .error e ∧
      (Breaks front f e ∨ f.WellFormed ∧ f.base < free ∧ e = .overlap f.name) := by
  induction files generalizing free with
  | nil => cases failed
  | cons f rest ih =>
    rw [checkFrom_cons] at failed
    cases checked : f.checkLayout with
    | error broken =>
      simp only [checked] at failed
      cases failed
      exact ⟨[], f, rest, rfl, rfl, by simp [checkFrom_cons, checked], .inl (f.breaks_of_checkLayout checked [])⟩
    | ok next =>
      simp only [checked] at failed
      obtain ⟨rules, following⟩ := SourceFile.checkLayout_eq_ok_iff.mp checked
      by_cases low : f.base < free
      · rw [if_pos low] at failed
        cases failed
        exact ⟨[], f, rest, rfl, rfl, by simp [checkFrom_cons, checked, low], .inr ⟨rules, low, rfl⟩⟩
      · rw [if_neg low] at failed
        obtain ⟨front, g, back, rfl, passed, stopped, reason⟩ := ih failed
        refine ⟨f :: front, g, back, rfl, ?_, ?_, .inl ?_⟩
        · simp only [checkFrom_cons, checked, if_neg low, passed]
        · simp only [List.cons_append, checkFrom_cons, checked, if_neg low, stopped]
        · rcases reason with breaks | ⟨-, early, rfl⟩
          · exact breaks.mono (List.subset_cons_self f front)
          · -- The file begins before the handle that is free behind this one.
            rw [SourceFile.next?_eq_some_iff] at following
            rw [UInt32.lt_iff_toNat_lt] at early
            exact .overlap List.mem_cons_self (by omega)

/-- The table of the first files. -/
def upTo (t : PositionTable) (n : Nat) : PositionTable := ⟨(t.files.toList.take n).toArray⟩

/-- Every initial part of a table that keeps the rules keeps them. -/
theorem WellFormed.upTo (rules : t.WellFormed) (n : Nat) : (t.upTo n).WellFormed where
  files f member := rules.files f (List.mem_of_mem_take member)
  disjoint := rules.disjoint.sublist (List.take_sublist n _)

theorem upTo_upTo (t : PositionTable) {m n : Nat} (fewer : m ≤ n) : (t.upTo n).upTo m = t.upTo m := by
  simp only [PositionTable.upTo, List.take_take, Nat.min_eq_left fewer]

/-- The first prefix of a refused table that breaks a rule ends in the file the error names. -/
theorem first_broken_of_check (failed : t.check = .error e) :
    ∃ i, ∃ inside : i < t.files.size, (∀ n ≤ i, (t.upTo n).WellFormed) ∧ ¬ (t.upTo (i + 1)).WellFormed ∧
      e.file = t.files[i].name ∧ Breaks (t.files.toList.take i) t.files[i] e := by
  obtain ⟨front, f, back, split, passed, stopped, reason⟩ := exists_of_checkFrom failed
  have breaks : Breaks front f e := by
    rcases reason with breaks | ⟨rules, early, -⟩
    · exact breaks
    · -- No file that keeps the rules begins at handle zero.
      have positive := rules.base_pos
      rw [UInt32.lt_iff_toNat_lt, UInt32.toNat_one] at early
      omega
  have inside : front.length < t.files.size := by
    rw [← Array.length_toList, split, List.length_append, List.length_cons]
    omega
  have there : t.files[front.length] = f := by
    rw [← Array.getElem_toList]
    simp [split]
  have before : t.files.toList.take front.length = front := by rw [split, List.take_left]
  have through : t.files.toList.take (front.length + 1) = front ++ [f] := by
    rw [split, List.append_cons]
    exact List.take_left' (by simp)
  have kept : (t.upTo front.length).WellFormed := by
    rw [← check_eq_ok_iff, check, PositionTable.upTo, before]
    exact passed
  refine ⟨front.length, inside, fun n fewer => upTo_upTo t fewer ▸ kept.upTo n, fun rules => ?_, ?_, ?_⟩
  · rw [← check_eq_ok_iff, check, PositionTable.upTo, through, stopped] at rules
    cases rules
  · rw [there]
    exact breaks.file_eq
  · rw [there, before]
    exact breaks

/-! ### Adding a file to a checked table -/

/-- A file that is added owns handles behind all others, and takes none of their places. -/
theorem WellFormed.register_grows (rules : t.WellFormed) {name : String} {source : Bytes} {base : UInt32}
    (small : source.length < 2 ^ 32) (added : t.register name source = some (base, t')) :
    (∀ f ∈ t.files.toList, ∀ handle, f.Owns handle → handle < base) ∧ t'.WellFormed ∧
      ∀ handle p, t.position? handle = some p → t'.position? handle = some p := by
  have rules' := rules.register small added
  obtain ⟨first, -, rfl⟩ := (register_eq_some_iff small).mp added
  refine ⟨fun f member handle owned => ?_, rules', fun handle p found => ?_⟩
  · have before := rules.before_free member
    have ends := owned.2
    rw [UInt32.lt_iff_toNat_lt]
    omega
  · obtain ⟨f, member, place⟩ := (position?_eq_some_iff rules).mp found
    refine (position?_eq_some_iff rules').mpr ⟨f, ?_, place⟩
    rw [Array.toList_push]
    exact List.mem_append_left _ member

end PositionTable

open PositionTable

/-- The check accepts exactly the tables in which every file and every pair of files keep the layout rules, so that no
handle belongs to two files. An error names the first file with which the table breaks a rule, and the rule is broken
there. A file that is added to an accepted table is refused, and the table left as it is, exactly if its handles do not
reach. Otherwise its handles lie behind all that are owned, the table is accepted again, and each of those keeps its
place. -/
theorem check_outcome_and_register (t : PositionTable) :
    (t.check = .ok () ↔ t.WellFormed) ∧
    (t.WellFormed → ∀ handle i j, (inside : i < t.files.size) → (inside' : j < t.files.size) →
      t.files[i].Owns handle → t.files[j].Owns handle → i = j) ∧
    (∀ e, t.check = .error e → ∃ i, ∃ inside : i < t.files.size,
      (∀ n ≤ i, (t.upTo n).WellFormed) ∧ ¬ (t.upTo (i + 1)).WellFormed ∧
        e.file = t.files[i].name ∧ Breaks (t.files.toList.take i) t.files[i] e) ∧
    (t.check = .ok () → ∀ name source, source.length < 2 ^ 32 →
      (t.registerAll [(name, source)] = ([none], t) ∧ 2 ^ 32 ≤ t.free + source.length + 1) ∨
      ∃ base t', t.registerAll [(name, source)] = ([some base], t') ∧ t.free + source.length + 1 < 2 ^ 32 ∧
        (∀ f ∈ t.files.toList, ∀ handle, f.Owns handle → handle < base) ∧ t'.check = .ok () ∧
        ∀ handle p, t.position? handle = some p → t'.position? handle = some p) := by
  refine ⟨check_eq_ok_iff, fun rules _ _ _ => rules.owner_unique, fun e => first_broken_of_check,
    fun checked name source small => ?_⟩
  have rules := check_eq_ok_iff.mp checked
  cases added : t.register name source with
  | none => exact .inl ⟨registerAll_cons_of_none added, (register_eq_none_iff small).mp added⟩
  | some answer =>
    obtain ⟨base, t'⟩ := answer
    obtain ⟨behind, rules', kept⟩ := rules.register_grows small added
    obtain ⟨-, fits, -⟩ := (register_eq_some_iff small).mp added
    exact .inr ⟨base, t', registerAll_cons_of_some added, fits, behind, check_eq_ok_iff.mpr rules', kept⟩

namespace PositionTable

/-- The third file begins where the second one ends, and the last one breaks every rule. -/
def overlapping : PositionTable := ⟨#[⟨"a", 1, 5, #[0, 3]⟩, ⟨"b", 9, 2, #[0]⟩, ⟨"c", 11, 4, #[0]⟩, ⟨"d", 0, 0, #[]⟩]⟩

end PositionTable

/-- A table whose third file starts inside the second is refused at that file, and one in order takes a third file. -/
theorem check_outcome_and_register_overlapping :
    overlapping.check = .error (.overlap "c") ∧
    (∃ i, ∃ inside : i < overlapping.files.size, (overlapping.upTo i).WellFormed ∧
      ¬ (overlapping.upTo (i + 1)).WellFormed ∧ "c" = overlapping.files[i].name) ∧
    ordered.check = .ok () ∧ ordered.WellFormed ∧ ([0x78] : Bytes).length < 2 ^ 32 ∧
    ∃ t', ordered.registerAll [("c", [0x78])] = ([some 12], t') ∧ t'.check = .ok () ∧
      ∀ handle p, ordered.position? handle = some p → t'.position? handle = some p := by
  have broken : overlapping.check = .error (.overlap "c") := by decide
  have checked : ordered.check = .ok () := by decide
  have small : ([0x78] : Bytes).length < 2 ^ 32 := by decide
  obtain ⟨-, -, first, -⟩ := check_outcome_and_register overlapping
  obtain ⟨accepted, -, -, grows⟩ := check_outcome_and_register ordered
  obtain ⟨i, inside, kept, broke, named, -⟩ := first _ broken
  refine ⟨broken, ⟨i, inside, kept i le_rfl, broke, named⟩, checked, accepted.mp checked, small, ?_⟩
  have base : (ordered.registerAll [("c", [0x78])]).1 = [some 12] := by decide
  rcases grows checked "c" [0x78] small with ⟨refused, -⟩ | ⟨_, t', added, -, -, again, places⟩
  · rw [refused] at base
    cases base
  · rw [added] at base
    obtain rfl := Option.some.inj (List.cons.inj base).1
    exact ⟨t', added, again, places⟩

end Linkage
