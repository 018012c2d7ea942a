import Linkage.Proofs.Position.Layout
import Mathlib.Data.List.TakeWhile

/-!
# Looking up handles

In a list where the entries that are low enough come first, bisection ends at the last of them. A table that keeps the
layout rules is such a list for every handle, so a handle has a position exactly if a file owns it.
-/
namespace Linkage

/-! ### Bisection -/

namespace Position

variable {low : Nat → Bool} {base size n : Nat}

/-- The bisection stays inside the window it is given, whatever the test answers. -/
theorem bisect_lt (low : Nat → Bool) (base : Nat) (positive : 0 < size) : bisect low base size < base + size := by
  fun_induction bisect low base size with
  | case1 base size last => omega
  | case2 base size more middle ih =>
    refine Nat.lt_of_lt_of_le (ih (by omega)) ?_
    split <;> omega

/-- On a test that holds up to `n` and fails from there on, the bisection ends at the last index that passes. -/
theorem bisect_eq (lower : base < n) (upper : n ≤ base + size) (lows : ∀ i < base + size, low i = true ↔ i < n) :
    bisect low base size = n - 1 := by
  fun_induction bisect low base size with
  | case1 base size last => omega
  | case2 base size more middle ih =>
    -- The half that is kept contains the last low index.
    have probed := lows middle (by omega)
    simp only [dite_eq_ite] at ih
    by_cases lowEnough : low middle = true
    · rw [if_pos lowEnough] at ih ⊢
      exact ih (probed.mp lowEnough) (by omega) fun i inside => lows i (by omega)
    · have above := mt probed.mpr lowEnough
      rw [if_neg lowEnough] at ih ⊢
      exact ih lower (by omega) fun i inside => lows i (by omega)

/-- On such a test the binary search answers the last index that passes, and nothing when none does. -/
theorem lastLow?_eq (upper : n ≤ size) (lows : ∀ i < size, low i = true ↔ i < n) :
    lastLow? low size = if n = 0 then none else some (n - 1) := by
  unfold lastLow?
  by_cases empty : size = 0
  · rw [if_pos empty, if_pos (by omega)]
  · rw [if_neg empty]
    by_cases none : n = 0
    · have high : low (bisect low 0 size) = false := by
        have inside := bisect_lt low 0 (Nat.pos_of_ne_zero empty)
        have index := lows (bisect low 0 size) (by omega)
        rw [Bool.eq_false_iff, Ne, index]
        omega
      simp [high, none]
    · have found : bisect low 0 size = n - 1 := by
        refine bisect_eq (by omega) (by omega) fun i inside => lows i (by omega)
      have lowest : low (n - 1) = true := (lows (n - 1) (by omega)).mpr (by omega)
      simp [found, lowest, none]

variable {α : Type} {l front : List α} {p : α → Bool} {last : α}

theorem takeWhile_append_eq_left {back : List α} (inside : ∀ a ∈ front, p a = true) (outside : ∀ a ∈ back, ¬ p a = true) :
    (front ++ back).takeWhile p = front := by
  have stop : back.takeWhile p = [] :=
    List.takeWhile_eq_nil_iff.mpr fun nonempty => outside _ (List.get_mem back ⟨0, nonempty⟩)
  rw [List.takeWhile_append_of_pos inside, stop, List.append_nil]

/-- In a list sorted for the test, the elements that pass are those of the initial run. -/
theorem low_iff_lt_takeWhile (sorted : l.Pairwise fun a b => p b = true → p a = true) {i : Nat} (inside : i < l.length) :
    p l[i] = true ↔ i < (l.takeWhile p).length := by
  induction l generalizing i with
  | nil => exact absurd inside (Nat.not_lt_zero i)
  | cons a rest ih =>
    obtain ⟨first, sorted⟩ := List.pairwise_cons.mp sorted
    by_cases lowest : p a = true
    · rw [List.takeWhile_cons_of_pos lowest]
      cases i with
      | zero => simp [lowest]
      | succ i =>
        simp only [List.getElem_cons_succ, List.length_cons, Nat.add_lt_add_iff_right]
        exact ih sorted (Nat.lt_of_succ_lt_succ inside)
    · rw [List.takeWhile_cons_of_neg lowest]
      have none : ¬ p (a :: rest)[i] = true := by
        cases i with
        | zero => exact lowest
        | succ i => exact fun later => lowest (first _ (List.getElem_mem _) later)
      simp [none]

theorem lastLow?_takeWhile (sorted : l.Pairwise fun a b => p b = true → p a = true)
    (reads : ∀ i, low i = l[i]?.any p) :
    lastLow? low l.length =
      if (l.takeWhile p).length = 0 then none else some ((l.takeWhile p).length - 1) := by
  refine lastLow?_eq (List.takeWhile_prefix p).length_le fun i inside => ?_
  rw [reads, List.getElem?_eq_getElem inside]
  exact low_iff_lt_takeWhile sorted inside

/-- The binary search over a sorted list ends at the last element of the initial run. -/
theorem lastLow?_of_split (sorted : l.Pairwise fun a b => p b = true → p a = true)
    (reads : ∀ i, low i = l[i]?.any p) (split : l.takeWhile p = front ++ [last]) :
    lastLow? low l.length = some front.length ∧ l[front.length]? = some last := by
  constructor
  · rw [lastLow?_takeWhile sorted reads, split]
    simp
  · have prefixed : front ++ [last] <+: l := split ▸ List.takeWhile_prefix p
    obtain ⟨back, rfl⟩ := prefixed
    simp

end Position

/-! ### Lines -/

namespace SourceFile

variable {f : SourceFile} {offset : UInt32}

/-- The last line that starts at the offset or before it decides. -/
theorem lineColumn?_of_split {front : List UInt32} {start : UInt32}
    (sorted : f.lineStarts.toList.Pairwise (· < ·))
    (split : f.lineStarts.toList.takeWhile (· ≤ offset) = front ++ [start]) :
    f.lineColumn? offset =
      (checkedAdd (offset - start) 1).map fun column => (UInt32.ofNat (front.length + 1), column) := by
  have reads : ∀ i, f.startsBy offset i = f.lineStarts.toList[i]?.any (· ≤ offset) := by
    intro i
    simp only [startsBy, Array.getElem?_toList]
    cases f.lineStarts[i]? <;> rfl
  have low : f.lineStarts.toList.Pairwise fun a b => decide (b ≤ offset) = true → decide (a ≤ offset) = true := by
    refine sorted.imp fun before => ?_
    simp only [decide_eq_true_eq]
    exact fun later => UInt32.le_trans (UInt32.le_of_lt before) later
  obtain ⟨index, found⟩ := Position.lastLow?_of_split low reads split
  rw [Array.length_toList] at index
  rw [Array.getElem?_toList] at found
  simp only [lineColumn?, index, found, Option.bind_eq_bind, Option.bind_some, Option.pure_def]
  cases checkedAdd (offset - start) 1 <;> rfl

end SourceFile

/-! ### Files -/

namespace PositionTable

variable {t : PositionTable} {f : SourceFile} {front : List SourceFile} {handle : UInt32} {p : Position}

theorem beginsBy_eq (t : PositionTable) (handle : UInt32) (i : Nat) :
    t.beginsBy handle i = t.files.toList[i]?.any (·.base ≤ handle) := by
  simp only [beginsBy, Array.getElem?_toList]
  cases t.files[i]? <;> rfl

/-- The bases of a well-formed table are sorted, so the test by base holds of an initial run. -/
theorem WellFormed.sorted_bases (rules : t.WellFormed) (handle : UInt32) :
    t.files.toList.Pairwise fun f g => decide (g.base ≤ handle) = true → decide (f.base ≤ handle) = true := by
  refine rules.disjoint.imp fun {f g} gap later => ?_
  simp only [decide_eq_true_eq, UInt32.le_iff_toNat_le] at later ⊢
  omega

theorem position?_eq_none_of_takeWhile (rules : t.WellFormed)
    (before : t.files.toList.takeWhile (·.base ≤ handle) = []) : t.position? handle = none := by
  have index := Position.lastLow?_takeWhile (rules.sorted_bases handle) (t.beginsBy_eq handle)
  simp [before] at index
  simp [position?, index]

/-- Only the last file that begins at or before a handle is asked for its place. -/
theorem position?_of_split (rules : t.WellFormed)
    (split : t.files.toList.takeWhile (·.base ≤ handle) = front ++ [f]) :
    t.position? handle =
      if f.contains handle then
        (f.lineColumn? (handle - f.base)).map fun (line, column) => ⟨f.name, line, column⟩
      else none := by
  obtain ⟨index, found⟩ := Position.lastLow?_of_split (rules.sorted_bases handle) (t.beginsBy_eq handle) split
  rw [Array.length_toList] at index
  rw [Array.getElem?_toList] at found
  have last : f ∈ t.files.toList.takeWhile (·.base ≤ handle) := split ▸ List.mem_concat_self
  have least : f.base ≤ handle := by simpa using List.mem_takeWhile_imp last
  have nonzero : handle ≠ 0 := by
    rintro rfl
    have positive := (rules.files f ((List.takeWhile_prefix _).subset last)).base_pos
    have zero : f.base.toNat ≤ 0 := UInt32.le_iff_toNat_le.mp least
    omega
  simp only [position?, if_neg nonzero, index, found, Option.bind_eq_bind, Option.bind_some, Option.pure_def]
  by_cases owned : f.contains handle = true
  · simp only [owned, Bool.not_true, Bool.false_eq_true, ite_false, ite_true]
    cases f.lineColumn? (handle - f.base) <;> rfl
  · simp [owned]

/-- A file that owns a handle is the last that begins at or before it. -/
theorem exists_takeWhile_of_contains (rules : t.WellFormed) (member : f ∈ t.files.toList)
    (owned : f.contains handle = true) :
    ∃ front, t.files.toList.takeWhile (·.base ≤ handle) = front ++ [f] := by
  obtain ⟨least, greatest⟩ := SourceFile.contains_iff.mp owned
  obtain ⟨front, back, split⟩ := List.append_of_mem member
  have disjoint := rules.disjoint
  rw [split, List.pairwise_append, List.pairwise_cons] at disjoint
  obtain ⟨_, ⟨after, _⟩, before⟩ := disjoint
  refine ⟨front, ?_⟩
  rw [split, List.append_cons]
  refine Position.takeWhile_append_eq_left (fun g member => ?_) fun g later => ?_
  · rw [decide_eq_true_eq, UInt32.le_iff_toNat_le]
    rcases List.mem_append.mp member with earlier | same
    · have gap := before g earlier f List.mem_cons_self
      omega
    · exact List.mem_singleton.mp same ▸ least
  · have gap := after g later
    rw [decide_eq_true_eq, UInt32.le_iff_toNat_le]
    omega

/-- In a table that keeps the layout rules, a handle stands for a place in the file that owns it. -/
theorem position?_eq_some_iff (rules : t.WellFormed) :
    t.position? handle = some p ↔ ∃ f ∈ t.files.toList, f.contains handle = true ∧ f.name = p.file ∧
      f.lineColumn? (handle - f.base) = some (p.line, p.column) := by
  constructor
  · intro found
    rcases List.eq_nil_or_concat (t.files.toList.takeWhile (·.base ≤ handle)) with none | ⟨front, f, split⟩
    · rw [position?_eq_none_of_takeWhile rules none] at found
      cases found
    · rw [List.concat_eq_append] at split
      rw [position?_of_split rules split] at found
      have last : f ∈ t.files.toList.takeWhile (·.base ≤ handle) := split ▸ List.mem_concat_self
      split at found
      next owned =>
        obtain ⟨⟨line, column⟩, place, rfl⟩ := Option.map_eq_some_iff.mp found
        exact ⟨f, (List.takeWhile_prefix _).subset last, owned, rfl, place⟩
      next => cases found
  · rintro ⟨f, member, owned, name, place⟩
    obtain ⟨front, split⟩ := exists_takeWhile_of_contains rules member owned
    rw [position?_of_split rules split, if_pos owned, place, Option.map_some, name]

end PositionTable

end Linkage
