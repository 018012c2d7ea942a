import Linkage.Position.Table
import Mathlib.Algebra.Group.Nat.Defs
import Mathlib.Data.List.Chain

/-!
# The layout of position tables

The rules that a position table keeps, said of all its files and all pairs of them at once. The check of a table, which
walks through the files, accepts exactly the tables that keep them.
-/
namespace Linkage

/-- A checked addition gives the sum of the naturals, and only when that sum is a 32-bit word. -/
theorem checkedAdd_eq_some_iff {a b c : UInt32} : checkedAdd a b = some c ↔ a.toNat + b.toNat = c.toNat := by
  have bound := c.toNat_lt
  unfold checkedAdd
  split
  next fits =>
    rw [Option.some.injEq, ← UInt32.toNat_inj, UInt32.toNat_add, Nat.mod_eq_of_lt fits]
  next large =>
    simp only [reduceCtorEq, false_iff]
    simp only [UInt32.size] at large
    omega

theorem ascending_iff {l : List UInt32} : ascending l = true ↔ l.Pairwise (· < ·) := by
  have : @Trans UInt32 UInt32 UInt32 (· < ·) (· < ·) (· < ·) := ⟨UInt32.lt_trans⟩
  rw [← List.isChain_iff_pairwise]
  induction l with
  | nil => simp [ascending]
  | cons a rest ih =>
    cases rest with
    | nil => simp [ascending]
    | cons b rest => simp [ascending, ih]

namespace SourceFile

variable {f : SourceFile} {handle next : UInt32}

/-- A file owns the handles from its base to its base plus its size, both included. -/
theorem contains_iff :
    f.contains handle = true ↔ f.base.toNat ≤ handle.toNat ∧ handle.toNat ≤ f.base.toNat + f.size.toNat := by
  simp only [contains, Bool.and_eq_true, decide_eq_true_eq, UInt32.le_iff_toNat_le]
  refine and_congr_right fun owned => ?_
  rw [UInt32.toNat_sub_of_le _ _ (UInt32.le_iff_toNat_le.mpr owned)]
  omega

theorem next?_eq_some_iff :
    f.next? = some next ↔ f.base.toNat + f.size.toNat + 1 = next.toNat := by
  have bound := next.toNat_lt
  simp only [next?, Option.bind_eq_bind, Option.bind_eq_some_iff, checkedAdd_eq_some_iff]
  constructor
  · rintro ⟨last, sum, total⟩
    rw [sum]
    exact total
  · intro total
    refine ⟨UInt32.ofNat (f.base.toNat + f.size.toNat), ?_, ?_⟩ <;>
      rw [UInt32.toNat_ofNat_of_lt' (by simp only [UInt32.size]; omega)]
    exact total

/-- The rules for a file on its own. -/
structure WellFormed (f : SourceFile) : Prop where
  base_pos : 0 < f.base.toNat
  fits : f.base.toNat + f.size.toNat + 1 < 2 ^ 32
  first : f.lineStarts[0]? = some 0
  ascending : f.lineStarts.toList.Pairwise (· < ·)
  inRange : ∀ start ∈ f.lineStarts.toList, start ≤ f.size

/-- A file has a next base exactly while its end stays inside the handle space. -/
theorem isSome_next?_iff : f.next?.isSome ↔ f.base.toNat + f.size.toNat + 1 < 2 ^ 32 := by
  rw [Option.isSome_iff_exists]
  constructor
  · rintro ⟨next, following⟩
    have bound := next.toNat_lt
    rw [next?_eq_some_iff] at following
    omega
  · intro fits
    refine ⟨UInt32.ofNat (f.base.toNat + f.size.toNat + 1), next?_eq_some_iff.mpr ?_⟩
    rw [UInt32.toNat_ofNat_of_lt' fits]

end SourceFile

theorem ite_error_eq_ok {ε α : Type} {broken : Prop} [Decidable broken] {e : ε} {rest : Except ε α} {a : α} :
    (if broken then .error e else rest) = .ok a ↔ ¬ broken ∧ rest = .ok a := by
  split <;> simp [*]

/-- In ascending order, the last entry decides whether all entries are in range. -/
theorem last_inRange_iff {starts : Array UInt32} {size : UInt32} (sorted : starts.toList.Pairwise (· < ·)) :
    starts.back?.any (size < ·) = false ↔ ∀ start ∈ starts.toList, start ≤ size := by
  rw [← Array.getLast?_toList]
  rcases List.eq_nil_or_concat starts.toList with empty | ⟨front, last, split⟩
  · simp [empty]
  · rw [List.concat_eq_append] at split
    rw [split] at sorted ⊢
    rw [List.getLast?_concat, Option.any_some, decide_eq_false_iff_not, UInt32.not_lt]
    constructor
    · intro inside start member
      rcases List.mem_append.mp member with earlier | same
      · have before := (List.pairwise_append.mp sorted).2.2 start earlier last (List.mem_singleton_self last)
        exact UInt32.le_trans (UInt32.le_of_lt before) inside
      · exact List.mem_singleton.mp same ▸ inside
    · intro all
      exact all last (by simp)

namespace SourceFile

variable {f : SourceFile} {next : UInt32}

/-- A file's layout check passes exactly on a well-formed file that leaves room for the next base. -/
theorem checkLayout_eq_ok_iff : f.checkLayout = .ok next ↔ f.WellFormed ∧ f.next? = some next := by
  unfold checkLayout
  cases following : f.next? with
  | none => simp only [ite_error_eq_ok, reduceCtorEq, and_false]
  | some free =>
    have fits := isSome_next?_iff.mp (Option.isSome_of_eq_some following)
    simp only [ite_error_eq_ok, Except.ok.injEq, Option.some.injEq, ← and_assoc]
    refine and_congr_left fun _ => ?_
    have positive : f.base ≠ 0 ↔ 0 < f.base.toNat := by
      rw [Ne, ← UInt32.toNat_inj, Nat.pos_iff_ne_zero]
      rfl
    constructor
    · rintro ⟨⟨⟨nonzero, first⟩, sorted⟩, inside⟩
      have sorted : f.lineStarts.toList.Pairwise (· < ·) := ascending_iff.mp (by simpa using sorted)
      exact ⟨positive.mp nonzero, fits, Decidable.not_not.mp first, sorted,
        (last_inRange_iff sorted).mp (Bool.eq_false_iff.mpr inside)⟩
    · intro rules
      have inside := (last_inRange_iff rules.ascending).mpr rules.inRange
      refine ⟨⟨⟨positive.mpr rules.base_pos, Decidable.not_not.mpr rules.first⟩, ?_⟩, Bool.eq_false_iff.mp inside⟩
      simpa using ascending_iff.mpr rules.ascending

end SourceFile

namespace PositionTable

/-- The rules for a table. The end of each file comes before the first handle of every later one. -/
structure WellFormed (t : PositionTable) : Prop where
  files : ∀ f ∈ t.files.toList, f.WellFormed
  disjoint : t.files.toList.Pairwise fun f g => f.base.toNat + f.size.toNat < g.base.toNat

/-- The checks of a list of files pass when each file is well formed and each ends before the next begins. -/
theorem checkFrom_eq_ok_iff {free : UInt32} {files : List SourceFile} :
    checkFrom free files = .ok () ↔ (∀ f ∈ files, f.WellFormed) ∧
      files.Pairwise (fun f g => f.base.toNat + f.size.toNat < g.base.toNat) ∧
      ∀ f ∈ files, free.toNat ≤ f.base.toNat := by
  induction files generalizing free with
  | nil => simp [checkFrom]
  | cons f rest ih =>
    simp only [List.forall_mem_cons, List.pairwise_cons]
    cases checked : f.checkLayout with
    | error broken =>
      -- Such a file has no next handle or breaks a rule of its own.
      have refused : ¬ f.WellFormed := by
        intro rules
        obtain ⟨next, following⟩ := Option.isSome_iff_exists.mp (SourceFile.isSome_next?_iff.mpr rules.fits)
        rw [SourceFile.checkLayout_eq_ok_iff.mpr ⟨rules, following⟩] at checked
        cases checked
      simp [checkFrom, checked, refused, bind, Except.bind]
    | ok next =>
      obtain ⟨rules, following⟩ := SourceFile.checkLayout_eq_ok_iff.mp checked
      rw [SourceFile.next?_eq_some_iff] at following
      have step : checkFrom free (f :: rest) = .ok () ↔ ¬ f.base < free ∧ checkFrom next rest = .ok () := by
        simp only [checkFrom, checked]
        change (if f.base < free then .error (.overlap f.name) else checkFrom next rest) = .ok () ↔ _
        exact ite_error_eq_ok
      rw [step, ih, UInt32.not_lt, UInt32.le_iff_toNat_le]
      simp only [← following, Nat.add_one_le_iff]
      constructor
      · rintro ⟨first, others, ordered, after⟩
        refine ⟨⟨rules, others⟩, ⟨after, ordered⟩, first, fun g member => ?_⟩
        have behind := after g member
        omega
      · rintro ⟨⟨_, others⟩, ⟨after, ordered⟩, first, _⟩
        exact ⟨first, others, ordered, after⟩

/-- The check of a table accepts exactly the well-formed tables. -/
theorem check_eq_ok_iff {t : PositionTable} : t.check = .ok () ↔ t.WellFormed := by
  rw [check, checkFrom_eq_ok_iff]
  constructor
  · rintro ⟨files, disjoint, _⟩
    exact ⟨files, disjoint⟩
  · intro rules
    exact ⟨rules.files, rules.disjoint, fun f member => (rules.files f member).base_pos⟩

end PositionTable

end Linkage
