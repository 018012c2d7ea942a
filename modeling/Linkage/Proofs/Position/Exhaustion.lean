import Linkage.Position.Extent
import Linkage.Proofs.Position.Registered

/-!
# Texts of any length

A file that is added to a table should own a handle for each byte of its text and one for its end, or be refused. The
check that its handles reach is made on the length that is left in a word, though. A text that is too long for that is
not refused for its length: its file owns the handles of the remainder only, if those reach.
-/
namespace Linkage

/-- The file owns a handle for each byte of the text and one for its end, from `base` on, and there is one handle more
behind them. -/
structure SourceFile.TakesIn (f : SourceFile) (base : UInt32) (source : Bytes) : Prop where
  owns : ∀ handle, f.contains handle = true ↔
    base.toNat ≤ handle.toNat ∧ handle.toNat ≤ base.toNat + source.length
  fits : base.toNat + source.length + 1 < 2 ^ 32

/-- The handles of a registered source reach as far as its length in 32 bits, not as its length. -/
theorem SourceFile.contains_ofSource {name : String} {base handle : UInt32} {source : Bytes} :
    (ofSource name base source).contains handle = true ↔
      base.toNat ≤ handle.toNat ∧ handle.toNat ≤ base.toNat + source.length % 2 ^ 32 := by
  rw [contains_iff, ofSource, UInt32.toNat_ofNat']

namespace PositionTable

variable {t : PositionTable} {name : String} {source : Bytes} {base : UInt32} {calls : List (String × Bytes)}

/-- The table that files are added to one after the other, the first of them to an empty one. -/
def built (calls : List (String × Bytes)) : PositionTable := (registerAll .empty calls).2

/-- However the calls went, the files of a built table stand in order with a gap between them. -/
theorem built_spaced (calls : List (String × Bytes)) : (built calls).Spaced :=
  registerAll_induction (t := .empty) .nil fun _ spaced added => Spaced.register spaced added

/-- A registered file takes in its whole source exactly when the length fits 32 bits. -/
theorem takesIn_iff (fits : base.toNat + source.length % 2 ^ 32 + 1 < 2 ^ 32) :
    (SourceFile.ofSource name base source).TakesIn base source ↔ source.length < 2 ^ 32 := by
  constructor
  · intro taken
    have reaches := taken.fits
    omega
  · intro short
    rw [Nat.mod_eq_of_lt short] at fits
    refine ⟨fun handle => ?_, fits⟩
    rw [SourceFile.contains_ofSource, Nat.mod_eq_of_lt short]

end PositionTable

open PositionTable

/-- Whatever files a table was built of and however long a text is, it is refused, and the table left as it is, exactly
if the handles of its remainder do not reach. Otherwise its file owns these handles behind all others, and they are
those of the whole text exactly if that is no longer than a word can say. -/
theorem register_takesIn_iff (calls : List (String × Bytes)) (name : String) (source : Bytes) :
    ((built calls).registerAll [(name, source)] = ([none], built calls) ∧
      2 ^ 32 ≤ (built calls).free + source.length % 2 ^ 32 + 1) ∨
    ∃ base file, (built calls).registerAll [(name, source)] = ([some base], ⟨(built calls).files.push file⟩) ∧
      base.toNat = (built calls).free ∧ base.toNat + source.length % 2 ^ 32 + 1 < 2 ^ 32 ∧
      (∀ handle, file.contains handle = true ↔
        base.toNat ≤ handle.toNat ∧ handle.toNat ≤ base.toNat + source.length % 2 ^ 32) ∧
      (∀ f ∈ (built calls).files.toList, ∀ handle, f.contains handle = true → handle < base) ∧
      (file.TakesIn base source ↔ source.length < 2 ^ 32) := by
  cases added : (built calls).register name source with
  | none => exact .inl ⟨registerAll_cons_of_none added, register_eq_none_iff_mod.mp added⟩
  | some answer =>
    obtain ⟨base, t'⟩ := answer
    obtain ⟨first, fits, rfl⟩ := register_eq_some_iff_mod.mp added
    rw [← first] at fits
    refine .inr ⟨base, .ofSource name base source, registerAll_cons_of_some added, first, fits,
      fun handle => SourceFile.contains_ofSource, fun f member handle owned => ?_, takesIn_iff fits⟩
    -- The new base is the first free handle, and what a file owns ends before it.
    have before := (built_spaced calls).before_free member
    have inside := (SourceFile.contains_iff.mp owned).2
    rw [UInt32.lt_iff_toNat_lt]
    omega

namespace PositionTable

/-- One byte more than a word can count. -/
def endless : Bytes := List.replicate (2 ^ 32) 0x61

theorem length_endless : endless.length = 2 ^ 32 := List.length_replicate

theorem ofBytes_endless : Extent.ofBytes endless = (Extent.ofBytes [0x61]).times (2 ^ 32) := by
  rw [← Extent.ofBytes_flatten_replicate, List.flatten_replicate_singleton, endless]

/-- A source of 2 ^ 32 bytes without a newline is registered as a file of size 0. -/
theorem register_endless : register .empty "f" endless = some (1, ⟨#[⟨"f", 1, 0, #[0]⟩]⟩) := by
  rw [← registerExtent_ofBytes, ofBytes_endless]
  decide +kernel

end PositionTable

/-- A text that is too long is not always refused. -/
theorem register_not_takesIn :
    (built []).registerAll [("f", endless)] = ([some 1], ⟨#[⟨"f", 1, 0, #[0]⟩]⟩) ∧
    ¬ ∀ (calls : List (String × Bytes)) (name : String) (source : Bytes),
      (built calls).registerAll [(name, source)] = ([none], built calls) ∨
      ∃ base file, (built calls).registerAll [(name, source)] = ([some base], ⟨(built calls).files.push file⟩) ∧
        file.TakesIn base source := by
  have added : (built []).registerAll [("f", endless)] = ([some 1], ⟨#[⟨"f", 1, 0, #[0]⟩]⟩) :=
    registerAll_cons_of_some register_endless
  refine ⟨added, fun taken => ?_⟩
  rcases taken [] "f" endless with refused | ⟨base, file, accepted, whole⟩
  · rw [added] at refused
    cases refused
  · have reaches := whole.fits
    rw [length_endless] at reaches
    omega

end Linkage
