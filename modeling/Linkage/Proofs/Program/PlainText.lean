import Linkage.Program.Layout
import Linkage.Proofs.Program.Lexemes
import Linkage.Proofs.Text.Utf8

/-!
# The layout's own text has no markers

What the layout puts into a program besides caller code is fixed text with names in it. If the names hold no sentinel,
then neither does that text, whether it is stripped of whitespace or not.
-/
namespace Linkage

namespace Text.Utf8

theorem encode_append (front back : String) : encode (front ++ back) = encode front ++ encode back := by
  simp [encode]

/-- The bytes behind the first of a character are not ASCII. -/
theorem not_lt_of_mem_trail {n v : Nat} {b : UInt8} (member : b ∈ trail n v) : ¬ b < 0x80 := by
  induction n with
  | zero => exact absurd member List.not_mem_nil
  | succ n ih =>
    rcases List.mem_cons.mp member with rfl | later
    · rw [UInt8.lt_iff_toNat_lt, toNat_trail]
      exact Nat.not_lt.mpr (Nat.le_add_left ..)
    · exact ih later

/-- Only in the encoding of an ASCII character there is a byte below 128, and that byte is all of it. -/
theorem toNat_eq_of_mem {c : Char} {b : UInt8} (member : b ∈ String.utf8EncodeChar c) (low : b < 0x80) :
    c.toNat = b.toNat := by
  by_cases short : c.toNat ≤ 0x7F
  · have encoded := encode_short short
    rw [Char.ofNat_toNat] at encoded
    rw [encoded, List.mem_singleton] at member
    rw [member, UInt8.toNat_ofNat_of_lt' (Nat.lt_of_le_of_lt short (by decide))]
  · obtain ⟨first, p, form, begins⟩ := exists_form (Nat.not_le.mp short)
    have encoded := (form.encode begins).2
    rw [Char.ofNat_toNat] at encoded
    rw [encoded] at member
    rcases List.mem_cons.mp member with rfl | later
    · exact absurd low form.not_lt
    · exact absurd low (not_lt_of_mem_trail later)

end Text.Utf8

namespace Layout

/-- No byte of the text begins a marker. -/
def Plain (text : String) : Prop := Marker.sentinel ∉ Text.Utf8.encode text

namespace Plain

/-- A text without the backspace character has no sentinel byte in its encoding. -/
theorem ofList {chars : List Char} (absent : '\x08' ∉ chars) : Plain (String.ofList chars) := by
  intro member
  rw [Text.Utf8.encode, String.toList_ofList, List.mem_flatMap] at member
  obtain ⟨c, inside, byte⟩ := member
  have number := Text.Utf8.toNat_eq_of_mem byte (by decide)
  exact absent (Char.toNat_inj.mp (number.trans (by decide) : c.toNat = '\x08'.toNat) ▸ inside)

theorem append_iff {front back : String} : Plain (front ++ back) ↔ Plain front ∧ Plain back := by
  rw [Plain, Text.Utf8.encode_append, List.mem_append, not_or]
  exact Iff.rfl

/-- Plain texts joined by a plain separator are plain. -/
theorem intercalate {separator : String} {texts : List String} (plain : Plain separator)
    (all : ∀ text ∈ texts, Plain text) : Plain (separator.intercalate texts) := by
  induction texts with
  | nil => exact .ofList List.not_mem_nil
  | cons text rest ih =>
    have first := all text List.mem_cons_self
    have others := ih fun other member => all other (List.mem_cons_of_mem text member)
    by_cases last : rest = []
    · rwa [last, String.intercalate_singleton]
    · rw [String.intercalate_cons_of_ne_nil last]
      exact append_iff.mpr ⟨append_iff.mpr ⟨first, plain⟩, others⟩

/-- What the layout injects has no sentinel, minified or not. -/
theorem injected {text : String} (plain : Plain text) (minify : Bool) {bytes : Bytes}
    (item : Layout.injected minify text = .bytes bytes) : Marker.sentinel ∉ bytes := by
  obtain rfl := Item.bytes.inj item
  cases minify with
  | false => exact plain
  | true =>
    intro member
    rcases Whitespace.mem_remove member with inside | space
    · exact plain inside
    · exact absurd space (by decide)

end Plain

/-! ### The texts of the layout -/

/-- The names that go into the layout's own text hold no sentinel. -/
structure PlainNames (settings : Settings) (pkgs : List Archive) : Prop where
  prelude : Plain settings.prelude
  runtimePackage : Plain settings.runtimePackage
  entrySymbol : Plain settings.entrySymbol
  importPaths : ∀ pkg ∈ pkgs, Plain pkg.importPath
  vars : ∀ pkg ∈ pkgs, ∀ d ∈ pkg.declarations, ∀ name ∈ d.vars, Plain name

theorem header_plain : Plain header := .ofList (by decide)

theorem epilogue_plain {entry : String} {settings : Settings} (plain : Plain entry)
    (runtime : Plain settings.runtimePackage) (symbol : Plain settings.entrySymbol) :
    Plain (epilogue entry settings) := by
  unfold epilogue
  simp only [Plain.append_iff, plain, runtime, symbol, and_true]
  and_intros <;> exact .ofList (by decide)

theorem moduleOpening_plain {importPath : String} (plain : Plain importPath) : Plain (moduleOpening importPath) := by
  unfold moduleOpening
  simp only [Plain.append_iff, plain, and_true]
  and_intros <;> exact .ofList (by decide)

/-- The variable statement of a module is plain when the names it declares are. -/
theorem varStatement_plain {decls : List Declaration} (plain : ∀ d ∈ decls, ∀ name ∈ d.vars, Plain name) :
    Plain (varStatement decls) := by
  have names : ∀ name ∈ "$pkg = \x7b\x7d" :: "$init" :: decls.flatMap (·.vars), Plain name := by
    intro name member
    simp only [List.mem_cons, List.mem_flatMap] at member
    obtain rfl | rfl | ⟨d, selected, inside⟩ := member
    · exact .ofList (by decide)
    · exact .ofList (by decide)
    · exact plain d selected name inside
  have listed := Plain.intercalate (.ofList (by decide) : Plain ", ") names
  unfold varStatement
  simp only [Plain.append_iff, listed, and_true]
  and_intros <;> exact .ofList (by decide)

theorem moduleClosing_plain : Plain moduleClosing := .ofList (by decide)

theorem machineOpening_plain : Plain StepMachine.standard.opening := by
  unfold StepMachine.opening
  simp only [Plain.append_iff]
  and_intros <;> exact .ofList (by decide)

theorem machineClosing_plain : Plain StepMachine.standard.closing := by
  unfold StepMachine.closing
  simp only [Plain.append_iff]
  and_intros <;> exact .ofList (by decide)

end Layout
end Linkage
