import Linkage.Proofs.Linker.Markers
import Linkage.Proofs.Program.Matching
import Linkage.Proofs.Program.PlainText
import Linkage.Proofs.Selection.Sites

/-!
# Minified programs

Minification strips the parts of a program that the layout puts in, each on its own, and leaves caller code as it is.
Each stripped part begins and ends where no token runs on, so the whole program keeps its tokens, and its markers stay
where they are among them.
-/
namespace Linkage

open Text.Utf8 (encode encode_append)

namespace Whitespace

/-! ### Text of the layout -/

/-- A string all of whose bytes belong to words. -/
def IsName (text : String) : Prop := ∀ b ∈ encode text, isWordByte b

/-- A string that stands for itself between double quotes. -/
def IsQuotable (text : String) : Prop := ∀ b ∈ encode text, b ≠ 0x22 ∧ b ≠ backslash

instance (text : String) : Decidable (IsName text) := inferInstanceAs (Decidable (∀ b ∈ encode text, _))

instance (text : String) : Decidable (IsQuotable text) := inferInstanceAs (Decidable (∀ b ∈ encode text, _))

/-- A word is read as one run of code bytes. -/
theorem scan_words {p : Bytes} (words : ∀ b ∈ p, isWordByte b) : scan .code p = ⟨p.map .code, .code⟩ := by
  induction p with
  | nil => rfl
  | cons b rest ih =>
    have word := words b List.mem_cons_self
    have inked : Inked b rest := by
      refine ⟨?_, ?_, ?_⟩
      · rintro _ _ _ _ _ rfl
        exact absurd word (by decide)
      · rintro _ rfl
        exact absurd word (by decide)
      · simp only [isBlankByte, Bool.or_eq_true, beq_iff_eq]
        rintro (((rfl | rfl) | rfl) | rfl) <;> exact absurd word (by decide)
    have unquoted : ¬ isQuote b := by
      simp only [isQuote, Bool.or_eq_true, beq_iff_eq]
      rintro ((rfl | rfl) | rfl) <;> exact absurd word (by decide)
    rw [inked.scan, Mode.afterCode, if_neg unquoted, ih fun other member => words other (List.mem_cons_of_mem b member)]
    rfl

/-- Between double quotes everything but a quote and a backslash belongs to the literal. -/
theorem scan_quoted {p : Bytes} (quotable : ∀ b ∈ p, b ≠ 0x22 ∧ b ≠ backslash) :
    scan (.literal 0x22) p = ⟨p.map .inside, .literal 0x22⟩ := by
  induction p with
  | nil => rfl
  | cons b rest ih =>
    obtain ⟨noQuote, noEscape⟩ := quotable b List.mem_cons_self
    rw [scan, Mode.afterInside, if_neg noEscape, if_neg noQuote,
      ih fun other member => quotable other (List.mem_cons_of_mem b member)]
    rfl

/-- Text of the layout, read from one mode to another: nothing in it opens a marker, and no gap can hide a comment. -/
structure Smooth (mode : Mode) (p : Bytes) (next : Mode) : Prop extends Passes mode p next where
  starless : .code star ∉ (scan mode p).lexemes

/-- Smooth text behind which any token ends. -/
structure Ended (mode : Mode) (p : Bytes) : Prop extends Smooth mode p .code where
  last : ∃ b ∈ lastByte (scan mode p).lexemes, stops b ∧ b ≠ slash

instance (mode : Mode) (p : Bytes) (next : Mode) : Decidable (Smooth mode p next) :=
  decidable_of_iff ((_ ∧ _ ∧ _ ∧ _) ∧ _)
    ⟨fun ⟨⟨whole, ending, uncommented, apart⟩, starless⟩ => ⟨⟨whole, ending, uncommented, apart⟩, starless⟩,
      fun smooth => ⟨⟨smooth.whole, smooth.ending, smooth.uncommented, smooth.apart⟩, smooth.starless⟩⟩

instance (mode : Mode) (p : Bytes) : Decidable (Ended mode p) :=
  decidable_of_iff (_ ∧ _) ⟨fun ⟨smooth, last⟩ => ⟨smooth, last⟩, fun ended => ⟨ended.toSmooth, ended.last⟩⟩

namespace Smooth

variable {mode next after : Mode} {p q : Bytes}

/-- Without a sentinel, a slash or a star outside of literals, there is neither a marker nor a comment to find. -/
theorem of_absent (absent : ∀ b ∈ [Marker.sentinel, slash, star], .code b ∉ (scan mode p).lexemes)
    (ending : (scan mode p).ending = next) (uncommented : next ≠ .comment) : Smooth mode p next where
  whole := absent _ (by decide)
  starless := absent _ (by decide)
  apart last := absent slash (by decide) (List.mem_of_getLast? last)
  ending := ending
  uncommented := uncommented

theorem name {text : String} (isName : IsName text) : Smooth .code (encode text) .code := by
  have scanned := scan_words isName
  refine of_absent ?_ (congrArg Scan.ending scanned) nofun
  intro b listed member
  have noWord : ∀ b ∈ [Marker.sentinel, slash, star], isWordByte b = false := by decide +kernel
  rw [scanned] at member
  obtain ⟨_, inside, same⟩ := List.mem_map.mp member
  cases same
  exact nomatch (noWord b listed).symm.trans (isName b inside)

theorem quoted {text : String} (quotable : IsQuotable text) : Smooth (.literal 0x22) (encode text) (.literal 0x22) := by
  have scanned := scan_quoted quotable
  refine of_absent ?_ (congrArg Scan.ending scanned) nofun
  intro b _ member
  rw [scanned] at member
  obtain ⟨_, -, same⟩ := List.mem_map.mp member
  exact nomatch same

theorem ofList {chars : List Char} (smooth : Smooth mode (chars.flatMap String.utf8EncodeChar) next) :
    Smooth mode (encode (String.ofList chars)) next := by
  rwa [encode, String.toList_ofList]

/-- Smooth text goes on into smooth text. -/
theorem append {text more : String} (smooth : Smooth mode (encode text) next)
    (other : Smooth next (encode more) after) : Smooth mode (encode (text ++ more)) after where
  toPasses := by
    rw [encode_append]
    exact smooth.toPasses.append other.toPasses
  starless member := by
    rw [encode_append, smooth.scan_append] at member
    exact (List.mem_append.mp member).elim smooth.starless other.starless

/-- Text that goes on smoothly to an end is ended as a whole. -/
theorem append_ended {text more : String} (smooth : Smooth mode (encode text) next) (ended : Ended next (encode more)) :
    Ended mode (encode (text ++ more)) where
  toSmooth := smooth.append ended.toSmooth
  last := by
    obtain ⟨b, last, stop⟩ := ended.last
    refine ⟨b, ?_, stop⟩
    rw [encode_append, smooth.scan_append, Scan.followedBy, lastByte_append, Option.mem_def.mp last]
    rfl

theorem join {texts : List String} (all : ∀ text ∈ texts, Smooth .code (encode text) .code) :
    Smooth .code (encode (String.join texts)) .code := by
  induction texts with
  | nil => exact (by decide : Smooth .code (encode "") .code)
  | cons text rest ih =>
    rw [String.join_cons]
    exact (all text List.mem_cons_self).append (ih fun other member => all other (List.mem_cons_of_mem text member))

/-- Smooth texts stay so with a smooth separator between them. -/
theorem intercalate {separator : String} {texts : List String} (smooth : Smooth .code (encode separator) .code)
    (all : ∀ text ∈ texts, Smooth .code (encode text) .code) :
    Smooth .code (encode (separator.intercalate texts)) .code := by
  induction texts with
  | nil => exact (by decide : Smooth .code (encode "") .code)
  | cons text rest ih =>
    have first := all text List.mem_cons_self
    have others := ih fun other member => all other (List.mem_cons_of_mem text member)
    by_cases last : rest = []
    · rwa [last, String.intercalate_singleton]
    · rw [String.intercalate_cons_of_ne_nil last]
      exact (first.append smooth).append others

theorem shut (smooth : Smooth .code p .code) : Shut p := ⟨smooth.whole, smooth.ending⟩

theorem unsplit (smooth : Smooth mode p next) : Unsplit (scan mode p).lexemes := by
  intro front gaps back split
  apply smooth.starless
  rw [split]
  simp

end Smooth

namespace Ended

variable {mode : Mode} {p : Bytes}

theorem ofList {chars : List Char} (ended : Ended mode (chars.flatMap String.utf8EncodeChar)) :
    Ended mode (encode (String.ofList chars)) := by
  rwa [encode, String.toList_ofList]

/-- Stripping ended text keeps its tokens, and they do not run on into what follows. -/
theorem removed (ended : Ended .code p) : Matches p (remove p) := by
  obtain ⟨b, last, stop, noSlash⟩ := ended.last
  exact .removed ended.shut ended.unsplit last stop noSlash

end Ended
end Whitespace

open Whitespace

namespace Layout

theorem header_ended : Ended .code (encode header) := .ofList (by decide +kernel)

theorem moduleClosing_ended : Ended .code (encode moduleClosing) := .ofList (by decide +kernel)

theorem machineOpening_ended : Ended .code (encode StepMachine.standard.opening) := by
  unfold StepMachine.opening
  refine Smooth.append_ended ?_ (.ofList (by decide +kernel) : Ended .code _)
  repeat refine Smooth.append ?_ (.ofList (by decide +kernel) : Smooth .code _ .code)
  exact .ofList (by decide +kernel)

theorem machineClosing_ended : Ended .code (encode StepMachine.standard.closing) := by
  unfold StepMachine.closing
  refine Smooth.append_ended ?_ (.ofList (by decide +kernel) : Ended .code _)
  repeat refine Smooth.append ?_ (.ofList (by decide +kernel) : Smooth .code _ .code)
  exact .ofList (by decide +kernel)

/-- An import path stands in a literal, so anything without a quote or a backslash will do. -/
theorem moduleOpening_ended {importPath : String} (quotable : IsQuotable importPath) :
    Ended .code (encode (moduleOpening importPath)) := by
  have opening : Smooth .code (encode "$packages[\"") (.literal 0x22) := .ofList (by decide +kernel)
  exact (opening.append (.quoted quotable)).append_ended (.ofList (by decide +kernel))

/-- Variables are words with a comma and a space between them. -/
theorem varStatement_ended {decls : List Declaration} (names : ∀ d ∈ decls, ∀ name ∈ d.vars, IsName name) :
    Ended .code (encode (varStatement decls)) := by
  have all : ∀ name ∈ "$pkg = \x7b\x7d" :: "$init" :: decls.flatMap (·.vars), Smooth .code (encode name) .code := by
    intro name member
    simp only [List.mem_cons, List.mem_flatMap] at member
    obtain rfl | rfl | ⟨d, selected, inside⟩ := member
    · exact .ofList (by decide +kernel)
    · exact .ofList (by decide +kernel)
    · exact .name (names d selected name inside)
  have keyword : Smooth .code (encode "\tvar ") .code := .ofList (by decide +kernel)
  have separator : Smooth .code (encode ", ") .code := .ofList (by decide +kernel)
  exact (keyword.append (separator.intercalate all)).append_ended (.ofList (by decide +kernel))

/-- The epilogue names two import paths in literals, and the entry symbol as a word. -/
theorem epilogue_ended {entry : String} {settings : Settings} (quotable : IsQuotable entry)
    (runtime : IsQuotable settings.runtimePackage) (symbol : IsName settings.entrySymbol) :
    Ended .code (encode (epilogue entry settings)) := by
  have synthesized : Smooth .code (encode "$synthesizeMethods();\n") .code := .ofList (by decide +kernel)
  have entry : Smooth .code (encode "var $mainPkg = $packages[\"") (.literal 0x22) := .ofList (by decide +kernel)
  have entered : Smooth (.literal 0x22) (encode "\"];\n") .code := .ofList (by decide +kernel)
  have lookup : Smooth .code (encode "$packages[\"") (.literal 0x22) := .ofList (by decide +kernel)
  have started : Smooth (.literal 0x22) (encode "\"].$init();\n") .code := .ofList (by decide +kernel)
  have going : Smooth .code (encode "$go($mainPkg.") .code := .ofList (by decide +kernel)
  have called : Smooth .code (encode ", []);\n") .code := .ofList (by decide +kernel)
  have before := (((synthesized.append entry).append (.quoted quotable)).append entered).append lookup
  have call := ((before.append (.quoted runtime)).append started).append going
  exact ((call.append (.name symbol)).append called).append_ended (.ofList (by decide +kernel))

end Layout

open Layout

/-! ### Parts of a program -/

/-- The configured names fit where the layout puts them, and stripping the prelude makes no comment. -/
structure Settings.Strippable (settings : Settings) : Prop where
  prelude : Shut (encode settings.prelude)
  unsplit : Unsplit (scan .code (encode settings.prelude)).lexemes
  runtimePackage : IsQuotable settings.runtimePackage
  entrySymbol : IsName settings.entrySymbol

/-- The settings that are used if nothing is configured can be stripped. -/
theorem Settings.strippable_default : Settings.Strippable {} := by
  have lines : ∀ line ∈ Bootstrap.lines, Smooth .code (encode line) .code := by
    unfold Bootstrap.lines
    simp only [List.forall_mem_cons, List.not_mem_nil, false_implies, implies_true, and_true]
    and_intros <;> exact .ofList (by decide +kernel)
  have newline : Smooth .code (encode (String.singleton '\n')) .code := by decide +kernel
  have smooth : Smooth .code (encode Bootstrap.script) .code := by
    refine .join fun text member => ?_
    obtain ⟨line, listed, rfl⟩ := List.mem_map.mp member
    rw [String.push_eq_append]
    exact (lines line listed).append newline
  exact ⟨smooth.shut, smooth.unsplit, by decide +kernel, by decide +kernel⟩

/-- The names of a package fit where the layout puts them, and its code comes in whole lines. -/
structure Archive.Strippable (pkg : Archive) : Prop where
  importPath : IsQuotable pkg.importPath
  vars : ∀ d ∈ pkg.declarations, ∀ name ∈ d.vars, IsName name
  preamble : pkg.preamble ≠ [] → Line pkg.preamble
  fragments : ∀ d ∈ pkg.declarations, ∀ fragment ∈ [d.code, d.methodList, d.typeInit, d.init],
    fragment ≠ [] → Line fragment

/-- The two layouts write scripts that match. -/
def Agree (items items' : List Item) : Prop := Matches (text items) (text items')

namespace Agree

variable {items items' others others' : List Item}

theorem nil : Agree [] [] := Matches.nil

/-- Layouts agree part by part. -/
theorem append (agree : Agree items items') (rest : Agree others others') :
    Agree (items ++ others) (items' ++ others') := by
  rw [Agree, text, text, List.flatMap_append, List.flatMap_append]
  exact Matches.append agree rest

theorem cons {item item' : Item} (first : Matches item.event.bytes item'.event.bytes) (rest : Agree items items') :
    Agree (item :: items) (item' :: items') := Matches.append first rest

/-- Text of the layout keeps its tokens when it is stripped. -/
theorem injected {text : String} (ended : Ended .code (encode text)) (rest : Agree items items') :
    Agree (Layout.injected false text :: items) (Layout.injected true text :: items') := cons ended.removed rest

theorem newline (rest : Agree items items') : Agree (Layout.newline :: items) (Layout.newline :: items') := by
  have empty : Shut [] := ⟨List.not_mem_nil, rfl⟩
  exact cons (.self empty.append_newline) rest

/-- A script whose end may join with what follows, and the newline behind it. -/
theorem injected_newline {text : String} (shut : Shut (encode text))
    (unsplit : Unsplit (scan .code (encode text)).lexemes) (rest : Agree items items') :
    Agree (Layout.injected false text :: Layout.newline :: items)
      (Layout.injected true text :: Layout.newline :: items') := by
  have both := (Matches.removed_newline shut unsplit).append rest
  rw [List.append_assoc, List.append_assoc] at both
  exact both

theorem table (inForce : Option PositionTable) (rest : Agree items items') :
    Agree (.table inForce :: items) (.table inForce :: items') := rest

/-- Code of an archive is the same in both layouts; it has to be whole lines, or nothing. -/
theorem fragment {code : Bytes} (line : code ≠ [] → Line code) (rest : Agree items items') :
    Agree (.bytes code :: items) (.bytes code :: items') := by
  refine cons ?_ rest
  by_cases empty : code = []
  · rw [empty]
    exact .nil
  · exact .self (line empty).spaced

theorem fragments {decls : List Declaration} {part : Declaration → Bytes}
    (lines : ∀ d ∈ decls, part d ≠ [] → Line (part d)) :
    Agree (decls.map (.bytes <| part ·)) (decls.map (.bytes <| part ·)) := by
  induction decls with
  | nil => exact nil
  | cons d rest ih =>
    exact fragment (lines d List.mem_cons_self) (ih fun other member => lines other (List.mem_cons_of_mem d member))

/-- A module agrees with its minified form if its code can stand beside stripped text. -/
theorem module {pkg : Archive} {decls : List Declaration} (strippable : pkg.Strippable)
    (selected : ∀ d ∈ decls, d ∈ pkg.declarations) : Agree (moduleOf false pkg decls) (moduleOf true pkg decls) := by
  have each (part : Declaration → Bytes) (named : ∀ d, part d ∈ [d.code, d.methodList, d.typeInit, d.init]) :
      Agree (decls.map (.bytes <| part ·)) (decls.map (.bytes <| part ·)) :=
    fragments fun d inside => strippable.fragments d (selected d inside) (part d) (named d)
  have opening := moduleOpening_ended strippable.importPath
  have vars := varStatement_ended fun d inside => strippable.vars d (selected d inside)
  have opened := table pkg.positions (fragment strippable.preamble (injected opening (injected vars nil)))
  have coded := ((opened.append (each (·.code) (by simp))).append (each (·.methodList) (by simp))).append
    (each (·.typeInit) (by simp))
  have initialized := (coded.append (injected machineOpening_ended nil)).append (each (·.init) (by simp))
  exact initialized.append (injected machineClosing_ended (injected moduleClosing_ended (newline nil)))

/-- So do all modules of a program, whatever is selected. -/
theorem packages {pkgs : List Archive} (strippable : ∀ pkg ∈ pkgs, pkg.Strippable) (selection : Selection) :
    Agree (pkgs.zipIdx.flatMap fun (pkg, index) => package false selection index pkg)
      (pkgs.zipIdx.flatMap fun (pkg, index) => package true selection index pkg) := by
  rw [Agree, text, text, List.flatMap_assoc, List.flatMap_assoc]
  apply Matches.flatMap
  intro entry member
  have inside := List.fst_mem_of_mem_zipIdx member
  exact module (strippable entry.1 inside) fun _ => Selection.mem_declarations

end Agree

/-- Both layouts exist, and agree from the header to the epilogue. -/
theorem program_agree {settings : Settings} {pkgs : List Archive} (nonempty : pkgs ≠ [])
    (configured : settings.Strippable) (strippable : ∀ pkg ∈ pkgs, pkg.Strippable) (selection : Selection) :
    ∃ items items', program { settings with minify := some false } selection pkgs = .ok items ∧
      program { settings with minify := some true } selection pkgs = .ok items' ∧ Agree items items' := by
  have last := List.getLast?_eq_getLast_of_ne_nil nonempty
  have path := (strippable _ (List.getLast_mem nonempty)).importPath
  have epilogue := epilogue_ended path configured.runtimePackage configured.entrySymbol
  refine ⟨_, _, by rw [program, last], by rw [program, last], ?_⟩
  have packages := (Agree.packages strippable selection).append (.injected epilogue .nil)
  exact .injected header_ended (.injected_newline configured.prelude configured.unsplit packages)

/-- Whatever is selected, a program that is laid out with minification has the tokens of the one that is laid out
without it, in the same order, and the same markers in the same places among them. -/
theorem layOut_minified (settings : Settings) (selection : Selection) {pkgs : List Archive} (nonempty : pkgs ≠ [])
    (configured : settings.Strippable) (strippable : ∀ pkg ∈ pkgs, pkg.Strippable) :
    ∃ plain minified,
      (Emitter.layOut { settings with minify := some false } selection pkgs).run {} = .ok () plain ∧
      (Emitter.layOut { settings with minify := some true } selection pkgs).run {} = .ok () minified ∧
      tokens minified.sink.written.toList = tokens plain.sink.written.toList ∧
      markers minified.sink.written.toList = markers plain.sink.written.toList := by
  obtain ⟨items, items', laidOut, laidOut', agree⟩ := program_agree nonempty configured strippable selection
  obtain ⟨plain, written, passed⟩ := Emitter.layOut_run laidOut
  obtain ⟨minified, written', passed'⟩ := Emitter.layOut_run laidOut'
  obtain ⟨same, places⟩ := Matches.tokens agree
  refine ⟨plain, minified, written, written', ?_, ?_⟩
  · rw [passed, passed', same]
  · rw [passed, passed', places]

namespace SpreadCode

/-- A literal that holds the opening of a comment, a sign, a comment, a marker, and the same sign again. -/
def code : Bytes := [0x27, 0x2F, 0x2A, 0x27, 0x2B, 0x2F, 0x2A, 0x20, 0x2A, 0x2F] ++ Marker.encode 7 ++ [0x2B, 0x78]

def lib : Archive where
  importPath := "it's/*lib"
  name := "lib"
  preamble := code ++ [Emitter.newline]

def entry : Archive where
  importPath := "main"
  name := "main"
  declarations := [{ vars := ["T", "größe"], code := code ++ [Emitter.newline], init := code ++ [Emitter.newline] }]

theorem line_code : Line (code ++ [Emitter.newline]) := Shut.line (by decide +kernel)

theorem lib_strippable : lib.Strippable where
  importPath := by decide +kernel
  vars := nofun
  preamble _ := line_code
  fragments := nofun

theorem entry_strippable : entry.Strippable where
  importPath := by decide +kernel
  vars := by decide +kernel
  preamble nonempty := absurd rfl nonempty
  fragments d declared fragment listed nonempty := by
    obtain rfl := List.mem_singleton.mp declared
    rcases List.mem_cons.mp listed with rfl | listed
    · exact line_code
    rcases List.mem_cons.mp listed with rfl | listed
    · exact absurd rfl nonempty
    rcases List.mem_cons.mp listed with rfl | listed
    · exact absurd rfl nonempty
    obtain rfl := List.mem_singleton.mp listed
    exact line_code

end SpreadCode

open SpreadCode in
/-- The code has openings of comments in a literal and in an import path, and a comment and a marker between two
signs. -/
theorem layOut_minified_spread :
    [lib, entry] ≠ [] ∧ Settings.Strippable {} ∧ (∀ pkg ∈ [lib, entry], pkg.Strippable) ∧
    ∃ plain minified,
      (Emitter.layOut { minify := some false } (Selection.all [lib, entry]) [lib, entry]).run {} = .ok () plain ∧
      (Emitter.layOut { minify := some true } (Selection.all [lib, entry]) [lib, entry]).run {} = .ok () minified ∧
      tokens minified.sink.written.toList = tokens plain.sink.written.toList ∧
      markers minified.sink.written.toList = markers plain.sink.written.toList := by
  have nonempty : [lib, entry] ≠ [] := by decide
  have strippable : ∀ pkg ∈ [lib, entry], pkg.Strippable := by
    rw [List.forall_mem_cons, List.forall_mem_singleton]
    exact ⟨lib_strippable, entry_strippable⟩
  exact ⟨nonempty, Settings.strippable_default, strippable,
    layOut_minified {} (Selection.all [lib, entry]) nonempty Settings.strippable_default strippable⟩

end Linkage
