import Linkage.Proofs.Linker.Markers
import Linkage.Proofs.Selection.Sites

/-!
# The passages of a program

A program is written as a sequence of passages, which are numbered like the sections of a book. Which ones there are
depends on the packages and on the selection only. What is written is the text of each of them once, in the order of
their numbers.
-/
namespace Linkage.Layout

/-- A kind of code that each declaration has. -/
inductive Fragment where
  | code
  | methodList
  | typeInit
  | init
  deriving DecidableEq, Repr

def Fragment.of (d : Declaration) : Fragment → Bytes
  | .code => d.code
  | .methodList => d.methodList
  | .typeInit => d.typeInit
  | .init => d.init

/-- What a module has in it, one after the other. -/
inductive Slot where
  | preamble
  | opening
  | variables
  | fragments (kind : Fragment)
  | machineOpening
  | machineClosing
  | closing
  | newline
  deriving DecidableEq, Repr

def Slot.number : Slot → Nat
  | .preamble => 0
  | .opening => 1
  | .variables => 2
  | .fragments .code => 3
  | .fragments .methodList => 4
  | .fragments .typeInit => 5
  | .machineOpening => 6
  | .fragments .init => 7
  | .machineClosing => 8
  | .closing => 9
  | .newline => 10

inductive Passage where
  | header
  | prelude
  | newline
  -- What is in a slot of the module of a package. The index is that of the declaration, if the slot is for fragments.
  | inModule (package : Nat) (slot : Slot) (index : Nat)
  | epilogue
  deriving DecidableEq, Repr

namespace Passage

def number : Passage → List Nat
  | .header => [0]
  | .prelude => [1]
  | .newline => [2]
  | .inModule package slot index => [3, package, slot.number, index]
  | .epilogue => [4]

/-- The passage is one of the program: a fragment is if its declaration is selected, anything else if its package is
there. -/
def Occurs (selection : Selection) (pkgs : List Archive) : Passage → Prop
  | .inModule package (.fragments _) index =>
    (declaration? pkgs ⟨package, index⟩).isSome ∧ selection.contains ⟨package, index⟩
  | .inModule package _ index => package < pkgs.length ∧ index = 0
  | .header | .prelude | .newline | .epilogue => True

end Passage

/-- Text of the layout itself, as it is written. -/
def own (minify : Bool) (text : String) : Bytes :=
  if minify then Whitespace.remove (Text.Utf8.encode text) else Text.Utf8.encode text

/-- The variables of the selected declarations of a package, in the order of the declarations and with repetitions. -/
def selectedVars (selection : Selection) (package : Nat) (pkg : Archive) : List String :=
  pkg.declarations.zipIdx.flatMap fun (d, index) => if selection.contains ⟨package, index⟩ then d.vars else []

/-- What is in a slot: code of the archive as it is, or text of the layout. -/
def Slot.bytes (minify : Bool) (selection : Selection) (package : Nat) (pkg : Archive) (index : Nat) : Slot → Bytes
  | .preamble => pkg.preamble
  | .opening => own minify ("$packages[\"" ++ pkg.importPath ++ "\"] = (function() \x7b\n")
  | .variables =>
    own minify ("\tvar " ++ ", ".intercalate (["$pkg = \x7b\x7d", "$init"] ++ selectedVars selection package pkg) ++ ";\n")
  | .fragments kind => (pkg.declarations[index]?.map kind.of).getD []
  | .machineOpening => own minify <|
    "\t$init = function() \x7b\n" ++
    "\t\t$pkg.$init = function() \x7b\x7d;\n" ++
    "\t\tvar $f, $c = false, $s = 0, $r; if (this !== undefined && this.$blk !== undefined) " ++
    "\x7b $f = this; $c = true; $s = $f.$s; $r = $f.$r; \x7d s: while (true) \x7b switch ($s) \x7b case 0:\n"
  | .machineClosing => own minify <|
    "\t\t\x7d return; \x7d if ($f === undefined) \x7b $f = \x7b $blk: $init \x7d; \x7d " ++
    "$f.$s = $s; $f.$r = $r; return $f;\n" ++
    "\t\x7d;\n"
  | .closing => own minify "\t$pkg.$init = $init;\n\treturn $pkg;\n\x7d)();"
  | .newline => [0x0A]

/-- The last package of the program is the entry package, whose import path the epilogue names. -/
def Passage.bytes (settings : Settings) (selection : Selection) (pkgs : List Archive) (entry : Archive) :
    Passage → Bytes :=
  let minify := settings.minify.getD entry.minified
  fun
  | .header => own minify "\"use strict\";\n(function() \x7b\n\n"
  | .prelude => own minify settings.prelude
  | .newline => [0x0A]
  | .inModule package slot index =>
    (pkgs[package]?.map fun pkg => slot.bytes minify selection package pkg index).getD []
  | .epilogue => own minify <|
    "$synthesizeMethods();\n" ++
    "var $mainPkg = $packages[\"" ++ entry.importPath ++ "\"];\n" ++
    "$packages[\"" ++ settings.runtimePackage ++ "\"].$init();\n" ++
    "$go($mainPkg." ++ settings.entrySymbol ++ ", []);\n" ++
    "$flushConsole();\n\n\x7d).call(this);\n"

/-! ### All passages in order -/

namespace Slot

def all : List Slot :=
  [.preamble, .opening, .variables, .fragments .code, .fragments .methodList, .fragments .typeInit, .machineOpening,
    .fragments .init, .machineClosing, .closing, .newline]

theorem mem_all (slot : Slot) : slot ∈ all := by
  rcases slot with _ | _ | _ | (_ | _ | _ | _) | _ | _ | _ | _ <;> decide

theorem all_ascending : all.Pairwise (·.number < ·.number) := by decide

/-- The indices of the passages in a slot. -/
def indices (selection : Selection) (package : Nat) (pkg : Archive) : Slot → List Nat
  | .fragments _ => (pkg.declarations.zipIdx.filter fun (_, index) => selection.contains ⟨package, index⟩).map (·.2)
  | _ => [0]

/-- Fragments stand in the order of their declarations. -/
theorem indices_ascending (selection : Selection) (package : Nat) (pkg : Archive) (slot : Slot) :
    (slot.indices selection package pkg).Pairwise (· < ·) := by
  cases slot with
  | fragments _ => exact List.pairwise_map.mpr ((zipIdx_ascending pkg.declarations).sublist List.filter_sublist)
  | _ => exact List.pairwise_singleton ..

end Slot

def modulePassages (selection : Selection) (package : Nat) (pkg : Archive) : List Passage :=
  Slot.all.flatMap fun slot => (slot.indices selection package pkg).map (.inModule package slot)

def passages (selection : Selection) (pkgs : List Archive) : List Passage :=
  [.header, .prelude, .newline] ++ pkgs.zipIdx.flatMap (fun (pkg, package) => modulePassages selection package pkg) ++
    [.epilogue]

section Order

variable {selection : Selection} {pkgs : List Archive} {pkg : Archive} {p : Nat}

theorem mem_modulePassages {passage : Passage} :
    passage ∈ modulePassages selection p pkg ↔
      ∃ slot, ∃ index ∈ Slot.indices selection p pkg slot, Passage.inModule p slot index = passage := by
  simp [modulePassages, Slot.mem_all]

theorem mem_modules {passage : Passage} :
    passage ∈ pkgs.zipIdx.flatMap (fun (pkg, p) => modulePassages selection p pkg) ↔
      ∃ p pkg, pkgs[p]? = some pkg ∧
        ∃ slot, ∃ index ∈ Slot.indices selection p pkg slot, Passage.inModule p slot index = passage := by
  simp only [List.mem_flatMap, Prod.exists, List.mem_zipIdx_iff_getElem?, mem_modulePassages]
  exact exists_comm

/-- The passages of a module are those in its slots. -/
theorem occurs_inModule {slot : Slot} {index : Nat} :
    (Passage.inModule p slot index).Occurs selection pkgs ↔
      ∃ pkg, pkgs[p]? = some pkg ∧ index ∈ slot.indices selection p pkg := by
  cases slot with
  | fragments kind =>
    simp only [Passage.Occurs, declaration?, Slot.indices, List.mem_map, List.mem_filter, Prod.exists,
      List.mem_zipIdx_iff_getElem?]
    cases pkgs[p]? <;> simp [Option.isSome_iff_exists]
  | _ => simp [Passage.Occurs, Slot.indices, List.getElem?_eq_some_iff, and_comm]

/-- The listing has the passages of the program and no others. -/
theorem mem_passages {passage : Passage} : passage ∈ passages selection pkgs ↔ passage.Occurs selection pkgs := by
  rw [passages, List.mem_append, List.mem_append, mem_modules]
  cases passage with
  | inModule p slot index =>
    rw [occurs_inModule]
    simp
  | _ => simp [Passage.Occurs]

/-- Within a module, passages are in the order of slots, then of declarations. -/
theorem modulePassages_ascending (selection : Selection) (p : Nat) (pkg : Archive) :
    (modulePassages selection p pkg).Pairwise (·.number < ·.number) := by
  refine List.pairwise_flatMap.mpr ⟨fun slot _ => ?_, Slot.all_ascending.imp ?_⟩
  · refine List.pairwise_map.mpr ((slot.indices_ascending selection p pkg).imp fun earlier => ?_)
    simp [Passage.number, List.cons_lt_cons_iff, earlier]
  · intro slot next earlier passage here later there
    obtain ⟨_, _, rfl⟩ := List.mem_map.mp here
    obtain ⟨_, _, rfl⟩ := List.mem_map.mp there
    simp [Passage.number, List.cons_lt_cons_iff, earlier]

/-- The listing is in the order of numbers, so it has no passage twice. -/
theorem passages_ascending (selection : Selection) (pkgs : List Archive) :
    (passages selection pkgs).Pairwise (·.number < ·.number) := by
  have modules :
      (pkgs.zipIdx.flatMap fun (pkg, p) => modulePassages selection p pkg).Pairwise (·.number < ·.number) := by
    refine List.pairwise_flatMap.mpr ⟨fun numbered _ => modulePassages_ascending selection numbered.2 numbered.1, ?_⟩
    refine (zipIdx_ascending pkgs).imp ?_
    rintro ⟨pkg, p⟩ ⟨next, q⟩ earlier passage here later there
    obtain ⟨_, _, _, rfl⟩ := mem_modulePassages.mp here
    obtain ⟨_, _, _, rfl⟩ := mem_modulePassages.mp there
    simp [Passage.number, List.cons_lt_cons_iff, earlier]
  rw [passages, List.append_assoc]
  refine List.pairwise_append.mpr ⟨by decide, List.pairwise_append.mpr ⟨modules, List.pairwise_singleton .., ?_⟩, ?_⟩
  · intro passage inside last final
    obtain ⟨_, _, _, _, _, _, rfl⟩ := mem_modules.mp inside
    obtain rfl := List.mem_singleton.mp final
    simp [Passage.number, List.cons_lt_cons_iff]
  · intro passage front later behind
    have first : passage = .header ∨ passage = .prelude ∨ passage = .newline := by simpa using front
    rcases List.mem_append.mp behind with inside | final
    · obtain ⟨_, _, _, _, _, _, rfl⟩ := mem_modules.mp inside
      rcases first with rfl | rfl | rfl <;> simp [Passage.number, List.cons_lt_cons_iff]
    · obtain rfl := List.mem_singleton.mp final
      rcases first with rfl | rfl | rfl <;> decide

end Order

/-! ### What the layout writes -/

theorem text_append (front back : List Item) : text (front ++ back) = text front ++ text back := List.flatMap_append ..

theorem text_injected (minify : Bool) (content : String) : text [injected minify content] = own minify content := by
  simp [text, injected, own, Item.event, OutputEvent.bytes]

theorem text_fragments (decls : List Declaration) (kind : Fragment) :
    text (decls.map fun d => .bytes (kind.of d)) = decls.flatMap kind.of := by
  simp [text, List.flatMap_map, Item.event, OutputEvent.bytes]

/-- Going through the selected declarations is going through all of them and leaving some out. -/
theorem flatMap_ofPackage {α : Type} (selection : Selection) (p : Nat) (pkg : Archive) (f : Declaration → List α) :
    (selection.ofPackage p pkg).flatMap f =
      pkg.declarations.zipIdx.flatMap fun (d, i) => if selection.contains ⟨p, i⟩ then f d else [] := by
  simp only [Selection.ofPackage, List.flatMap_map]
  induction pkg.declarations.zipIdx with
  | nil => rfl
  | cons numbered rest ih =>
    rw [List.filter_cons, List.flatMap_cons, ← ih]
    split <;> rfl

theorem flatMap_indices (selection : Selection) (p : Nat) (pkg : Archive) (kind : Fragment) :
    (Slot.indices selection p pkg (.fragments kind)).flatMap (fun i => (pkg.declarations[i]?.map kind.of).getD []) =
      (selection.ofPackage p pkg).flatMap kind.of := by
  simp only [Slot.indices, Selection.ofPackage, List.flatMap_map]
  refine List.flatMap_congr ?_
  rintro ⟨d, i⟩ member
  rw [List.mem_zipIdx_iff_getElem?.mp (List.mem_of_mem_filter member)]
  rfl

/-- The step machine with its standard names is the text around the init fragments. -/
theorem own_stepMachine (minify : Bool) (selection : Selection) (p : Nat) (pkg : Archive) :
    own minify StepMachine.standard.opening = Slot.machineOpening.bytes minify selection p pkg 0 ∧
      own minify StepMachine.standard.closing = Slot.machineClosing.bytes minify selection p pkg 0 :=
  ⟨congrArg (own minify) (by decide +kernel), congrArg (own minify) (by decide +kernel)⟩

/-- A module is the text of its slots, one after the other. -/
theorem text_package (minify : Bool) (selection : Selection) (p : Nat) (pkg : Archive) :
    text (package minify selection p pkg) =
      Slot.all.flatMap fun slot =>
        (slot.indices selection p pkg).flatMap fun i => slot.bytes minify selection p pkg i := by
  let slotText (slot : Slot) : Bytes := slot.bytes minify selection p pkg 0
  have statement : text [injected minify (varStatement (selection.ofPackage p pkg))] = slotText .variables := by
    rw [text_injected, varStatement, flatMap_ofPackage]
    rfl
  have fragments (kind : Fragment) : text ((selection.ofPackage p pkg).map fun d => .bytes (kind.of d)) =
      (Slot.indices selection p pkg (.fragments kind)).flatMap fun i =>
        Slot.bytes minify selection p pkg i (.fragments kind) := by
    rw [text_fragments, ← flatMap_indices]
    rfl
  obtain ⟨machineOpening, machineClosing⟩ := own_stepMachine minify selection p pkg
  have parts : text (package minify selection p pkg) =
      slotText .preamble ++ slotText .opening ++ slotText .variables ++
        text ((selection.ofPackage p pkg).map fun d => .bytes (Fragment.code.of d)) ++
        text ((selection.ofPackage p pkg).map fun d => .bytes (Fragment.methodList.of d)) ++
        text ((selection.ofPackage p pkg).map fun d => .bytes (Fragment.typeInit.of d)) ++
        slotText .machineOpening ++
        text ((selection.ofPackage p pkg).map fun d => .bytes (Fragment.init.of d)) ++
        (slotText .machineClosing ++ slotText .closing ++ slotText .newline) := by
    change _ = pkg.preamble ++ own minify (moduleOpening pkg.importPath) ++ _ ++ _ ++ _ ++ _ ++
      Slot.machineOpening.bytes minify selection p pkg 0 ++ _ ++
      (Slot.machineClosing.bytes minify selection p pkg 0 ++ own minify moduleClosing ++ [0x0A])
    simp only [← statement, ← machineOpening, ← machineClosing, ← text_injected]
    simp only [package, moduleOf, text_append]
    simp [text, newline, Item.event, OutputEvent.bytes, Fragment.of]
  rw [parts, fragments, fragments, fragments, fragments]
  simp [Slot.all, Slot.indices, slotText]

theorem text_modulePassages {settings : Settings} {selection : Selection} {pkgs : List Archive} {entry pkg : Archive}
    {p : Nat} (found : pkgs[p]? = some pkg) :
    text (package (settings.minifies entry.minified) selection p pkg) =
      (modulePassages selection p pkg).flatMap (Passage.bytes settings selection pkgs entry) := by
  simp only [text_package, modulePassages, List.flatMap_assoc, List.flatMap_map, Passage.bytes, found, Option.map_some,
    Option.getD_some]
  rfl

/-- The text of a program is that of its passages. -/
theorem text_program {settings : Settings} {selection : Selection} {pkgs : List Archive} {items : List Item}
    (nonempty : pkgs ≠ []) (laidOut : program settings selection pkgs = .ok items) :
    text items = (passages selection pkgs).flatMap
      (Passage.bytes settings selection pkgs (pkgs.getLast nonempty)) := by
  let minify := settings.minifies (pkgs.getLast nonempty).minified
  have modules : text (pkgs.zipIdx.flatMap fun (pkg, p) => package minify selection p pkg) =
      (pkgs.zipIdx.flatMap fun (pkg, p) => modulePassages selection p pkg).flatMap
        (Passage.bytes settings selection pkgs (pkgs.getLast nonempty)) := by
    rw [text, List.flatMap_assoc, List.flatMap_assoc]
    refine List.flatMap_congr ?_
    rintro ⟨pkg, p⟩ member
    exact text_modulePassages (List.mem_zipIdx_iff_getElem?.mp member)
  have front : text [injected minify header, injected minify settings.prelude, Layout.newline] =
      own minify header ++ (own minify settings.prelude ++ [0x0A]) := by
    simp only [← text_injected]
    simp [text, Layout.newline, Item.event, OutputEvent.bytes]
  simp only [program, List.getLast?_eq_getLast_of_ne_nil nonempty, Except.ok.injEq] at laidOut
  rw [← laidOut, text_append, text_append, modules, front, text_injected, passages, List.flatMap_append,
    List.flatMap_append]
  simp only [List.flatMap_cons, List.flatMap_nil, List.append_nil]
  rfl

/-- What is written is the text of the passages, each of them once and in the order of their numbers. Besides, only the
table in force changes. An emitter without maps passes the text on as it is. -/
theorem layOut_passages (settings : Settings) (selection : Selection) {pkgs : List Archive} (nonempty : pkgs ≠ []) :
    ∃ (passages : List Passage) (events : List OutputEvent) (text : Bytes),
      passages.Pairwise (·.number < ·.number) ∧
      (∀ passage, passage ∈ passages ↔ passage.Occurs selection pkgs) ∧
      (∀ passage ∈ passages, passages.count passage = 1) ∧
      text = passages.flatMap (Passage.bytes settings selection pkgs (pkgs.getLast nonempty)) ∧
      Emitter.layOut settings selection pkgs = events.forM Emitter.perform ∧
      events.flatMap (·.bytes) = text ∧ .flush ∉ events ∧
      ∀ earlier m, m.Passed earlier →
        ∃ m', (Emitter.layOut settings selection pkgs).run m = .ok () m' ∧ m'.Passed (earlier ++ text) := by
  obtain ⟨items, laidOut⟩ := exists_program settings selection nonempty
  have distinct : (passages selection pkgs).Nodup := by
    refine (passages_ascending selection pkgs).imp fun {first second} earlier same => ?_
    rw [same] at earlier
    exact List.lt_irrefl _ earlier
  have performed := Emitter.layOut_eq laidOut
  have written : (items.map (·.event)).flatMap (·.bytes) = text items := List.flatMap_map ..
  refine ⟨passages selection pkgs, items.map (·.event), text items, passages_ascending selection pkgs,
    fun _ => mem_passages, fun _ member => List.count_eq_one_of_mem distinct member, text_program nonempty laidOut,
    performed, written, ?_, fun earlier m passed => ?_⟩
  · intro flushed
    obtain ⟨item, _, same⟩ := List.mem_map.mp flushed
    cases item <;> cases same
  · rw [performed, ← written]
    exact passed.events _

namespace PartlySelected

def entry : Archive where
  importPath := "main"
  name := "main"
  minified := true
  preamble := [0x2F, 0x2F, 0x0A]
  declarations := [
    { vars := ["a", "b"], code := [0x61, 0x20, 0x0A], init := [0x62, 0x0A] },
    { vars := ["c"], code := [0x63, 0x0A] },
    { vars := ["a"], methodList := [0x64, 0x0A], typeInit := [0x65, 0x20, 0x0A] }]

def selection : Selection := (Selection.empty.insert ⟨0, 2⟩).insert ⟨0, 0⟩

-- A variable that two selected declarations have is declared twice.
example : selectedVars selection 0 entry = ["a", "b", "a"] := by decide +kernel

def settings : Settings := { prelude := "var $p;\n" }

/-- The program, passage by passage. The entry asks for minification of all that is not from the archive. -/
def minified : List String := [
  "\"use strict\";(function()\x7b", "var $p;", "\n",
  "//\n", "$packages[\"main\"]=(function()\x7b", "var $pkg=\x7b\x7d,$init,a,b,a;", "a \n", "d\n", "e \n",
  "$init=function()\x7b$pkg.$init=function()\x7b\x7d;" ++
    "var $f,$c=false,$s=0,$r;if(this!==undefined&&this.$blk!==undefined)" ++
    "\x7b$f=this;$c=true;$s=$f.$s;$r=$f.$r;\x7ds:while(true)\x7bswitch($s)\x7bcase 0:",
  "b\n",
  "\x7dreturn;\x7dif($f===undefined)\x7b$f=\x7b$blk:$init\x7d;\x7d$f.$s=$s;$f.$r=$r;return $f;\x7d;",
  "$pkg.$init=$init;return $pkg;\x7d)();", "\n",
  "$synthesizeMethods();var $mainPkg=$packages[\"main\"];$packages[\"runtime\"].$init();" ++
    "$go($mainPkg.$init,[]);$flushConsole();\x7d).call(this);"]

/-- The same program if the settings turn minification off. -/
def plain : List String := [
  "\"use strict\";\n(function() \x7b\n\n", "var $p;\n", "\n",
  "//\n", "$packages[\"main\"] = (function() \x7b\n", "\tvar $pkg = \x7b\x7d, $init, a, b, a;\n",
  "a \n", "d\n", "e \n",
  "\t$init = function() \x7b\n\t\t$pkg.$init = function() \x7b\x7d;\n" ++
    "\t\tvar $f, $c = false, $s = 0, $r; if (this !== undefined && this.$blk !== undefined) " ++
    "\x7b $f = this; $c = true; $s = $f.$s; $r = $f.$r; \x7d s: while (true) \x7b switch ($s) \x7b case 0:\n",
  "b\n",
  "\t\t\x7d return; \x7d if ($f === undefined) \x7b $f = \x7b $blk: $init \x7d; \x7d " ++
    "$f.$s = $s; $f.$r = $r; return $f;\n\t\x7d;\n",
  "\t$pkg.$init = $init;\n\treturn $pkg;\n\x7d)();", "\n",
  "$synthesizeMethods();\nvar $mainPkg = $packages[\"main\"];\n$packages[\"runtime\"].$init();\n" ++
    "$go($mainPkg.$init, []);\n$flushConsole();\n\n\x7d).call(this);\n"]

def items (settings : Settings) : List Item :=
  match program settings selection [entry] with
  | .ok items => items
  | .error _ => []

theorem program_eq (settings : Settings) : program settings selection [entry] = .ok (items settings) := rfl

/-- The bytes of a text are those that its string is made of. -/
theorem encode_eq : Text.Utf8.encode = fun s => s.toByteArray.data.toList := by
  funext s
  rw [Text.Utf8.encode, ← String.utf8Encode_toList]
  simp [List.utf8Encode]

theorem text_minified : text (items settings) = minified.flatMap Text.Utf8.encode := by
  simp only [items, program, package, moduleOf, injected, encode_eq]
  decide +kernel

theorem text_plain : text (items { settings with minify := some false }) = plain.flatMap Text.Utf8.encode := by
  simp only [items, program, package, moduleOf, injected, encode_eq]
  decide +kernel

end PartlySelected

open PartlySelected in
/-- One declaration of three is left out, and the code of the archive keeps its spaces. -/
theorem layOut_passages_partlySelected :
    [entry] ≠ [] ∧
    (∃ passages : List Passage, passages.Pairwise (·.number < ·.number) ∧
      (∀ passage, passage ∈ passages ↔ passage.Occurs selection [entry]) ∧
      passages.flatMap (Passage.bytes settings selection [entry] entry) = minified.flatMap Text.Utf8.encode) ∧
    (∃ m, (Emitter.layOut settings selection [entry]).run {} = .ok () m ∧
      m.sink.written.toList = minified.flatMap Text.Utf8.encode) ∧
    ∃ m, (Emitter.layOut { settings with minify := some false } selection [entry]).run {} = .ok () m ∧
      m.sink.written.toList = plain.flatMap Text.Utf8.encode := by
  have nonempty : [entry] ≠ [] := by decide
  obtain ⟨m, ran, output⟩ := Emitter.layOut_run (program_eq settings)
  obtain ⟨m', ran', output'⟩ := Emitter.layOut_run (program_eq { settings with minify := some false })
  rw [text_minified] at output
  rw [text_plain] at output'
  refine ⟨nonempty, ?_, ⟨m, ran, output⟩, m', ran', output'⟩
  -- The text of the passages is what this run has written.
  obtain ⟨passages, -, text, ascending, occur, -, same, -, -, -, runs⟩ :=
    layOut_passages settings selection nonempty
  obtain ⟨after, again, passed⟩ := runs [] {} .fresh
  obtain rfl : m = after := by
    rw [ran] at again
    cases again
    rfl
  rw [passed.sink, List.nil_append, same] at output
  exact ⟨passages, ascending, occur, output⟩

end Linkage.Layout
