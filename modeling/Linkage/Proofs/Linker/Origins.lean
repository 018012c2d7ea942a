import Linkage.Proofs.Linker.Markers
import Linkage.Proofs.Program.PlainText
import Linkage.Proofs.Selection.Sites

/-!
# Where mappings come from

A program is laid out from caller code and from text of the layout, which has no markers. So the mappings of a link
are those of the markers in caller code, in the order in which that is laid out, and each handle means what the table
of its own package says.
-/
namespace Linkage

open Layout MarkedText

/-- Every marker in the code of a package is whole. -/
structure Archive.WellMarked (pkg : Archive) : Prop where
  preamble : Complete pkg.preamble
  fragments : ∀ d ∈ pkg.declarations, ∀ fragment ∈ [d.code, d.methodList, d.typeInit, d.init], Complete fragment

/-- The caller code of a package with the given selected declarations, in the order in which it is laid out. -/
def Archive.callerCode (pkg : Archive) (decls : List Declaration) : List Bytes :=
  [pkg.preamble] ++ decls.map (·.code) ++ decls.map (·.methodList) ++ decls.map (·.typeInit) ++ decls.map (·.init)

/-- The code of all packages in link order, each fragment with the table of its package. -/
def callerCode (pkgs : List Archive) : List (Option PositionTable × Bytes) :=
  pkgs.zipIdx.flatMap fun (pkg, p) =>
    (pkg.callerCode ((Selection.live pkgs).ofPackage p pkg)).map (pkg.positions, ·)

/-- What the handles of a fragment stand for. -/
def originsOf (fragment : Option PositionTable × Bytes) : List (Option Position) :=
  (handles fragment.2).map fun handle => fragment.1.bind (·.position? handle)

/-- There is an origin for each marker. -/
theorem length_flatMap_originsOf (fragments : List (Option PositionTable × Bytes)) :
    (fragments.flatMap originsOf).length = (fragments.flatMap (handles ·.2)).length := by
  simp [List.length_flatMap, originsOf]

/-- A handle has the number of those before it, in its own fragment and in earlier ones. -/
theorem originsOf_marker (earlier : List (Option PositionTable × Bytes)) (table : Option PositionTable) {before : Bytes}
    (complete : Complete before) (handle : UInt32) (after : Bytes) (later : List (Option PositionTable × Bytes)) :
    ((earlier ++ (table, before ++ (Marker.encode handle ++ after)) :: later).flatMap originsOf)[
        (earlier.flatMap (handles ·.2)).length + (handles before).length]? =
      some (table.bind (·.position? handle)) := by
  rw [List.flatMap_append, List.getElem?_append_right (by rw [length_flatMap_originsOf]; exact Nat.le_add_right ..),
    length_flatMap_originsOf, Nat.add_sub_cancel_left, List.flatMap_cons]
  simp [originsOf, complete.handles_marker]

namespace ByteMachine

/-- A whole marker is read as one report, and holds nothing back. -/
theorem foldl_read_marker {s : ByteMachine} (closed : s.held = []) (handle : UInt32) :
    (Marker.encode handle).foldl read s = s.report handle := by
  obtain ⟨h₁, h₂, h₃, h₄, bytes, rfl⟩ := Marker.exists_bytes_of_handle handle
  rw [bytes, List.foldl_cons, read_of_closed closed, if_pos rfl,
    foldl_read_of_full (List.cons_ne_nil _ _) rfl (List.cons_ne_nil _ _), ← closed]

/-- Code whose markers are whole is read without a rest, and its handles are looked up in the table in force. -/
theorem foldl_read_complete {bytes : Bytes} (complete : Complete bytes) {s : ByteMachine} (closed : s.held = []) :
    (bytes.foldl read s).held = [] ∧ (bytes.foldl read s).table = s.table ∧
      (bytes.foldl read s).mappings.map (·.origin) = s.mappings.map (·.origin) ++ originsOf (s.table, bytes) := by
  induction complete generalizing s with
  | nil => simp [closed, originsOf, handles, marks]
  | @byte b rest plain _ ih =>
    have next : (s.emit [b]).held = [] := closed
    have same : handles (b :: rest) = handles rest := by
      rw [handles, marks, marksFrom_byte plain, map_handle_marksFrom]
    rw [List.foldl_cons, read_of_closed closed, if_neg plain, originsOf, same]
    exact ih next
  | @marker rest handle _ ih =>
    have next : (s.report handle).held = [] := closed
    have one : handles (Marker.encode handle ++ rest) = handle :: handles rest := by
      rw [handles, marks, marksFrom_marker, List.map_cons, map_handle_marksFrom]
    obtain ⟨held, table, origins⟩ := ih next
    rw [List.foldl_append, foldl_read_marker closed, originsOf, one, List.map_cons]
    refine ⟨held, table, origins.trans ?_⟩
    simp [report, originsOf]

end ByteMachine

/-! ### Caller code among the items -/

namespace Layout

/-- Behind a place where `inForce` is the table, the items hold the given fragments, each while its table is in force,
and otherwise only data without markers. -/
inductive Holds : Option PositionTable → List (Option PositionTable × Bytes) → List Item → Prop
  | nil {inForce : Option PositionTable} : Holds inForce [] []
  | table {inForce next : Option PositionTable} {fragments : List (Option PositionTable × Bytes)} {items : List Item}
      (rest : Holds next fragments items) : Holds inForce fragments (.table next :: items)
  | fragment {inForce : Option PositionTable} {fragments : List (Option PositionTable × Bytes)} {items : List Item}
      {data : Bytes} (complete : Complete data) (rest : Holds inForce fragments items) :
      Holds inForce ((inForce, data) :: fragments) (.bytes data :: items)
  | plain {inForce : Option PositionTable} {fragments : List (Option PositionTable × Bytes)} {items : List Item}
      {data : Bytes} (absent : Marker.sentinel ∉ data) (rest : Holds inForce fragments items) :
      Holds inForce fragments (.bytes data :: items)

theorem text_cons (item : Item) (items : List Item) : text (item :: items) = item.event.bytes ++ text items := rfl

namespace Holds

variable {inForce : Option PositionTable} {fragments : List (Option PositionTable × Bytes)} {items : List Item}

/-- Fragments of one package are looked up in one table. -/
theorem codes {codes : List Bytes} (complete : ∀ code ∈ codes, Complete code) (rest : Holds inForce fragments items) :
    Holds inForce (codes.map (inForce, ·) ++ fragments) (codes.map .bytes ++ items) := by
  induction codes with
  | nil => exact rest
  | cons code others ih =>
    have first := complete code List.mem_cons_self
    exact .fragment first (ih fun other member => complete other (List.mem_cons_of_mem code member))

/-- Text of the layout has no markers, so it adds no fragment. -/
theorem injected {text : String} (plain : Plain text) (minify : Bool) (rest : Holds inForce fragments items) :
    Holds inForce fragments (Layout.injected minify text :: items) :=
  .plain (plain.injected minify rfl) rest

theorem newline (rest : Holds inForce fragments items) : Holds inForce fragments (Layout.newline :: items) :=
  .plain (by decide) rest

/-- The markers of the text are those of the fragments, in order. -/
theorem text (holds : Holds inForce fragments items) :
    Complete (Layout.text items) ∧ handles (Layout.text items) = fragments.flatMap (handles ·.2) := by
  induction holds with
  | nil => exact ⟨.nil, rfl⟩
  | table _ ih => exact ih
  | @fragment inForce fragments items data complete _ ih =>
    rw [text_cons, List.flatMap_cons, ← ih.2]
    exact ⟨complete.append ih.1, complete.handles_append _⟩
  | @plain inForce fragments items data absent _ ih =>
    have complete := complete_of_not_mem absent
    refine ⟨complete.append ih.1, ?_⟩
    rw [text_cons, ← ih.2, ← List.nil_append (handles (Layout.text items)), ← handles_of_not_mem absent]
    exact complete.handles_append _

/-- A layout can be split at any of its fragments. -/
theorem split {earlier later : List (Option PositionTable × Bytes)} {fragment : Option PositionTable × Bytes}
    (holds : Holds inForce (earlier ++ fragment :: later) items) :
    ∃ front back, items = front ++ .bytes fragment.2 :: back ∧ Holds inForce earlier front ∧ Complete fragment.2 := by
  generalize all : earlier ++ fragment :: later = fragments at holds
  induction holds generalizing earlier with
  | nil => simp at all
  | table _ ih =>
    obtain ⟨front, back, rfl, before, complete⟩ := ih all
    exact ⟨_ :: front, back, rfl, .table before, complete⟩
  | plain absent _ ih =>
    obtain ⟨front, back, rfl, before, complete⟩ := ih all
    exact ⟨_ :: front, back, rfl, .plain absent before, complete⟩
  | @fragment inForce fragments items data complete rest ih =>
    cases earlier with
    | nil =>
      obtain ⟨rfl, rfl⟩ := List.cons.inj all
      exact ⟨[], items, rfl, .nil, complete⟩
    | cons first others =>
      obtain ⟨rfl, remaining⟩ := List.cons.inj all
      obtain ⟨front, back, rfl, before, last⟩ := ih remaining
      exact ⟨_ :: front, back, rfl, .fragment complete before, last⟩

/-- The byte machine reports the handles of the fragments, each with what the table of its fragment says. -/
theorem origins {s : ByteMachine} (holds : Holds inForce fragments items) (table : s.table = inForce)
    (closed : s.held = []) :
    ((items.map (·.event)).foldl ByteMachine.perform s).held = [] ∧
      ((items.map (·.event)).foldl ByteMachine.perform s).mappings.map (·.origin) =
        s.mappings.map (·.origin) ++ fragments.flatMap originsOf := by
  induction holds generalizing s with
  | nil => simp [closed]
  | @table inForce next fragments items _ ih => exact ih (s := { s with table := next }) rfl closed
  | @fragment inForce fragments items data complete _ ih =>
    obtain ⟨held, same, reported⟩ := ByteMachine.foldl_read_complete complete closed
    have after := ih (same.trans table) held
    rw [reported, List.append_assoc, table] at after
    exact after
  | @plain inForce fragments items data absent _ ih =>
    obtain ⟨held, same, reported⟩ := ByteMachine.foldl_read_complete (complete_of_not_mem absent) closed
    have after := ih (same.trans table) held
    rw [reported, originsOf, handles_of_not_mem absent, List.map_nil, List.append_nil] at after
    exact after

end Holds

/-- The code of a module is looked up in the table of its own package. -/
theorem holds_module {pkg : Archive} {decls : List Declaration} (marked : pkg.WellMarked)
    (selected : ∀ d ∈ decls, d ∈ pkg.declarations) (path : Plain pkg.importPath)
    (vars : ∀ d ∈ decls, ∀ name ∈ d.vars, Plain name) (minify : Bool) {inForce : Option PositionTable}
    {fragments : List (Option PositionTable × Bytes)} {items : List Item}
    (rest : Holds pkg.positions fragments items) :
    Holds inForce ((pkg.callerCode decls).map (pkg.positions, ·) ++ fragments)
      (moduleOf minify pkg decls ++ items) := by
  have each (part : Declaration → Bytes) (named : ∀ d, part d ∈ [d.code, d.methodList, d.typeInit, d.init]) :
      ∀ code ∈ decls.map part, Complete code := by
    intro code member
    obtain ⟨d, inside, rfl⟩ := List.mem_map.mp member
    exact marked.fragments d (selected d inside) _ (named d)
  have ended := ((rest.newline.injected moduleClosing_plain minify).injected machineClosing_plain minify)
  have initialized := (ended.codes (each (·.init) (by simp))).injected machineOpening_plain minify
  have coded := ((initialized.codes (each (·.typeInit) (by simp))).codes (each (·.methodList) (by simp))).codes
    (each (·.code) (by simp))
  have opened := (coded.injected (varStatement_plain vars) minify).injected (moduleOpening_plain path) minify
  simpa [Archive.callerCode, moduleOf, Function.comp_def] using Holds.table (.fragment marked.preamble opened)

/-- Each module puts its own table into force, so it does not matter which one was before. -/
theorem holds_packages {settings : Settings} {pkgs : List Archive} (marked : ∀ pkg ∈ pkgs, pkg.WellMarked)
    (plain : PlainNames settings pkgs) (minify : Bool) (selection : Selection)
    {fragments : List (Option PositionTable × Bytes)} {items : List Item}
    (rest : ∀ inForce, Holds inForce fragments items) (numbered : List (Archive × Nat))
    (inside : ∀ entry ∈ numbered, entry.1 ∈ pkgs) (inForce : Option PositionTable) :
    Holds inForce
      (numbered.flatMap (fun (pkg, p) => (pkg.callerCode (selection.ofPackage p pkg)).map (pkg.positions, ·)) ++ fragments)
      (numbered.flatMap (fun (pkg, p) => package minify selection p pkg) ++ items) := by
  induction numbered generalizing inForce with
  | nil => exact rest inForce
  | cons entry others ih =>
    obtain ⟨pkg, p⟩ := entry
    have member : pkg ∈ pkgs := inside (pkg, p) List.mem_cons_self
    have following := ih (fun other later => inside other (List.mem_cons_of_mem _ later)) pkg.positions
    rw [List.flatMap_cons, List.flatMap_cons, List.append_assoc, List.append_assoc]
    exact holds_module (marked pkg member) (fun _ => Selection.mem_declarations) (plain.importPaths pkg member)
      (fun d selected => plain.vars pkg member d (Selection.mem_declarations selected)) minify following

/-- A program is the code of its archives between text of the layout. -/
theorem holds_program {settings : Settings} {pkgs : List Archive} {items : List Item}
    (marked : ∀ pkg ∈ pkgs, pkg.WellMarked) (plain : PlainNames settings pkgs)
    (laidOut : program settings (Selection.live pkgs) pkgs = .ok items) : Holds none (callerCode pkgs) items := by
  rw [program] at laidOut
  cases last : pkgs.getLast? with
  | none => simp [last] at laidOut
  | some entry =>
    simp only [last, Except.ok.injEq] at laidOut
    subst laidOut
    generalize settings.minifies entry.minified = minify
    have path := plain.importPaths entry (List.mem_of_getLast? last)
    have ended (inForce : Option PositionTable) :
        Holds inForce [] [injected minify (epilogue entry.importPath settings)] :=
      Holds.nil.injected (epilogue_plain path plain.runtimePackage plain.entrySymbol) minify
    have packages := holds_packages marked plain minify (Selection.live pkgs) ended pkgs.zipIdx
      (fun _ member => List.fst_mem_of_mem_zipIdx member) none
    rw [List.append_nil] at packages
    exact (packages.newline.injected plain.prelude minify).injected header_plain minify

end Layout

/-- The mappings of a link are those of the markers in caller code, in the order of its layout. Each has the position
that its handle has in the table of its own package, and the line and column that the byte behind its marker has in
the output. -/
theorem mappings_of_callerCode (settings : Settings) {pkgs : List Archive} (nonempty : pkgs ≠ [])
    (marked : ∀ pkg ∈ pkgs, pkg.WellMarked) (plain : PlainNames settings pkgs) :
    ∃ text output mappings tally,
      (Linker.link settings pkgs false).output = text ∧
      Linker.link settings pkgs true = ⟨.ok tally, output, mappings⟩ ∧
      mappings.map (·.origin) = (callerCode pkgs).flatMap originsOf ∧
      ∀ earlier table before handle after later,
        callerCode pkgs = earlier ++ (table, before ++ Marker.encode handle ++ after) :: later → Complete before →
        ∃ front back mapping,
          text = front ++ (before ++ Marker.encode handle ++ after) ++ back ∧
          Complete front ∧ handles front = earlier.flatMap (handles ·.2) ∧
          output = strip (front ++ before) ++ strip (after ++ back) ∧
          mappings[(handles (front ++ before)).length]? = some mapping ∧
          mapping.place = placeAt output (strip (front ++ before)).length ∧
          mapping.origin = table.bind (·.position? handle) := by
  obtain ⟨items, laidOut⟩ := exists_program settings (Selection.live pkgs) nonempty
  obtain ⟨output, places⟩ := Linker.machine_reads items
  have holds := holds_program marked plain laidOut
  have origins : (Linker.machine items).mappings.map (·.origin) = (callerCode pkgs).flatMap originsOf := by
    rw [Linker.machine_eq_flush]
    exact (holds.origins (s := {}) rfl rfl).2
  refine ⟨_, _, _, _, by rw [Linker.link_without_maps laidOut], Linker.link_with_maps laidOut, origins, ?_⟩
  intro earlier table before handle after later shape whole
  rw [List.append_assoc] at shape
  rw [shape] at holds origins
  obtain ⟨frontItems, backItems, rfl, earlierHolds, -⟩ := holds.split
  obtain ⟨frontWhole, frontHandles⟩ := earlierHolds.text
  have frontier := frontWhole.append whole
  -- The marker is the next one behind all earlier fragments and its own fragment's beginning.
  have laid : text (frontItems ++ .bytes (before ++ (Marker.encode handle ++ after)) :: backItems) =
      (text frontItems ++ before) ++ (Marker.encode handle ++ (after ++ text backItems)) := by
    simp [text, Item.event, OutputEvent.bytes]
  have number : (handles (text frontItems ++ before)).length =
      (earlier.flatMap (handles ·.2)).length + (handles before).length := by
    rw [frontWhole.handles_append, List.length_append, frontHandles]
  have place := congrArg (·[(handles (text frontItems ++ before)).length]?) places
  have origin := congrArg (·[(handles (text frontItems ++ before)).length]?) origins
  simp only [List.getElem?_map] at place origin
  rw [laid, frontier.marks_marker] at place
  rw [number, originsOf_marker earlier table whole, ← number] at origin
  obtain ⟨mapping, found, here⟩ := Option.map_eq_some_iff.mp place
  rw [found] at origin
  refine ⟨text frontItems, text backItems, mapping, ?_, frontWhole, frontHandles, ?_, found, ?_, Option.some.inj origin⟩
  · rw [laid]
    simp
  · rw [output, laid, frontier.strip_append, strip_marker]
  · rw [here, output, laid]

namespace OwnTables

def settings : Settings := { prelude := "", minify := some true }

/-- The handle of the first marker means another place in each table. -/
def code : Bytes := [0x41] ++ Marker.encode 6 ++ [0x0A, 0x42]

def runtime : Archive where
  importPath := "runtime"
  name := "runtime"
  declarations := [{ vars := ["boot"], init := code }, { code := Marker.encode 2 }]
  positions := some ⟨#[⟨"rt.src", 1, 9, #[0, 4]⟩]⟩

def lib : Archive where
  importPath := "lib"
  name := "lib"
  preamble := code

def entry : Archive where
  importPath := "main"
  name := "main"
  declarations := [{ objectFilter := some "unused", code }, { methodList := code }]
  positions := some ⟨#[⟨"main.src", 6, 2, #[0]⟩]⟩

theorem code_complete : Complete code :=
  .byte (by decide) (.marker 6 (.byte (by decide) (.byte (by decide) .nil)))

end OwnTables

open OwnTables in
/-- The runtime package and the entry package have tables of their own, and `lib` has none. -/
theorem mappings_of_callerCode_ownTables :
    [runtime, lib, entry] ≠ [] ∧ (∀ pkg ∈ [runtime, lib, entry], pkg.WellMarked) ∧
    PlainNames settings [runtime, lib, entry] ∧
    (Linker.link settings [runtime, lib, entry] true).mappings.map (·.origin) =
      [some ⟨"rt.src", 1, 2⟩, some ⟨"rt.src", 2, 2⟩, none, some ⟨"main.src", 1, 1⟩] := by
  have nonempty : [runtime, lib, entry] ≠ [] := by decide
  have marked : ∀ pkg ∈ [runtime, lib, entry], pkg.WellMarked := by
    have single : Complete (Marker.encode 2) := .marker 2 .nil
    intro pkg member
    simp only [List.mem_cons, List.not_mem_nil, or_false] at member
    rcases member with rfl | rfl | rfl
    · exact ⟨.nil, by simp [runtime, code_complete, single, Complete.nil]⟩
    · exact ⟨code_complete, by simp [lib]⟩
    · exact ⟨.nil, by simp [entry, code_complete, Complete.nil]⟩
  have plain : PlainNames settings [runtime, lib, entry] := by
    refine ⟨.ofList (by decide), .ofList (by decide), .ofList (by decide), ?_, ?_⟩
    · simp only [List.forall_mem_cons, List.not_mem_nil, false_implies, implies_true, and_true]
      and_intros <;> exact .ofList (by decide)
    · have boot : Plain "boot" := .ofList (by decide)
      simp [runtime, lib, entry, boot]
  obtain ⟨_, _, mappings, _, -, mapped, origins, -⟩ := mappings_of_callerCode settings nonempty marked plain
  refine ⟨nonempty, marked, plain, ?_⟩
  rw [mapped]
  exact origins.trans (by decide +kernel)

end Linkage
