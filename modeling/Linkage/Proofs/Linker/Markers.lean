import Linkage.Linker
import Linkage.Proofs.Output.MarkedText

/-!
# Links with and without maps

A link without maps writes the text of the layout, markers and all. A link with maps runs the byte machine over the
same items: it writes what is left of that text without its markers and reports where they stood.
-/
namespace Linkage

namespace Layout

def Item.event : Item → OutputEvent
  | .table inForce => .setTable inForce
  | .bytes data => .write data

/-- All that the items write, with the markers in it. -/
def text (items : List Item) : Bytes := items.flatMap (·.event.bytes)

/-- What a link does with its emitter: it writes the items, then it flushes. -/
def events (items : List Item) : List OutputEvent := items.map (·.event) ++ [.flush]

theorem flatMap_bytes_events (items : List Item) : (events items).flatMap (·.bytes) = text items := by
  simp [events, text, List.flatMap_map, OutputEvent.bytes]

theorem exists_program (settings : Settings) (selection : Selection) {pkgs : List Archive} (nonempty : pkgs ≠ []) :
    ∃ items, program settings selection pkgs = .ok items := by
  simp [program, List.getLast?_eq_getLast_of_ne_nil nonempty]

end Layout

open Layout MarkedText

namespace Emitter

theorem writeItem_eq (item : Item) : writeItem item = perform item.event := by
  cases item <;> rfl

/-- Writing a program is performing an event for each of its items. -/
theorem writeItems_eq (items : List Item) : writeItems items = (items.map (·.event)).forM perform := by
  induction items with
  | nil => rfl
  | cons item rest ih =>
    change (writeItem item >>= fun _ => writeItems rest) = (perform item.event >>= fun _ => _)
    rw [writeItem_eq, ih]

theorem layOut_eq {settings : Settings} {selection : Selection} {pkgs : List Archive} {items : List Item}
    (laidOut : program settings selection pkgs = .ok items) :
    layOut settings selection pkgs = (items.map (·.event)).forM perform := by
  rw [layOut, laidOut]
  exact writeItems_eq items

theorem forM_events (items : List Item) :
    (Layout.events items).forM perform = (writeItems items >>= fun _ => flush) := by
  rw [writeItems_eq]
  exact List.forM_append.trans (congrArg _ (funext fun _ => bind_pure flush))

/-! ### Without maps -/

/-- An emitter without maps that has passed on `text`. -/
structure Passed (text : Bytes) (m : Emitter) : Prop where
  maps : m.maps = false
  sink : m.sink = { written := text.toArray }
  passed : m.passed = text.length
  cut : m.cut = []
  mappings : m.mappings = #[]

namespace Passed

variable {text : Bytes} {m : Emitter}

/-- Without maps nothing is taken out of what is written. -/
theorem pass (passed : m.Passed text) (bytes : Bytes) :
    ∃ m', (Emitter.pass bytes).run m = .ok () m' ∧ m'.Passed (text ++ bytes) := by
  refine ⟨{ m with
    sink := { written := (text ++ bytes).toArray }
    line := m.line + bytes.count newline
    column := columnAfter m.column bytes
    passed := m.passed + bytes.length }, ?_, passed.maps, rfl, ?_, passed.cut, passed.mappings⟩
  · simp [Emitter.pass, passed.sink, Sink.put]
  · rw [List.length_append, ← passed.passed]

/-- What an event brings is passed on, and a flush has nothing to add. -/
theorem perform (passed : m.Passed text) (event : OutputEvent) :
    ∃ m', (Emitter.perform event).run m = .ok () m' ∧ m'.Passed (text ++ event.bytes) := by
  cases event with
  | write bytes =>
    have direct : (Emitter.write bytes).run m = (Emitter.pass bytes).run m := by
      simp [Emitter.write, passed.maps]
    obtain ⟨m', done, after⟩ := passed.pass bytes
    exact ⟨m', direct.trans done, after⟩
  | setTable table =>
    rw [OutputEvent.bytes, List.append_nil]
    exact ⟨{ m with table }, rfl, ⟨passed.maps, passed.sink, passed.passed, passed.cut, passed.mappings⟩⟩
  | flush =>
    have nothing : { m with cut := [] } = m := by rw [← passed.cut]
    obtain ⟨m', done, after⟩ := passed.pass []
    refine ⟨m', ?_, after⟩
    rw [← done, ← passed.cut]
    simp [Emitter.perform, Emitter.flush, nothing]

theorem events (passed : m.Passed text) (events : List OutputEvent) :
    ∃ m', (events.forM Emitter.perform).run m = .ok () m' ∧ m'.Passed (text ++ events.flatMap (·.bytes)) := by
  induction events generalizing m text with
  | nil => exact ⟨m, rfl, by simpa using passed⟩
  | cons event rest ih =>
    obtain ⟨next, first, after⟩ := passed.perform event
    obtain ⟨m', done, all⟩ := ih after
    refine ⟨m', ?_, by simpa using all⟩
    change (Emitter.perform event >>= fun _ => rest.forM Emitter.perform).run m = _
    rw [EStateM.run_bind, first]
    exact done

/-- A new emitter without maps has passed nothing on. -/
theorem fresh : Passed [] {} := ⟨rfl, rfl, rfl, rfl, rfl⟩

end Passed

/-- An emitter without maps passes on what the items write. -/
theorem layOut_run {settings : Settings} {selection : Selection} {pkgs : List Archive} {items : List Item}
    (laidOut : program settings selection pkgs = .ok items) :
    ∃ m, (layOut settings selection pkgs).run {} = .ok () m ∧ m.sink.written.toList = text items := by
  obtain ⟨m, written, passed⟩ := Passed.fresh.events (items.map (·.event))
  refine ⟨m, ?_, ?_⟩
  · rw [layOut_eq laidOut]
    exact written
  · rw [passed.sink, List.nil_append, List.flatMap_map]
    rfl

end Emitter

namespace Linker

variable {settings : Settings} {pkgs : List Archive} {items : List Item}

/-- The tally of a link that writes `bytes` bytes. -/
def tallyOf (pkgs : List Archive) (bytes : Nat) : Tally :=
  ⟨pkgs.length, declarationCount pkgs, (Selection.live pkgs).size, bytes⟩

/-- What a link does before it counts. -/
def writing (settings : Settings) (pkgs : List Archive) : Emitter.Writing Unit := do
  Emitter.layOut settings (Selection.live pkgs) pkgs
  Emitter.flush

/-- Counting comes last, and does not change what was written. -/
theorem emit_eq (settings : Settings) (pkgs : List Archive) (m : Emitter) :
    emit settings pkgs m =
      match writing settings pkgs m with
      | .ok _ m' => .ok (tallyOf pkgs m'.passed) m'
      | .error e m' => .error e m' := by
  have counted : emit settings pkgs =
      (writing settings pkgs >>= fun _ => do return tallyOf pkgs (← get).passed) := by
    rw [writing, bind_assoc]
    rfl
  rw [counted]
  change (EStateM.bind (writing settings pkgs) _) m = _
  rw [EStateM.bind]
  cases writing settings pkgs m <;> rfl

theorem writing_eq (laidOut : program settings (Selection.live pkgs) pkgs = .ok items) :
    writing settings pkgs = (Layout.events items).forM Emitter.perform := by
  rw [writing, Emitter.layOut, laidOut, Emitter.forM_events]

/-- What a link leaves behind, told by the emitter that its events leave behind. -/
theorem link_of_run {maps : Bool} {m : Emitter} (laidOut : program settings (Selection.live pkgs) pkgs = .ok items)
    (written : ((Layout.events items).forM Emitter.perform).run { maps } = .ok () m) :
    link settings pkgs maps = ⟨.ok (tallyOf pkgs m.passed), m.sink.written.toList, m.mappings.toList⟩ := by
  have done : writing settings pkgs { maps } = .ok () m := by
    rw [writing_eq laidOut]
    exact written
  rw [link, emit_eq, done]

theorem link_without_maps (laidOut : program settings (Selection.live pkgs) pkgs = .ok items) :
    link settings pkgs false = ⟨.ok (tallyOf pkgs (text items).length), text items, []⟩ := by
  obtain ⟨m, written, after⟩ := Emitter.Passed.fresh.events (Layout.events items)
  rw [flatMap_bytes_events, List.nil_append] at after
  rw [link_of_run laidOut written, after.passed, after.sink, after.mappings]

/-- The byte machine that has performed the events of a link. -/
def machine (items : List Item) : ByteMachine := (Layout.events items).foldl ByteMachine.perform {}

/-- With maps, a link leaves behind what the byte machine has read. -/
theorem link_with_maps (laidOut : program settings (Selection.live pkgs) pkgs = .ok items) :
    link settings pkgs true =
      ⟨.ok (tallyOf pkgs (machine items).output.length), (machine items).output, (machine items).mappings⟩ :=
  link_of_run laidOut (ByteMachine.run_events (s := {}) (Nat.succ_pos 4) (Layout.events items))

/-- The machine has read the text of all items, in one go as far as markers are concerned. -/
theorem hasRead_items {text : Bytes} {s : ByteMachine} (hasRead : s.HasRead text) (items : List Item) :
    ((items.map (·.event)).foldl ByteMachine.perform s).HasRead (text ++ Layout.text items) := by
  induction items generalizing s text with
  | nil => simpa [Layout.text] using hasRead
  | cons item rest ih =>
    have next : (s.perform item.event).HasRead (text ++ item.event.bytes) := by
      cases item with
      | table inForce =>
        rw [Item.event, OutputEvent.bytes, List.append_nil]
        exact hasRead.setTable inForce
      | bytes data => exact hasRead.write data
    simpa [Layout.text] using ih next

theorem machine_eq_flush (items : List Item) :
    machine items = ((items.map (·.event)).foldl ByteMachine.perform {}).flush := by
  rw [machine, Layout.events, List.foldl_append]
  rfl

/-- What a program with maps writes is its text without markers, with a mapping for each of them. -/
theorem machine_reads (items : List Item) :
    (machine items).output = strip (text items) ∧
      (machine items).mappings.map (·.place) = (marks (text items)).map (placeAt (strip (text items)) ·.offset) := by
  rw [machine_eq_flush]
  exact (hasRead_items ByteMachine.hasRead_nil items).flush

/-- A link with maps writes what a link without maps does, but for the markers, and reports for each marker the place
where it stood in what is left. Both count the same packages and declarations, and the bytes that they write. -/
theorem link_with_maps_strips_markers (settings : Settings) {pkgs : List Archive} (nonempty : pkgs ≠ []) :
    ∃ text mappings,
      link settings pkgs false =
        ⟨.ok ⟨pkgs.length, declarationCount pkgs, (Selection.live pkgs).size, text.length⟩, text, []⟩ ∧
      link settings pkgs true =
        ⟨.ok ⟨pkgs.length, declarationCount pkgs, (Selection.live pkgs).size, (strip text).length⟩, strip text,
          mappings⟩ ∧
      mappings.map (·.place) = (marks text).map (placeAt (strip text) ·.offset) := by
  obtain ⟨items, laidOut⟩ := exists_program settings (Selection.live pkgs) nonempty
  obtain ⟨output, places⟩ := machine_reads items
  refine ⟨text items, (machine items).mappings, link_without_maps laidOut, ?_, places⟩
  rw [link_with_maps laidOut, output]
  rfl

end Linker

namespace CutMarker

def settings : Settings := { prelude := "" }

/-- The second marker has three of its bytes only, so it takes the next two bytes of the layout. -/
def entry : Archive where
  importPath := "main"
  name := "main"
  declarations := [{ code := [0x41, 8, 0, 0, 0, 5, 0x42, 0x0A, 0x43, 8, 0, 0] }]

end CutMarker

open CutMarker in
/-- The rest of the second marker comes from the layout, and what it takes is missing from the output. -/
theorem link_with_maps_strips_markers_cut :
    [entry] ≠ [] ∧ ∃ text mappings,
      Linker.link settings [entry] false = ⟨.ok ⟨1, 1, 1, text.length⟩, text, []⟩ ∧
      Linker.link settings [entry] true = ⟨.ok ⟨1, 1, 1, (strip text).length⟩, strip text, mappings⟩ ∧
      mappings.map (·.place) = (marks text).map (placeAt (strip text) ·.offset) := by
  have nonempty : [entry] ≠ [] := by decide
  have size : (Selection.live [entry]).size = 1 := by decide +kernel
  have agree := Linker.link_with_maps_strips_markers settings nonempty
  rw [size] at agree
  exact ⟨nonempty, agree⟩

end Linkage
