import Linkage.Output.Emitter
import Mathlib.Data.List.Basic

/-!
# The emitter as a machine that reads single bytes

A byte machine decides on each byte alone: a byte passes, opens a marker, or belongs to the open one. An emitter that
maps does the same, however what is written is cut into writes.
-/
namespace Linkage

/-- Line and column are counted afresh from the bytes that were passed on. -/
structure ByteMachine where
  output : Bytes := []
  -- The bytes of the open marker.
  held : Bytes := []
  table : Option PositionTable := none
  mappings : List Mapping := []

inductive OutputEvent where
  | write (bytes : Bytes)
  | setTable (table : Option PositionTable)
  | flush

/-- The number that the four bytes of a handle spell, the most significant one first. -/
def Marker.bigEndian (h₁ h₂ h₃ h₄ : UInt8) : UInt32 :=
  UInt32.ofNat (((h₁.toNat * 256 + h₂.toNat) * 256 + h₃.toNat) * 256 + h₄.toNat)

/-- An emitter reads handles as they are spelled. -/
theorem Marker.handle_eq_bigEndian (h₁ h₂ h₃ h₄ : UInt8) :
    Marker.handle h₁ h₂ h₃ h₄ = Marker.bigEndian h₁ h₂ h₃ h₄ := by
  refine congrArg UInt32.ofNat ?_
  change h₄.toNat + 256 * (h₃.toNat + 256 * (h₂.toNat + 256 * (h₁.toNat + 256 * 0))) = _
  omega

namespace ByteMachine

def line (s : ByteMachine) : Nat := 1 + s.output.count Emitter.newline

def column (s : ByteMachine) : Nat := (s.output.reverse.takeWhile (· ≠ Emitter.newline)).length

def emit (s : ByteMachine) (bytes : Bytes) : ByteMachine := { s with output := s.output ++ bytes }

def report (s : ByteMachine) (handle : UInt32) : ByteMachine :=
  { s with mappings := s.mappings ++ [⟨s.line, s.column, s.table.bind (·.position? handle)⟩] }

/-- Read one byte. A marker takes four bytes after its sentinel, whatever they are. -/
def read (s : ByteMachine) (b : UInt8) : ByteMachine :=
  match s.held with
  -- No marker is open.
  | [] => if b = 0x08 then { s with held := [b] } else s.emit [b]
  | [_, h₁, h₂, h₃] => { s with held := [] }.report (Marker.bigEndian h₁ h₂ h₃ b)
  | held => { s with held := held ++ [b] }

def flush (s : ByteMachine) : ByteMachine := { s.emit s.held with held := [] }

def perform (s : ByteMachine) : OutputEvent → ByteMachine
  | .write bytes => bytes.foldl read s
  | .setTable table => { s with table }
  | .flush => s.flush

def emitter (s : ByteMachine) : Emitter where
  sink := { written := s.output.toArray }
  maps := true
  table := s.table
  line := s.output.count Emitter.newline
  column := s.column
  passed := s.output.length
  cut := s.held
  mappings := s.mappings.toArray

end ByteMachine

def Emitter.perform : OutputEvent → Emitter.Writing Unit
  | .write bytes => Emitter.write bytes
  | .setTable table => Emitter.setTable table
  | .flush => Emitter.flush

namespace ByteMachine

variable {s : ByteMachine} {bytes : Bytes}

@[simp] theorem emit_held (s : ByteMachine) (bytes : Bytes) : (s.emit bytes).held = s.held := rfl

@[simp] theorem report_held (s : ByteMachine) (handle : UInt32) : (s.report handle).held = s.held := rfl

@[simp] theorem emit_nil (s : ByteMachine) : s.emit [] = s := by simp [emit]

@[simp] theorem emit_emit (s : ByteMachine) (front back : Bytes) :
    (s.emit front).emit back = s.emit (front ++ back) := by
  simp [emit]

/-! ### Passing bytes on -/

/-- The bytes after the last newline are found in the end that is appended, if there is one in it. -/
theorem length_takeWhile_append (b : UInt8) (xs ys : Bytes) :
    ((xs ++ ys).takeWhile (· ≠ b)).length =
      match xs.idxOf? b with
      | some i => i
      | none => (ys.takeWhile (· ≠ b)).length + xs.length := by
  induction xs with
  | nil => simp
  | cons x xs ih =>
    rw [List.cons_append, List.idxOf?_cons]
    by_cases same : x = b
    · simp [same]
    · simp only [same, beq_iff_eq, ite_false, List.takeWhile_cons, ne_eq, not_false_eq_true, decide_true, ite_true,
        List.length_cons]
      simp only [ne_eq] at ih
      rw [ih]
      cases xs.idxOf? b <;> simp [Nat.add_assoc]

/-- The column that an emitter counts is the number of bytes behind the last newline of the output. -/
theorem columnAfter_column (s : ByteMachine) (bytes : Bytes) :
    Emitter.columnAfter s.column bytes = (s.emit bytes).column := by
  simp only [column, emit, List.reverse_append, length_takeWhile_append, List.length_reverse]
  cases found : bytes.reverse.idxOf? Emitter.newline <;> simp only [Emitter.columnAfter, found]

/-- Passing bytes on keeps the emitter that of the machine. -/
theorem run_pass (s : ByteMachine) (bytes : Bytes) :
    (Emitter.pass bytes).run s.emitter = .ok () (s.emit bytes).emitter := by
  simp [Emitter.pass, emitter, Sink.put, columnAfter_column, emit]

theorem run_report (s : ByteMachine) (handle : UInt32) :
    (Emitter.report handle).run s.emitter = .ok () (s.report handle).emitter := by
  simp [Emitter.report, emitter, report, line, column, Nat.add_comm]

/-! ### Reading a marker -/

theorem read_of_closed (closed : s.held = []) (b : UInt8) :
    s.read b = if b = Marker.sentinel then { s with held := [b] } else s.emit [b] := by
  unfold read
  rw [closed]
  rfl

theorem read_of_full {b₀ h₁ h₂ h₃ : UInt8} (full : s.held = [b₀, h₁, h₂, h₃]) (b : UInt8) :
    s.read b = { s with held := [] }.report (Marker.handle h₁ h₂ h₃ b) := by
  unfold read
  rw [full, Marker.handle_eq_bigEndian]

/-- Bytes that do not complete an open marker are held. -/
theorem foldl_read_of_short (opened : s.held ≠ []) (short : s.held.length + bytes.length < Marker.length) :
    bytes.foldl read s = { s with held := s.held ++ bytes } := by
  induction bytes generalizing s with
  | nil => simp
  | cons b rest ih =>
    -- An open marker that has room for more than this byte holds it.
    have kept : s.read b = { s with held := s.held ++ [b] } := by
      unfold read
      split
      next none => exact absurd none opened
      next full =>
        simp only [full, Marker.length, List.length_cons, List.length_nil] at short
        omega
      next => rfl
    rw [List.foldl_cons, kept, ih (by simp)]
    · simp
    · simp only [List.length_append, List.length_cons, List.length_nil] at short ⊢
      omega

/-- The byte that completes a marker reports it, wherever the marker was cut. -/
theorem foldl_read_of_full {b h₁ h₂ h₃ h₄ : UInt8} (opened : s.held ≠ [])
    (full : s.held ++ bytes = [b, h₁, h₂, h₃, h₄]) (some_ : bytes ≠ []) :
    bytes.foldl read s = { s with held := [] }.report (Marker.handle h₁ h₂ h₃ h₄) := by
  -- All bytes but the last one are held, and the last one completes the marker.
  obtain ⟨front, last, rfl⟩ := List.eq_nil_or_concat bytes |>.resolve_left some_
  rw [List.concat_eq_append, ← List.append_assoc] at full
  obtain ⟨held, rfl⟩ : s.held ++ front = [b, h₁, h₂, h₃] ∧ last = h₄ := by
    have split := List.append_inj' (full.trans (rfl : _ = [b, h₁, h₂, h₃] ++ [h₄])) rfl
    exact ⟨split.1, List.singleton_inj.mp split.2⟩
  have size : s.held.length + front.length = 4 := by rw [← List.length_append, held]; rfl
  rw [List.concat_eq_append, List.foldl_append, foldl_read_of_short opened (by rw [size]; decide), List.foldl_cons,
    List.foldl_nil, read_of_full held]

/-! ### Writing -/

theorem run_emit_plain (s : ByteMachine) (bytes : Bytes) :
    (Emitter.emit (.plain bytes)).run s.emitter = .ok () (s.emit bytes).emitter := run_pass s bytes

theorem run_emit_marker (s : ByteMachine) (handle : UInt32) :
    (Emitter.emit (.marker handle)).run s.emitter = .ok () (s.report handle).emitter := run_report s handle

theorem run_emit_cut (s : ByteMachine) (bytes : Bytes) :
    (Emitter.emit (.cut bytes)).run s.emitter = .ok () { s with held := bytes }.emitter := rfl

theorem run_pieces_cons {s t : ByteMachine} {piece : Piece}
    (first : (Emitter.emit piece).run s.emitter = .ok () t.emitter) (rest : List Piece) :
    ((piece :: rest).forM Emitter.emit).run s.emitter = (rest.forM Emitter.emit).run t.emitter := by
  change (Emitter.emit piece >>= fun _ => rest.forM Emitter.emit).run s.emitter = _
  rw [EStateM.run_bind, first]

theorem split_plain {b : UInt8} (plain : b ≠ Marker.sentinel) (before rest : Bytes) :
    Piece.split before (b :: rest) = Piece.split (b :: before) rest := by
  rw [Piece.split.eq_def]
  simp only [plain, ite_false]

theorem split_marker (before : Bytes) (h₁ h₂ h₃ h₄ : UInt8) (rest : Bytes) :
    Piece.split before (Marker.sentinel :: h₁ :: h₂ :: h₃ :: h₄ :: rest) =
      .plain before.reverse :: .marker (Marker.handle h₁ h₂ h₃ h₄) :: Piece.split [] rest := by
  rw [Piece.split.eq_def]
  simp only [ite_true]

/-- A sentinel with less than four bytes behind it is cut. -/
theorem split_cut (before : Bytes) {rest : Bytes} (short : rest.length < 4) :
    Piece.split before (Marker.sentinel :: rest) = [.plain before.reverse, .cut (Marker.sentinel :: rest)] := by
  rw [Piece.split.eq_def]
  match rest with
  | [] | [_] | [_, _] | [_, _, _] => simp only [ite_true]
  | _ :: _ :: _ :: _ :: _ => simp only [List.length_cons] at short; omega

/-- The pieces of a write are what the machine reads, after the bytes that are put before the first piece. -/
theorem run_split (before bytes : Bytes) (closed : s.held = []) :
    ((Piece.split before bytes).forM Emitter.emit).run s.emitter =
      .ok () (bytes.foldl read (s.emit before.reverse)).emitter := by
  -- The cases are those of `split`: the end of the data, a whole marker, a marker that is cut, and any other byte.
  induction before, bytes using Piece.split.induct generalizing s with
  | case1 before =>
    rw [Piece.split, run_pieces_cons (run_emit_plain s before.reverse)]
    rfl
  | case2 before h₁ h₂ h₃ h₄ rest ih =>
    have here : (s.emit before.reverse).held = [] := closed
    have marker : [Marker.sentinel, h₁, h₂, h₃, h₄].foldl read (s.emit before.reverse) =
        (s.emit before.reverse).report (Marker.handle h₁ h₂ h₃ h₄) := by
      rw [List.foldl_cons, read_of_closed here, if_pos rfl,
        foldl_read_of_full (List.cons_ne_nil _ _) rfl (List.cons_ne_nil _ _), ← here]
    have closedAfter : ((s.emit before.reverse).report (Marker.handle h₁ h₂ h₃ h₄)).held = [] := closed
    rw [split_marker, run_pieces_cons (run_emit_plain s before.reverse), run_pieces_cons (run_emit_marker _ _),
      ih closedAfter, List.reverse_nil, emit_nil, ← marker, ← List.foldl_append]
    rfl
  | case3 before rest short =>
    have here : (s.emit before.reverse).held = [] := closed
    have few : rest.length < 4 := by
      match rest, short with
      | [], _ | [_], _ | [_, _], _ | [_, _, _], _ => simp
      | h₁ :: h₂ :: h₃ :: h₄ :: more, long => exact (long h₁ h₂ h₃ h₄ more rfl).elim
    rw [split_cut before few, run_pieces_cons (run_emit_plain s before.reverse), run_pieces_cons (run_emit_cut _ _),
      List.foldl_cons, read_of_closed here, if_pos rfl, foldl_read_of_short (List.cons_ne_nil _ _)]
    · rfl
    · simp only [List.length_singleton, Marker.length]
      omega
  | case4 before b rest plain ih =>
    have here : (s.emit before.reverse).held = [] := closed
    rw [split_plain plain, ih closed, List.foldl_cons, read_of_closed here, if_neg plain, emit_emit,
      List.reverse_cons]

theorem run_writePieces (bytes : Bytes) (closed : s.held = []) :
    (Emitter.writePieces bytes).run s.emitter = .ok () (bytes.foldl read s).emitter := by
  rw [Emitter.writePieces, run_split [] bytes closed, List.reverse_nil, emit_nil]

/-- However a write begins and ends, the emitter does for it what the machine does byte by byte. -/
theorem run_write (short : s.held.length < Marker.length) (bytes : Bytes) :
    (Emitter.write bytes).run s.emitter = .ok () (bytes.foldl read s).emitter := by
  have maps : s.emitter.maps = true := rfl
  have cut : s.emitter.cut = s.held := rfl
  rw [Emitter.write, EStateM.run_bind, EStateM.run_get]
  dsimp only
  rw [maps, cut]
  -- Without an open marker all bytes go into pieces. Otherwise the first ones go to that marker, and pieces follow
  -- only once it is complete.
  by_cases closed : s.held = []
  · simp only [closed, Bool.not_true, Bool.false_eq_true, ite_false, List.isEmpty_nil, ite_true]
    exact run_writePieces bytes closed
  · have opened : s.held.isEmpty = false := by simp [closed]
    simp only [opened, Bool.not_true, Bool.false_eq_true, ite_false]
    generalize missing_eq : Marker.length - s.held.length = missing
    split
    next full =>
      have taken : bytes.take missing ≠ [] := by
        intro none
        rw [none, List.append_nil] at full
        rw [full] at short
        exact absurd short (by simp [Marker.length])
      conv_rhs => rw [← List.take_append_drop missing bytes, List.foldl_append, foldl_read_of_full closed full taken]
      change (Emitter.report _ >>= fun _ => Emitter.writePieces _).run { s with held := [] }.emitter = _
      rw [EStateM.run_bind, run_report]
      exact run_writePieces (bytes.drop missing) rfl
    next partly notFull =>
      -- If there were enough bytes, the marker would have five.
      have few : bytes.length < missing := by
        by_contra enough
        have five : (s.held ++ bytes.take missing).length = 5 := by
          rw [List.length_append, List.length_take]
          unfold Marker.length at *
          omega
        match same : s.held ++ bytes.take missing, five with
        | [b, h₁, h₂, h₃, h₄], _ => exact notFull b h₁ h₂ h₃ h₄ same
      rw [List.take_of_length_le (Nat.le_of_lt few), foldl_read_of_short closed (by omega)]
      rfl

theorem run_flush (s : ByteMachine) : Emitter.flush.run s.emitter = .ok () s.flush.emitter :=
  run_pass { s with held := [] } s.held

/-- The machine never holds a whole marker. -/
theorem held_read (short : s.held.length < Marker.length) (b : UInt8) :
    (s.read b).held.length < Marker.length := by
  unfold read
  split
  next none => split <;> simp [none, Marker.length]
  next => simp [Marker.length]
  next notNone notFull =>
    have other : s.held.length ≠ 4 := by
      intro four
      obtain ⟨b, h₁, h₂, h₃, full⟩ := List.length_eq_four.mp four
      exact notFull b h₁ h₂ h₃ full
    simp only [List.length_append, List.length_singleton]
    unfold Marker.length at *
    omega

theorem held_perform (short : s.held.length < Marker.length) (event : OutputEvent) :
    (s.perform event).held.length < Marker.length := by
  cases event with
  | setTable table => exact short
  | flush => exact Nat.succ_pos 4
  | write bytes =>
    change (bytes.foldl read s).held.length < Marker.length
    induction bytes generalizing s with
    | nil => exact short
    | cons b rest ih => exact ih (held_read short b)

/-- An emitter of a machine performs any event as the machine does. -/
theorem run_perform (short : s.held.length < Marker.length) (event : OutputEvent) :
    (Emitter.perform event).run s.emitter = .ok () (s.perform event).emitter := by
  cases event with
  | write bytes => exact run_write short bytes
  | setTable table => rfl
  | flush => exact run_flush s

/-- By induction on the events. -/
theorem run_events (short : s.held.length < Marker.length) (events : List OutputEvent) :
    (events.forM Emitter.perform).run s.emitter = .ok () (events.foldl perform s).emitter := by
  induction events generalizing s with
  | nil => rfl
  | cons event rest ih =>
    change (Emitter.perform event >>= fun _ => rest.forM Emitter.perform).run s.emitter = _
    rw [EStateM.run_bind, run_perform short event]
    exact ih (held_perform short event)

/-! ### The order of mappings -/

def NotBehind (first second : Mapping) : Prop :=
  first.line < second.line ∨ first.line = second.line ∧ first.column ≤ second.column

/-- Mappings are reported in the order of the output, and the output has passed all of them. -/
structure Ascending (s : ByteMachine) : Prop where
  pairwise : s.mappings.Pairwise NotBehind
  passed : ∀ m ∈ s.mappings, m.line < s.line ∨ m.line = s.line ∧ m.column ≤ s.column

/-- Passing bytes on never moves the position back. -/
theorem position_le_emit (s : ByteMachine) (bytes : Bytes) :
    s.line < (s.emit bytes).line ∨ s.line = (s.emit bytes).line ∧ s.column ≤ (s.emit bytes).column := by
  have lines : (s.emit bytes).line = s.line + bytes.count Emitter.newline := by
    simp [line, emit, Nat.add_assoc]
  -- A newline leads to a later line, and without one the column only grows.
  by_cases member : Emitter.newline ∈ bytes
  · have positive := List.count_pos_iff.mpr member
    omega
  · have absent : bytes.reverse.idxOf? Emitter.newline = none := by simpa using member
    rw [lines, List.count_eq_zero_of_not_mem member, ← columnAfter_column, Emitter.columnAfter, absent]
    exact .inr ⟨rfl, Nat.le_add_right ..⟩

namespace Ascending

theorem emit (ascending : s.Ascending) (bytes : Bytes) : (s.emit bytes).Ascending where
  pairwise := ascending.pairwise
  passed m member := by
    have moved := position_le_emit s bytes
    have before := ascending.passed m member
    omega

/-- A mapping is reported for the place up to which the output has come. -/
theorem report (ascending : s.Ascending) (handle : UInt32) : (s.report handle).Ascending where
  pairwise := by
    refine List.pairwise_append.mpr ⟨ascending.pairwise, List.pairwise_singleton .., fun m member last here => ?_⟩
    rw [List.mem_singleton.mp here]
    exact ascending.passed m member
  passed m member := by
    rcases List.mem_append.mp member with old | new
    · exact ascending.passed m old
    · rw [List.mem_singleton.mp new]
      exact .inr ⟨rfl, Nat.le_refl _⟩

theorem hold (ascending : s.Ascending) (held : Bytes) : { s with held }.Ascending :=
  ⟨ascending.pairwise, ascending.passed⟩

/-- A byte that is read keeps the mappings in order, whatever it belongs to. -/
theorem read (ascending : s.Ascending) (b : UInt8) : (s.read b).Ascending := by
  unfold ByteMachine.read
  split
  next =>
    split
    next => exact ascending.hold [b]
    next => exact ascending.emit [b]
  next => exact (ascending.hold []).report _
  next => exact ascending.hold _

theorem perform (ascending : s.Ascending) (event : OutputEvent) : (s.perform event).Ascending := by
  cases event with
  | setTable table => exact ⟨ascending.pairwise, ascending.passed⟩
  | flush => exact (ascending.emit s.held).hold []
  | write bytes =>
    change (bytes.foldl ByteMachine.read s).Ascending
    induction bytes generalizing s with
    | nil => exact ascending
    | cons b rest ih => exact ih (ascending.read b)

theorem events (ascending : s.Ascending) (events : List OutputEvent) :
    (events.foldl ByteMachine.perform s).Ascending := by
  induction events generalizing s with
  | nil => exact ascending
  | cons event rest ih => exact ih (ascending.perform event)

end Ascending

/-! ### Cutting writes -/

/-- The same with a write of its own for each byte. -/
def bytewise : OutputEvent → List OutputEvent
  | .write bytes => bytes.map fun b => .write [b]
  | event => [event]

/-- Cutting all writes into single bytes changes nothing for the machine. -/
theorem foldl_bytewise (s : ByteMachine) (events : List OutputEvent) :
    (events.flatMap bytewise).foldl perform s = events.foldl perform s := by
  -- The machine reads a write byte by byte in any case.
  have single : ∀ (s : ByteMachine) (event : OutputEvent), (bytewise event).foldl perform s = s.perform event := by
    intro s event
    cases event with
    | write bytes => simp only [bytewise, List.foldl_map, perform, List.foldl_cons, List.foldl_nil]
    | setTable | flush => rfl
  induction events generalizing s with
  | nil => rfl
  | cons event rest ih => rw [List.flatMap_cons, List.foldl_append, single, ih, List.foldl_cons]

end ByteMachine

/-- An emitter that maps and whose sink has no limit agrees with the byte machine after every sequence of writes,
flushes and changes of the table. Where writes are cut makes no difference, and mappings come in the order of the
output. -/
theorem emitter_refines_byteMachine (events : List OutputEvent) :
    ∃ m, (events.forM Emitter.perform).run { maps := true } = .ok () m ∧
      m.sink.written.toList = (events.foldl ByteMachine.perform {}).output ∧
      m.mappings.toList = (events.foldl ByteMachine.perform {}).mappings ∧
      m.position = ((events.foldl ByteMachine.perform {}).line, (events.foldl ByteMachine.perform {}).column) ∧
      m.passed = (events.foldl ByteMachine.perform {}).output.length ∧
      m.passed = m.sink.written.size ∧
      m.mappings.toList.Pairwise ByteMachine.NotBehind ∧
      ∀ events' : List OutputEvent, events'.flatMap ByteMachine.bytewise = events.flatMap ByteMachine.bytewise →
        (events'.forM Emitter.perform).run { maps := true } = .ok () m := by
  -- A new emitter is that of a new machine, so both runs end in the emitter of one machine.
  have agrees : ∀ events : List OutputEvent, (events.forM Emitter.perform).run { maps := true } =
      .ok () (events.foldl ByteMachine.perform {}).emitter :=
    fun events => ByteMachine.run_events (s := {}) (Nat.succ_pos 4) events
  have ascending : (events.foldl ByteMachine.perform {}).Ascending :=
    ByteMachine.Ascending.events ⟨.nil, fun _ member => absurd member List.not_mem_nil⟩ events
  refine ⟨_, agrees events, rfl, rfl, ?_, rfl, ?_, ascending.pairwise, fun events' same => ?_⟩
  · simp [Emitter.position, ByteMachine.emitter, ByteMachine.line, Nat.add_comm]
  · simp [ByteMachine.emitter]
  · rw [agrees events', ← ByteMachine.foldl_bytewise, same, ByteMachine.foldl_bytewise]

namespace Cut

def table : PositionTable := ⟨#[⟨"f.src", 1, 5, #[0, 3]⟩]⟩

def whole : List OutputEvent := [.setTable (some table), .write [0x41, 0x0A, 0x42, 8, 0, 0, 0, 5, 0x43, 8, 0], .flush]

def cut : List OutputEvent :=
  [.setTable (some table), .write [0x41, 0x0A, 0x42, 8, 0], .write [], .write [0, 0, 5, 0x43, 8, 0], .flush]

end Cut

open Cut in
/-- A marker that is cut in two stands behind a newline, and one that has no end is passed on. -/
theorem emitter_refines_byteMachine_cut :
    whole.flatMap ByteMachine.bytewise = cut.flatMap ByteMachine.bytewise ∧
    ∃ m, (cut.forM Emitter.perform).run { maps := true } = .ok () m ∧
      (whole.forM Emitter.perform).run { maps := true } = .ok () m ∧
      m.sink.written.toList = [0x41, 0x0A, 0x42, 0x43, 8, 0] ∧ m.mappings.toList = [⟨2, 1, some ⟨"f.src", 2, 2⟩⟩] ∧
      m.position = (2, 4) ∧ m.passed = 6 := by
  have same : whole.flatMap ByteMachine.bytewise = cut.flatMap ByteMachine.bytewise := rfl
  obtain ⟨m, done, output, mappings, place, passed, -, -, merged⟩ := emitter_refines_byteMachine cut
  exact ⟨same, m, done, merged whole same, output, mappings.trans (by decide +kernel), place.trans (by decide +kernel),
    passed⟩

end Linkage
