import Linkage.Proofs.Output.MarkedText

/-!
# Emitters and sinks with a limit

What an emitter does for some events is a list of actions that does not depend on the sink. A sink with a limit takes
bytes up to its limit, and the run ends in the action that goes beyond it. At each moment the counters of the emitter
belong to a beginning of what the sink holds.
-/
namespace Linkage

/-- One thing that an emitter does at once. -/
inductive Action where
  | pass (bytes : Bytes)
  | report (handle : UInt32)
  -- From now on these are the bytes of the cut marker.
  | hold (bytes : Bytes)
  | setTable (table : Option PositionTable)

namespace Action

def bytes : Action → Bytes
  | .pass bytes => bytes
  | _ => []

/-- The bytes of the cut marker behind some actions. -/
def cutAfter (cut : Bytes) : List Action → Bytes
  | [] => cut
  | .hold bytes :: rest => cutAfter bytes rest
  | _ :: rest => cutAfter cut rest

end Action

def Piece.action : Piece → Action
  | .plain bytes => .pass bytes
  | .marker handle => .report handle
  | .cut bytes => .hold bytes

/-- What an emitter does for an event if it holds `cut` back. -/
def OutputEvent.actions (maps : Bool) (cut : Bytes) : OutputEvent → List Action
  | .write bytes =>
    if !maps then [.pass bytes]
    else if cut.isEmpty then (Piece.split [] bytes).map (·.action)
    else
      let missing := Marker.length - cut.length
      match cut ++ bytes.take missing with
      | [_, h₁, h₂, h₃, h₄] =>
        .hold [] :: .report (Marker.handle h₁ h₂ h₃ h₄) :: (Piece.split [] (bytes.drop missing)).map (·.action)
      | cut => [.hold cut]
  | .setTable table => [.setTable table]
  | .flush => [.hold [], .pass cut]

namespace Emitter

open MarkedText

def actions (maps : Bool) : Bytes → List OutputEvent → List Action
  | _, [] => []
  | cut, event :: rest =>
    event.actions maps cut ++ actions maps (Action.cutAfter cut (event.actions maps cut)) rest

def act : Action → Writing Unit
  | .pass bytes => pass bytes
  | .report handle => report handle
  | .hold bytes => modify fun m => { m with cut := bytes }
  | .setTable table => setTable table

/-- An emitter behind an action, but for its sink. -/
def moved (m : Emitter) : Action → Emitter
  | .pass bytes =>
    { m with
      line := m.line + bytes.count newline
      column := columnAfter m.column bytes
      passed := m.passed + bytes.length }
  | .report handle =>
    { m with mappings := m.mappings.push ⟨m.line + 1, m.column, m.table.bind (·.position? handle)⟩ }
  | .hold bytes => { m with cut := bytes }
  | .setTable table => { m with table }

@[simp] theorem put_nil (s : Sink) : s.put [] = (true, s) := by
  obtain ⟨written, _ | room⟩ := s <;> simp [Sink.put]

/-- An action succeeds if the sink takes its bytes, and the sink takes what fits in any case. -/
theorem run_act (a : Action) (m : Emitter) :
    (act a).run m =
      if (m.sink.put a.bytes).1 then .ok () { m.moved a with sink := (m.sink.put a.bytes).2 }
      else .error .sinkFull { m with sink := (m.sink.put a.bytes).2 } := by
  cases a with
  | pass bytes => by_cases taken : (m.sink.put bytes).1 = true <;> simp [act, pass, Action.bytes, moved, taken]
  | _ => simp [act, report, setTable, Action.bytes, moved]

/-! ### Events as actions -/

theorem run_cons (a : Action) (rest : List Action) (m : Emitter) :
    ((a :: rest).forM act).run m =
      match (act a).run m with
      | .ok _ next => (rest.forM act).run next
      | .error e next => .error e next := by
  change (act a >>= fun _ => rest.forM act).run m = _
  rw [EStateM.run_bind]
  cases (act a).run m <;> rfl

/-- Actions run one after the other, until one of them fails. -/
theorem run_append (front back : List Action) (m : Emitter) :
    ((front ++ back).forM act).run m =
      match (front.forM act).run m with
      | .ok _ next => (back.forM act).run next
      | .error e next => .error e next := by
  have parts : (front ++ back).forM act = (front.forM act >>= fun _ => back.forM act) := List.forM_append
  rw [parts, EStateM.run_bind]
  cases (front.forM act).run m <;> rfl

theorem writePieces_eq (bytes : Bytes) : writePieces bytes = ((Piece.split [] bytes).map (·.action)).forM act := by
  have same : emit = fun piece => act piece.action := by
    funext piece
    cases piece <;> rfl
  rw [writePieces, same]
  exact (List.forM_map ..).symm

/-- What a write does depends on the sink no more than its pieces do. -/
theorem run_write (bytes : Bytes) (m : Emitter) :
    (write bytes).run m = (((OutputEvent.write bytes).actions m.maps m.cut).forM act).run m := by
  by_cases maps : m.maps = true
  · by_cases closed : m.cut = []
    · simp [write, OutputEvent.actions, maps, closed, writePieces_eq]
    · simp only [write, OutputEvent.actions, EStateM.run_bind, EStateM.run_get, maps, List.isEmpty_iff, closed,
        Bool.not_true, Bool.false_eq_true, if_false]
      generalize m.cut ++ bytes.take (Marker.length - m.cut.length) = joined
      -- The marker that was cut is whole now, or it is still cut.
      split
      next h₁ h₂ h₃ h₄ => simp [writePieces_eq, act, report, maps]
      next => simp [act, maps]
  · simp [write, OutputEvent.actions, maps, act]

theorem run_perform (event : OutputEvent) (m : Emitter) :
    (perform event).run m = ((event.actions m.maps m.cut).forM act).run m := by
  cases event with
  | write bytes => exact run_write bytes m
  | setTable table => simp [perform, OutputEvent.actions, act]
  | flush => simp [perform, flush, OutputEvent.actions, act]

theorem moved_of_run {a : Action} {m m' : Emitter} (ran : (act a).run m = .ok () m') :
    (m.sink.put a.bytes).1 = true ∧ { m.moved a with sink := (m.sink.put a.bytes).2 } = m' := by
  rw [run_act] at ran
  split at ran
  next taken => exact ⟨taken, (EStateM.Result.ok.inj ran).2⟩
  next => cases ran

/-- Neither the actions nor what they leave of a cut marker depend on the sink. -/
theorem cut_of_run {actions : List Action} {m m' : Emitter} (ran : (actions.forM act).run m = .ok () m') :
    m'.maps = m.maps ∧ m'.cut = Action.cutAfter m.cut actions := by
  induction actions generalizing m with
  | nil =>
    obtain rfl := (EStateM.Result.ok.inj ran).2
    exact ⟨rfl, rfl⟩
  | cons a rest ih =>
    rw [run_cons] at ran
    split at ran
    next next first =>
      obtain ⟨-, rfl⟩ := moved_of_run first
      obtain ⟨maps, cut⟩ := ih ran
      rw [maps, cut]
      cases a <;> exact ⟨rfl, rfl⟩
    next => cases ran

/-- The actions of a list of events are those of the events in turn, each with what the earlier ones hold back. -/
theorem run_events (events : List OutputEvent) (m : Emitter) :
    (events.forM perform).run m = ((actions m.maps m.cut events).forM act).run m := by
  induction events generalizing m with
  | nil => rfl
  | cons event rest ih =>
    change (perform event >>= fun _ => rest.forM perform).run m = _
    rw [EStateM.run_bind, run_perform, actions, run_append]
    cases ran : ((event.actions m.maps m.cut).forM act).run m with
    | error e next => rfl
    | ok _ next =>
      obtain ⟨maps, cut⟩ := cut_of_run ran
      rw [← cut, ← maps]
      exact ih next

/-! ### A sink with a limit -/

/-- The emitter with a sink that takes `limit` bytes in total. -/
def within (m : Emitter) (limit : Nat) : Emitter :=
  { m with sink := { m.sink with room := some (limit - m.sink.written.size) } }

/-- A run leads from `m` to `full` as long as the sink has no limit. Up to its limit a sink gets the same. -/
structure CutShort (run : Writing Unit) (m full : Emitter) : Prop where
  ran : run.run m = .ok () full
  unlimited : full.sink.room = none
  output : m.sink.written.toList <+: full.sink.written.toList
  mappings : m.mappings.toList <+: full.mappings.toList
  fits : ∀ limit, full.sink.written.size ≤ limit → run.run (m.within limit) = .ok () (full.within limit)
  fails : ∀ limit, m.sink.written.size ≤ limit → limit < full.sink.written.size →
    ∃ m', run.run (m.within limit) = .error .sinkFull m' ∧
      m'.sink.written.toList = full.sink.written.toList.take limit ∧ m'.mappings.toList <+: full.mappings.toList

/-- A sink with a limit takes what still fits. -/
theorem put_within (m : Emitter) (limit : Nat) (bytes : Bytes) :
    (m.within limit).sink.put bytes =
      (decide (bytes.length ≤ limit - m.sink.written.size),
        ⟨m.sink.written ++ bytes.take (limit - m.sink.written.size),
          some (limit - m.sink.written.size - bytes.length)⟩) := rfl

/-- A single action is cut short by a limit in the way that `CutShort` says. -/
theorem cutShort_act (a : Action) {m : Emitter} (unlimited : m.sink.room = none) :
    CutShort (act a) m { m.moved a with sink := { m.sink with written := m.sink.written ++ a.bytes } } := by
  have size : (m.sink.written ++ a.bytes).size = m.sink.written.size + a.bytes.length := by
    rw [← Array.length_toList, Array.toList_appendList, List.length_append, Array.length_toList]
  have mappings : m.mappings.toList <+: (m.moved a).mappings.toList := by
    cases a with
    | report handle => simp [moved]
    | _ => exact List.prefix_refl _
  refine ⟨?_, unlimited, by simp, mappings, fun limit fits => ?_, fun limit inside beyond => ?_⟩
  · rw [run_act]
    simp [Sink.put, unlimited]
  · rw [size] at fits
    have taken : a.bytes.length ≤ limit - m.sink.written.size := by omega
    rw [run_act, put_within, if_pos (decide_eq_true taken), List.take_of_length_le taken, Nat.sub_sub, ← size]
    cases a <;> rfl
  · rw [size] at beyond
    have refused : ((m.within limit).sink.put a.bytes).1 = false := decide_eq_false (by omega)
    refine ⟨{ m.within limit with sink := ((m.within limit).sink.put a.bytes).2 }, ?_, ?_, mappings⟩
    · rw [run_act, refused]
      rfl
    · rw [put_within, Array.toList_appendList, Array.toList_appendList, List.take_append,
        List.take_of_length_le inside]
      rfl

/-- Being cut short is closed under sequencing: the limit is met in the first part or in the second. -/
theorem CutShort.andThen {first second : Writing Unit} {m next full : Emitter} (begun : CutShort first m next)
    (rest : CutShort second next full) : CutShort (first >>= fun _ => second) m full where
  ran := by rw [EStateM.run_bind, begun.ran]; exact rest.ran
  unlimited := rest.unlimited
  output := begun.output.trans rest.output
  mappings := begun.mappings.trans rest.mappings
  fits limit fits := by
    have longer : next.sink.written.size ≤ full.sink.written.size := rest.output.length_le
    rw [EStateM.run_bind, begun.fits limit (Nat.le_trans longer fits)]
    exact rest.fits limit fits
  fails limit inside beyond := by
    rcases Nat.lt_or_ge limit next.sink.written.size with early | late
    -- The first part of the run fails, and the second does not begin.
    · obtain ⟨m', failed, output, mappings⟩ := begun.fails limit inside early
      refine ⟨m', by rw [EStateM.run_bind, failed], ?_, mappings.trans rest.mappings⟩
      obtain ⟨more, longer⟩ := rest.output
      rw [output, ← longer, List.take_append_of_le_length (Nat.le_of_lt early)]
    · rw [EStateM.run_bind, begun.fits limit late]
      exact rest.fails limit late beyond

/-- Every list of actions can be cut short at any limit. -/
theorem exists_cutShort (actions : List Action) {m : Emitter} (unlimited : m.sink.room = none) :
    ∃ full, CutShort (actions.forM act) m full := by
  induction actions generalizing m with
  | nil =>
    exact ⟨m, rfl, unlimited, List.prefix_refl _, List.prefix_refl _, fun _ _ => rfl,
      fun _ inside beyond => absurd beyond (Nat.not_lt.mpr inside)⟩
  | cons a rest ih =>
    have first := cutShort_act a unlimited
    obtain ⟨full, later⟩ := ih first.unlimited
    exact ⟨full, first.andThen later⟩

/-! ### The counters at each moment -/

/-- The position and the number of bytes are those of some bytes that the sink begins with. -/
def Describes (m : Emitter) : Prop :=
  ∃ counted, counted <+: m.sink.written.toList ∧ m.position = ending counted ∧ m.passed = counted.length

/-- A state of a run of `actions` from `m`. -/
inductive Moment (m : Emitter) (actions : List Action) : Emitter → Prop
  | between {done : List Action} {m' : Emitter} (first : done <+: actions) (ran : (done.forM act).run m = .ok () m') :
    Moment m actions m'
  -- The sink takes bytes, and the emitter is yet to count them.
  | passing {done : List Action} {bytes part : Bytes} {m' : Emitter} (first : done ++ [.pass bytes] <+: actions)
    (ran : (done.forM act).run m = .ok () m') (taking : part <+: bytes) :
    Moment m actions { m' with sink := (m'.sink.put part).2 }

/-- All that the sink holds is counted. -/
def CountsAll (m : Emitter) : Prop :=
  m.position = ending m.sink.written.toList ∧ m.passed = m.sink.written.size

theorem put_grows (s : Sink) (bytes : Bytes) : s.written.toList <+: (s.put bytes).2.written.toList := by
  obtain ⟨written, _ | room⟩ := s <;> simp [Sink.put]

theorem put_taken {s : Sink} {bytes : Bytes} (taken : (s.put bytes).1 = true) :
    (s.put bytes).2.written.toList = s.written.toList ++ bytes := by
  obtain ⟨written, _ | room⟩ := s
  · simp [Sink.put]
  · have fits : bytes.length ≤ room := of_decide_eq_true taken
    simp [Sink.put, List.take_of_length_le fits]

namespace CountsAll

variable {m m' : Emitter}

theorem describes (counts : m.CountsAll) : m.Describes :=
  ⟨m.sink.written.toList, List.prefix_refl _, counts.1, counts.2⟩

/-- An action that succeeds leaves everything counted. -/
theorem act (counts : m.CountsAll) {a : Action} (ran : (Emitter.act a).run m = .ok () m') : m'.CountsAll := by
  obtain ⟨taken, rfl⟩ := moved_of_run ran
  have written := put_taken taken
  cases a with
  | pass bytes =>
    obtain ⟨line, column⟩ := Prod.mk.inj counts.1
    have moved : columnAfter m.column bytes =
        ((m.sink.written.toList ++ bytes).reverse.takeWhile (· ≠ newline)).length := by
      rw [column]
      exact ByteMachine.columnAfter_column { output := m.sink.written.toList } bytes
    rw [CountsAll, ← Array.length_toList, written]
    refine ⟨Prod.ext ?_ moved, ?_⟩
    · change m.line + bytes.count newline + 1 = 1 + (m.sink.written.toList ++ bytes).count newline
      rw [List.count_append, Nat.add_right_comm, ← Nat.add_assoc]
      exact congrArg (· + bytes.count newline) line
    · rw [List.length_append]
      exact congrArg (· + bytes.length) counts.2
  | _ => simpa [CountsAll, Action.bytes, Emitter.moved, position] using counts

/-- While actions succeed, the counters describe all that the sink holds. -/
theorem run (counts : m.CountsAll) {actions : List Action} (ran : (actions.forM Emitter.act).run m = .ok () m') :
    m'.CountsAll := by
  induction actions generalizing m with
  | nil =>
    obtain rfl := (EStateM.Result.ok.inj ran).2
    exact counts
  | cons a rest ih =>
    rw [run_cons] at ran
    split at ran
    next first => exact ih (counts.act first) ran
    next => cases ran

end CountsAll

namespace Moment

variable {m m' : Emitter} {actions : List Action}

/-- A moment inside of a write is described by the counters from before it. -/
theorem describes (counts : m.CountsAll) (moment : Moment m actions m') : m'.Describes := by
  cases moment with
  | between _ ran => exact (counts.run ran).describes
  | passing _ ran _ =>
    obtain ⟨counted, held, position, passed⟩ := (counts.run ran).describes
    exact ⟨counted, held.trans (put_grows ..), position, passed⟩

/-- The moments of a run after its first action are moments of the run. -/
theorem cons {a : Action} {rest : List Action} {next : Emitter} (ran : (act a).run m = .ok () next)
    (later : Moment next rest m') : Moment m (a :: rest) m' := by
  have both (done : List Action) : ((a :: done).forM act).run m = (done.forM act).run next := by rw [run_cons, ran]
  cases later with
  | between first rest => exact .between (List.cons_prefix_cons.mpr ⟨rfl, first⟩) ((both _).trans rest)
  | passing first rest taking => exact .passing (List.cons_prefix_cons.mpr ⟨rfl, first⟩) ((both _).trans rest) taking

/-- A run that fails does so while the sink takes bytes. -/
theorem of_error {e : WriteError} (ran : (actions.forM act).run m = .error e m') : Moment m actions m' := by
  induction actions generalizing m with
  | nil => cases ran
  | cons a rest ih =>
    rw [run_cons] at ran
    split at ran
    next first => exact (ih ran).cons first
    next first =>
      rw [run_act] at first
      split at first
      next => cases first
      next refused =>
        obtain ⟨-, rfl⟩ := EStateM.Result.error.inj first
        obtain ⟨-, rfl⟩ := EStateM.Result.error.inj ran
        cases a with
        | pass bytes =>
          have atOnce : [] ++ [Action.pass bytes] <+: .pass bytes :: rest := ⟨rest, rfl⟩
          exact .passing atOnce rfl (List.prefix_refl bytes)
        | _ => exact absurd (congrArg Prod.fst (put_nil m.sink)) refused

end Moment

end Emitter
end Linkage
