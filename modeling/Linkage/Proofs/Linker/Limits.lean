import Linkage.Proofs.Linker.Markers
import Linkage.Proofs.Output.Limits

/-!
# Links into sinks with a limit

A sink that takes so many bytes and no more gets the beginning of the output that fits. The link fails if that is not
all of it, and then the mappings are those that it has reported until then.
-/
namespace Linkage

open Layout

namespace Linker

variable {settings : Settings} {pkgs : List Archive} {items : List Item}

/-- The actions of a link. -/
def actions (maps : Bool) (items : List Item) : List Action := Emitter.actions maps [] (Layout.events items)

/-- The actions of a link are the same for every sink. -/
theorem run_writing (laidOut : program settings (Selection.live pkgs) pkgs = .ok items) (maps : Bool) (sink : Sink) :
    (writing settings pkgs).run { sink, maps } = ((actions maps items).forM Emitter.act).run { sink, maps } := by
  rw [writing_eq laidOut]
  exact Emitter.run_events (Layout.events items) { sink, maps }

theorem link_of_ok {maps : Bool} {sink : Sink} {m : Emitter}
    (ran : (writing settings pkgs).run { sink, maps } = .ok () m) :
    link settings pkgs maps sink = ⟨.ok (tallyOf pkgs m.passed), m.sink.written.toList, m.mappings.toList⟩ := by
  have done : writing settings pkgs { sink, maps } = .ok () m := ran
  rw [link, emit_eq, done]

/-- A link that fails leaves behind what has been written until then. -/
theorem link_of_error {maps : Bool} {sink : Sink} {e : WriteError} {m : Emitter}
    (ran : (writing settings pkgs).run { sink, maps } = .error e m) :
    link settings pkgs maps sink = ⟨.error e, m.sink.written.toList, m.mappings.toList⟩ := by
  have failed : writing settings pkgs { sink, maps } = .error e m := ran
  rw [link, emit_eq, failed]

/-- A link into a sink with a limit fails exactly if its output is longer. The sink has the beginning of the output, and
the mappings are a beginning of all mappings. While the link runs, the counters of its emitter describe a beginning of
what the sink holds. -/
theorem link_within (settings : Settings) {pkgs : List Archive} (nonempty : pkgs ≠ []) (maps : Bool) :
    ∃ tally output mappings actions,
      link settings pkgs maps = ⟨.ok tally, output, mappings⟩ ∧
      (∀ limit,
        ((link settings pkgs maps { room := some limit }).tally = .error .sinkFull ↔ limit < output.length) ∧
        (output.length ≤ limit → link settings pkgs maps { room := some limit } = ⟨.ok tally, output, mappings⟩) ∧
        (link settings pkgs maps { room := some limit }).output = output.take limit ∧
        (link settings pkgs maps { room := some limit }).mappings <+: mappings) ∧
      ∀ room,
        (writing settings pkgs).run { sink := { room }, maps } =
          (actions.forM Emitter.act).run { sink := { room }, maps } ∧
        (∀ e m, (writing settings pkgs).run { sink := { room }, maps } = .error e m →
          Emitter.Moment { sink := { room }, maps } actions m) ∧
        ∀ m, Emitter.Moment { sink := { room }, maps } actions m → m.Describes := by
  obtain ⟨items, laidOut⟩ := exists_program settings (Selection.live pkgs) nonempty
  obtain ⟨full, cutShort⟩ := Emitter.exists_cutShort (actions maps items) (m := { maps }) rfl
  have whole := link_of_ok ((run_writing laidOut maps {}).trans cutShort.ran)
  refine ⟨_, _, _, actions maps items, whole, fun limit => ?_, fun room => ⟨run_writing laidOut maps _, ?_, ?_⟩⟩
  · have ran := run_writing laidOut maps { room := some limit }
    rw [Array.length_toList]
    rcases Nat.lt_or_ge limit full.sink.written.size with beyond | fits
    · obtain ⟨m, failed, output, mappings⟩ := cutShort.fails limit (Nat.zero_le _) beyond
      rw [link_of_error (ran.trans failed)]
      exact ⟨by simp [beyond], fun fits => absurd beyond (Nat.not_lt.mpr fits), output, mappings⟩
    · rw [link_of_ok (ran.trans (cutShort.fits limit fits))]
      refine ⟨by simpa using fits, fun _ => rfl, ?_, List.prefix_refl _⟩
      exact (List.take_of_length_le fits).symm
  · intro e m failed
    exact .of_error ((run_writing laidOut maps _).symm.trans failed)
  · exact fun m moment => moment.describes ⟨rfl, rfl⟩

end Linker

namespace TightSink

def settings : Settings := { prelude := "" }

/-- Two markers stand in the first line of the module. -/
def entry : Archive where
  importPath := "main"
  name := "main"
  preamble := [0x41, 8, 0, 0, 0, 1, 0x42, 8, 0, 0, 0, 5, 0x0A]
  positions := some ⟨#[⟨"f.src", 1, 5, #[0, 3]⟩]⟩

/-- The header of the program up to the byte between both markers. -/
def front : Bytes :=
  [0x22, 0x75, 0x73, 0x65, 0x20, 0x73, 0x74, 0x72, 0x69, 0x63, 0x74, 0x22, 0x3B, 0x0A, 0x28, 0x66, 0x75, 0x6E, 0x63,
    0x74, 0x69, 0x6F, 0x6E, 0x28, 0x29, 0x20, 0x7B, 0x0A, 0x0A, 0x0A, 0x41]

end TightSink

open TightSink Linker in
/-- A limit inside of the header, where nothing is counted yet, and one between two markers, where the first of them
has been reported. -/
theorem link_within_cut :
    [entry] ≠ [] ∧
    (∃ tally output mappings, link settings [entry] true = ⟨.ok tally, output, mappings⟩ ∧
      31 < output.length ∧ output.take 31 = front ∧ [⟨5, 1, some ⟨"f.src", 1, 1⟩⟩] <+: mappings ∧
      link settings [entry] true { room := some output.length } = ⟨.ok tally, output, mappings⟩) ∧
    link settings [entry] true { room := some 3 } = ⟨.error .sinkFull, [0x22, 0x75, 0x73], []⟩ ∧
    link settings [entry] true { room := some 31 } =
      ⟨.error .sinkFull, front, [⟨5, 1, some ⟨"f.src", 1, 1⟩⟩]⟩ ∧
    ∃ m, (writing settings [entry]).run { sink := { room := some 3 }, maps := true } = .error .sinkFull m ∧
      m.Describes ∧ m.position = (1, 0) ∧ m.passed = 0 ∧ m.sink.written.size = 3 := by
  have nonempty : [entry] ≠ [] := by decide
  obtain ⟨tally, output, mappings, actions, full, within, moments⟩ := link_within settings nonempty true
  have atThree : (link settings [entry] true { room := some 3 }).output = [0x22, 0x75, 0x73] ∧
      (link settings [entry] true { room := some 3 }).mappings = [] := by decide +kernel
  have atMore : (link settings [entry] true { room := some 31 }).output = front ∧
      (link settings [entry] true { room := some 31 }).mappings = [⟨5, 1, some ⟨"f.src", 1, 1⟩⟩] := by
    decide +kernel
  have longer : (link settings [entry] true { room := some 32 }).output.length = 32 := by decide +kernel
  obtain ⟨-, -, held, -⟩ := within 32
  have beyond : 31 < output.length := by
    rw [held, List.length_take] at longer
    omega
  have outcome (limit : Nat) (short : limit < output.length) : link settings [entry] true { room := some limit } =
      ⟨.error .sinkFull, (link settings [entry] true { room := some limit }).output,
        (link settings [entry] true { room := some limit }).mappings⟩ := by
    rw [← (within limit).1.mpr short]
  have three := outcome 3 (Nat.lt_trans (by decide) beyond)
  have more := outcome 31 beyond
  rw [atThree.1, atThree.2] at three
  rw [atMore.1, atMore.2] at more
  obtain ⟨-, -, begun, reported⟩ := within 31
  rw [more] at begun reported
  -- The sink holds three bytes when it refuses the header, and none of them is counted.
  have stopped : (match (writing settings [entry]).run { sink := { room := some 3 }, maps := true } with
      | .error .sinkFull m => m.position = (1, 0) && m.passed = 0 && m.sink.written.size = 3
      | _ => false) = true := by decide +kernel
  split at stopped
  next m ran =>
    obtain ⟨-, failed, describes⟩ := moments (some 3)
    simp only [Bool.and_eq_true, decide_eq_true_eq] at stopped
    exact ⟨nonempty, ⟨tally, output, mappings, full, beyond, begun.symm, reported,
      (within output.length).2.1 (Nat.le_refl _)⟩, three, more, m, ran, describes m (failed _ m ran), stopped.1.1,
      stopped.1.2, stopped.2⟩
  next => cases stopped

end Linkage
