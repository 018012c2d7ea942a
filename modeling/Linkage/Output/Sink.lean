import Linkage.Bytes

/-!
# Sinks

A sink collects what is written to it. One with limited room takes what still fits of a write and refuses the
rest.
-/
namespace Linkage

inductive WriteError where
  | sinkFull
  -- There is no program without packages.
  | noPackages
  deriving DecidableEq, Repr

def WriteError.message : WriteError → String
  | .sinkFull => "sink full"
  | .noPackages => "cannot assemble a program without packages"

structure Sink where
  written : Array UInt8 := #[]
  -- How many bytes still fit, if there is a limit.
  room : Option Nat := none
  deriving DecidableEq, Repr

namespace Sink

/-- Write what fits. The answer says whether all of it did. -/
def put (s : Sink) (bytes : Bytes) : Bool × Sink :=
  match s.room with
  | none => (true, { s with written := s.written ++ bytes })
  | some room =>
    (bytes.length ≤ room, ⟨s.written ++ bytes.take room, some (room - bytes.length)⟩)

end Sink
end Linkage
