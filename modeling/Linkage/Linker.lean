import Linkage.LinkOrder
import Linkage.Program.Layout
import Linkage.Selection.Live

/-!
# Linking

The link of a program: select its live declarations, write it through an emitter, and count.
-/
namespace Linkage

structure Tally where
  packages : Nat
  declarations : Nat
  -- How many of the declarations are live.
  selected : Nat
  -- How many bytes were written.
  bytes : Nat
  deriving DecidableEq, Repr

namespace Linker

def emit (settings : Settings) (pkgs : List Archive) : Emitter.Writing Tally := do
  let selection := Selection.live pkgs
  Emitter.layOut settings selection pkgs
  Emitter.flush
  return ⟨pkgs.length, declarationCount pkgs, selection.size, (← get).passed⟩

/-- What a link leaves behind, whether or not it succeeds. -/
structure Outcome where
  tally : Except WriteError Tally
  output : Bytes
  mappings : List Mapping

/-- Link packages, which are in link order, into a sink. Markers are taken out and reported if `maps` is set. -/
def link (settings : Settings) (pkgs : List Archive) (maps : Bool) (sink : Sink := {}) : Outcome :=
  let outcome (tally : Except WriteError Tally) (m : Emitter) : Outcome :=
    ⟨tally, m.sink.written.toList, m.mappings.toList⟩
  match emit settings pkgs { sink, maps } with
  | .ok tally m => outcome (.ok tally) m
  | .error e m => outcome (.error e) m

end Linker
end Linkage
