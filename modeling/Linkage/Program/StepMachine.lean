/-!
# Step machines

The initializer of a package may call functions that suspend, so it is a step machine: a loop around a switch over the
next step. Three variables hold its state: the frame to resume from, the next step, and the value that a resumed step
receives. When a step suspends, the machine leaves the loop and packs the variables into a frame; called on a frame, it
unpacks them and goes on. The init fragments of the package stand inside the switch.
-/
namespace Linkage

structure StepMachine where
  frame : String := "$f"
  step : String := "$s"
  result : String := "$r"
  deriving DecidableEq, Repr

namespace StepMachine

/-- The names that the init fragments and the bootstrap script use. -/
def standard : StepMachine := {}

def opening (s : StepMachine) : String :=
  "\t$init = function() \x7b\n" ++
  "\t\t$pkg.$init = function() \x7b\x7d;\n" ++
  "\t\tvar " ++ s.frame ++ ", $c = false, " ++ s.step ++ " = 0, " ++ s.result ++ "; " ++
  "if (this !== undefined && this.$blk !== undefined) \x7b " ++ s.frame ++ " = this; $c = true; " ++
  s.step ++ " = " ++ s.frame ++ ".$s; " ++ s.result ++ " = " ++ s.frame ++ ".$r; \x7d " ++
  "s: while (true) \x7b switch (" ++ s.step ++ ") \x7b case 0:\n"

def closing (s : StepMachine) : String :=
  "\t\t\x7d return; \x7d " ++
  "if (" ++ s.frame ++ " === undefined) \x7b " ++ s.frame ++ " = \x7b $blk: $init \x7d; \x7d " ++
  s.frame ++ ".$s = " ++ s.step ++ "; " ++ s.frame ++ ".$r = " ++ s.result ++ "; return " ++ s.frame ++ ";\n" ++
  "\t\x7d;\n"

end StepMachine
end Linkage
