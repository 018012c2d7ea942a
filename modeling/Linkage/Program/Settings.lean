import Linkage.Program.Bootstrap

/-!
# Settings of a link

What a program is linked with besides its packages.
-/
namespace Linkage

structure Settings where
  -- The import path of the package that every program depends on.
  runtimePackage : String := "runtime"
  -- Whether to minify; if not given, the entry package decides.
  minify : Option Bool := none
  -- The member of the entry package that starts the program.
  entrySymbol : String := "$init"
  -- The script in front of the first module.
  prelude : String := Bootstrap.script
  deriving DecidableEq, Repr

def Settings.minifies (settings : Settings) (entryFlag : Bool) : Bool := settings.minify.getD entryFlag

end Linkage
