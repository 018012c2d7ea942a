import Linkage.Command.Basic

/-!
# The command line

Runs the command that is named first, prints its results, and turns failures into messages. The exit status is zero
exactly if nothing failed.
-/
namespace Linkage.CommandLine

def usage : String := String.join <| List.map (·.push '\n') [
  "lodec: whole-program linker for compiled package archives",
  "",
  "Usage: lodec <command> <import-path> --cache=<dir> [options]",
  "",
  "Commands:",
  "  link <import-path>   Link a program from cached archives",
  "  deps <import-path>   Print the resolved link order",
  "  dce <import-path>    Print kept/total declarations per package",
  "  help                 Show this help message",
  "  version              Show version information",
  "",
  "Options:",
  "  --cache=<dir>        Archive cache directory (required)",
  "  -o <path>            Output file (default: stdout)",
  "  --source-map=<path>  Also write a v3 source map",
  "  --minify             Minify regardless of the entry package",
  "",
  "Set RUST_LOG to enable logging; LODE_LOG_TREE=1 renders it as a tree."]

/-- Text followed by spaces up to a width. -/
def padRight (width : Nat) (text : String) : String :=
  text ++ String.ofList (List.replicate (width - text.length) ' ')

/-- Text after spaces up to a width. -/
def padLeft (width : Nat) (text : String) : String :=
  String.ofList (List.replicate (width - text.length) ' ') ++ text

def shareLine (s : Command.PackageShare) : String :=
  padRight 40 s.importPath ++ " " ++ padLeft 6 (toString s.selected) ++ " / " ++
    padRight 6 (toString s.total) ++ "\n"

def tallyLine (t : Tally) : String :=
  s!"linked {t.packages} packages: {t.selected}/{t.declarations} declarations kept, {t.bytes} bytes\n"

def withArguments (arguments : List String) (run : Invocation → Command.Action Unit) : Command.Action Unit :=
  match Invocation.parse arguments with
  | .ok i => run i
  | .error e => throw (.usage e)

def link (i : Invocation) : Command.Action Unit := do
  let tally ← Command.link i
  if i.output.isSome then modify (·.complain (tallyLine tally))

def deps (i : Invocation) : Command.Action Unit := do
  let paths ← Command.importPaths i
  modify (·.printText (String.join (paths.map (·.push '\n'))))

def dce (i : Invocation) : Command.Action Unit := do
  let shares ← Command.shares i
  modify (·.printText (String.join (shares.map shareLine)))

/-- Report a failure, with the usage after one of usage. -/
def report (e : Command.Error) (h : Host) : Host :=
  let h := h.complain s!"error: {e.message}\n"
  match e with
  | .usage _ => (h.complain "\n").printText usage
  | _ => h

def settle (action : Command.Action Unit) (h : Host) : Nat × Host :=
  match action h with
  | .ok _ h => (0, h)
  | .error e h => (1, report e h)

/-- Run the program with the arguments after its name. The answer is the exit status. -/
def run (arguments : List String) (h : Host) : Nat × Host :=
  match arguments with
  | [] => (0, h.printText usage)
  | "link" :: rest => settle (withArguments rest link) h
  | "deps" :: rest => settle (withArguments rest deps) h
  | "dce" :: rest => settle (withArguments rest dce) h
  | command :: _ =>
    if command ∈ ["help", "--help", "-h"] then (0, h.printText usage)
    else if command ∈ ["version", "--version", "-v"] then (0, h.printText s!"lodec {linkerVersion}\n")
    else (1, (h.complain s!"Unknown command: {command}\n\n").printText usage)

end Linkage.CommandLine
