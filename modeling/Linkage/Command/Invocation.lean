/-!
# Invocations

What a command is asked to do. Its arguments are one import path and options in any order. Of an option that is given
more than once the last one counts.
-/
namespace Linkage

inductive UsageError where
  | outputWithoutPath
  | unknownOption (argument : String)
  | unexpectedArgument (argument : String)
  | missingPackage
  | missingCache
  deriving DecidableEq, Repr

def UsageError.detail : UsageError → String
  | .outputWithoutPath => "-o requires a path"
  | .unknownOption argument => s!"unknown option '{argument}'"
  | .unexpectedArgument argument => s!"unexpected argument '{argument}'"
  | .missingPackage => "missing package import path"
  | .missingCache => "missing --cache=<dir>"

def UsageError.message (e : UsageError) : String := s!"usage: {e.detail}"

structure Invocation where
  -- The entry package, by its import path.
  package : String
  cacheDir : String
  -- The file to write the program to, rather than to print it.
  output : Option String := none
  sourceMap : Option String := none
  -- Whether to minify whatever the entry package says.
  minify : Bool := false
  deriving DecidableEq, Repr

namespace Invocation

structure Draft where
  package : Option String := none
  cacheDir : Option String := none
  output : Option String := none
  sourceMap : Option String := none
  minify : Bool := false
  deriving DecidableEq, Repr

/-- What follows `start` in an argument that begins with it. -/
def after? (start argument : String) : Option String :=
  (start.toList.isPrefixOf? argument.toList).map String.ofList

def Draft.take (o : Draft) (argument : String) : Except UsageError Draft :=
  match after? "--cache=" argument, after? "--source-map=" argument with
  | some dir, _ => .ok { o with cacheDir := some dir }
  | none, some path => .ok { o with sourceMap := some path }
  | none, none =>
    if argument = "--minify" then .ok { o with minify := true }
    else if (after? "-" argument).isSome then .error (.unknownOption argument)
    else if o.package.isNone then .ok { o with package := some argument }
    else .error (.unexpectedArgument argument)

def Draft.takeAll (o : Draft) : List String → Except UsageError Draft
  | [] => .ok o
  | "-o" :: path :: rest => takeAll { o with output := some path } rest
  | ["-o"] => .error .outputWithoutPath
  | argument :: rest => do takeAll (← o.take argument) rest

def Draft.finish (o : Draft) : Except UsageError Invocation :=
  match o.package, o.cacheDir with
  | none, _ => .error .missingPackage
  | some _, none => .error .missingCache
  | some package, some cacheDir =>
    .ok { package, cacheDir, output := o.output, sourceMap := o.sourceMap, minify := o.minify }

def parse (arguments : List String) : Except UsageError Invocation := do
  (← Draft.takeAll {} arguments).finish

end Invocation
end Linkage
