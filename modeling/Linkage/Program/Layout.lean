import Linkage.Output.Emitter
import Linkage.Program.Settings
import Linkage.Program.StepMachine
import Linkage.Program.Whitespace
import Linkage.Selection.Basic
import Linkage.Text.Utf8

/-!
# Program layout

A program is a header, the bootstrap script, one module for each package in link order, and an epilogue that starts
the entry package. A module lays out the selected declarations of its package in passes: all code, then all method
lists, then all type initializers, and inside the step machine all init fragments. What the layout itself
puts in is stripped of whitespace when the program is minified. What archives hold is written as it is.
-/
namespace Linkage

namespace Layout

inductive Item where
  -- From here on handles mean what this table says.
  | table (table : Option PositionTable)
  | bytes (bytes : Bytes)
  deriving DecidableEq, Repr

/-- Text of the layout itself. -/
def injected (minify : Bool) (text : String) : Item :=
  let bytes := Text.Utf8.encode text
  .bytes (if minify then Whitespace.remove bytes else bytes)

def newline : Item := .bytes [0x0A]

def header : String := "\"use strict\";\n(function() \x7b\n\n"

/-- The script that starts a program: methods first, then the runtime, then the entry package, whose output is
flushed. -/
def epilogue (entry : String) (settings : Settings) : String :=
  "$synthesizeMethods();\n" ++
  "var $mainPkg = $packages[\"" ++ entry ++ "\"];\n" ++
  "$packages[\"" ++ settings.runtimePackage ++ "\"].$init();\n" ++
  "$go($mainPkg." ++ settings.entrySymbol ++ ", []);\n" ++
  "$flushConsole();\n\n\x7d).call(this);\n"

def moduleOpening (importPath : String) : String :=
  "$packages[\"" ++ importPath ++ "\"] = (function() \x7b\n"

/-- The statement that declares the package object, its initializer and the package variables. -/
def varStatement (decls : List Declaration) : String :=
  "\tvar " ++ ", ".intercalate ("$pkg = \x7b\x7d" :: "$init" :: decls.flatMap (·.vars)) ++ ";\n"

def moduleClosing : String := "\t$pkg.$init = $init;\n\treturn $pkg;\n\x7d)();"

/-- The module of a package with the given selected declarations. Minification keeps the newline at its end. -/
def moduleOf (minify : Bool) (pkg : Archive) (decls : List Declaration) : List Item :=
  [.table pkg.positions, .bytes pkg.preamble, injected minify (moduleOpening pkg.importPath),
    injected minify (varStatement decls)] ++
  decls.map (.bytes ·.code) ++ decls.map (.bytes ·.methodList) ++ decls.map (.bytes ·.typeInit) ++
  [injected minify StepMachine.standard.opening] ++
  decls.map (.bytes ·.init) ++
  [injected minify StepMachine.standard.closing, injected minify moduleClosing, newline]

/-- The module of the package at place `index` in link order. -/
def package (minify : Bool) (selection : Selection) (index : Nat) (pkg : Archive) : List Item :=
  moduleOf minify pkg (selection.ofPackage index pkg)

/-- A whole program, whose last package is the entry package. -/
def program (settings : Settings) (selection : Selection) (pkgs : List Archive) : Except WriteError (List Item) :=
  match pkgs.getLast? with
  | none => .error .noPackages
  | some entry =>
    let minify := settings.minifies entry.minified
    .ok <|
      [injected minify header, injected minify settings.prelude, newline] ++
      pkgs.zipIdx.flatMap (fun (pkg, index) => package minify selection index pkg) ++
      [injected minify (epilogue entry.importPath settings)]

end Layout

namespace Emitter

def writeItem : Layout.Item → Writing Unit
  | .table table => setTable table
  | .bytes bytes => write bytes

def writeItems (items : List Layout.Item) : Writing Unit := items.forM writeItem

def layOut (settings : Settings) (selection : Selection) (pkgs : List Archive) : Writing Unit := do
  match Layout.program settings selection pkgs with
  | .ok items => writeItems items
  | .error e => throw e

end Emitter
end Linkage
