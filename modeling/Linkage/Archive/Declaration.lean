import Linkage.Bytes

/-!
# Declarations

A declaration is one top-level symbol of a compiled package. Its filters say when it is needed: a declaration
without filters always is, any other once each of its filter keys is listed by a declaration that is.
-/
namespace Linkage

structure Declaration where
  -- The full name, for diagnostics.
  fullName : String := ""
  -- The package variables that the declaration introduces.
  vars : List String := []
  code : Bytes := []
  methodList : Bytes := []
  typeInit : Bytes := []
  init : Bytes := []
  -- Set if the declaration defines a named object.
  objectFilter : Option String := none
  -- Set if the declaration defines a method.
  methodFilter : Option String := none
  -- The filter keys that the declaration uses.
  deps : List String := []
  -- Whether calling the declaration may suspend.
  blocking : Bool := false
  deriving DecidableEq, Repr

/-- The key of a filter: the filter behind the import path of its package and a dot. -/
def scopedKey (importPath filter : String) : String := importPath ++ "." ++ filter

namespace Declaration

def isRoot (d : Declaration) : Bool := d.objectFilter.isNone && d.methodFilter.isNone

def objectKey? (d : Declaration) (importPath : String) : Option String :=
  d.objectFilter.map (scopedKey importPath)

def methodKey? (d : Declaration) (importPath : String) : Option String :=
  d.methodFilter.map (scopedKey importPath)

/-- The filter keys of the declaration, the object key first. -/
def keys (d : Declaration) (importPath : String) : List String :=
  (d.objectKey? importPath).toList ++ (d.methodKey? importPath).toList

end Declaration

/-- A use that one declaration makes of another, as a code generator sees it. -/
inductive Dependency where
  -- A function, type or variable of a package.
  | object (package name : String)
  -- A method. Every type that has one of this name may be meant.
  | method (package name : String)
  deriving DecidableEq, Repr

namespace Dependency

def package : Dependency → String
  | .object package _ | .method package _ => package

/-- The filter that the used declarations carry. That of a method ends in a tilde. -/
def localFilter : Dependency → String
  | .object _ name => name
  | .method _ name => name ++ "~"

def key (d : Dependency) : String := scopedKey d.package d.localFilter

end Dependency
end Linkage
