import Linkage.Wire

/-!
# Interfaces

The interface of a package lists the members that it exports and their types. A type may name types of other
packages.
-/
namespace Linkage

inductive MemberKind where
  | const
  | var
  | type
  | func
  deriving DecidableEq, Repr

inductive TypeExpr where
  | basic (name : String)
  | named (package name : String)
  | pointer (element : TypeExpr)
  | slice (element : TypeExpr)
  | map (key value : TypeExpr)
  | func (params results : List TypeExpr)
  deriving Repr, Inhabited

structure Member where
  name : String
  kind : MemberKind
  type : TypeExpr

structure Interface where
  path : String
  name : String
  imports : List String := []
  members : List Member := []

mutual

/-- The packages and names that a type refers to, depth first and from left to right. -/
def TypeExpr.references : TypeExpr → List (String × String)
  | .basic _ => []
  | .named package name => [(package, name)]
  | .pointer element => element.references
  | .slice element => element.references
  | .map key value => key.references ++ value.references
  | .func params results => TypeExpr.referencesAll params ++ TypeExpr.referencesAll results

def TypeExpr.referencesAll : List TypeExpr → List (String × String)
  | [] => []
  | t :: rest => t.references ++ TypeExpr.referencesAll rest

end

def Interface.references (i : Interface) : List (String × String) :=
  i.members.flatMap (·.type.references)

end Linkage
