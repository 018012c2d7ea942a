import Std.Data.TreeMap
import Linkage.Selection.Basic

/-!
# Live declarations

A declaration without filters is live. Any other is a candidate: it is live once each of its filter keys is listed by a
live declaration. An index leads from a key to the candidates that wait for it. It loses a key as soon as a selected
declaration lists it, and those candidates no longer wait for that key.
-/
namespace Linkage

/-- A declaration that waits for filter keys. -/
structure Candidate where
  place : Place
  -- Its keys that no selected declaration has listed so far.
  unmet : List String
  deriving DecidableEq, Repr

namespace Candidate

def isReady (c : Candidate) : Bool := c.unmet.isEmpty

def meet (c : Candidate) (key : String) : Candidate := { c with unmet := c.unmet.filter (· ≠ key) }

end Candidate

structure Worklist where
  -- The places of declarations that wait for nothing and are not yet selected, the next one first.
  ready : List Place := []
  selected : Selection := .empty
  candidates : Array Candidate := #[]
  -- The candidates that wait for each key.
  index : Std.TreeMap String (List Nat) := ∅

namespace Worklist

/-- Add the declaration at `place`, whose package has the given import path. -/
def add (w : Worklist) (importPath : String) (place : Place) (d : Declaration) : Worklist :=
  if d.isRoot then { w with ready := place :: w.ready }
  else
    let keys := d.keys importPath
    let number := w.candidates.size
    { w with
      candidates := w.candidates.push ⟨place, keys⟩
      index := keys.foldl (fun index key => index.insert key (index.getD key [] ++ [number])) w.index }

def addPackage (w : Worklist) (p : Nat) (pkg : Archive) : Worklist :=
  pkg.declarations.zipIdx.foldl (fun w (d, i) => w.add pkg.importPath ⟨p, i⟩ d) w

/-- All declarations of a program, none of them selected. -/
def start (pkgs : List Archive) : Worklist :=
  pkgs.zipIdx.foldl (fun w (pkg, p) => w.addPackage p pkg) {}

/-- Let one candidate wait for `key` no more. It becomes ready at most once. -/
def meetOne (key : String) (w : Worklist) (number : Nat) : Worklist :=
  match w.candidates[number]? with
  | none => w
  | some candidate =>
    if candidate.isReady then w
    else
      let candidate := candidate.meet key
      { w with
        candidates := w.candidates.setIfInBounds number candidate
        ready := if candidate.isReady then candidate.place :: w.ready else w.ready }

/-- A selected declaration lists `key`. -/
def meet (w : Worklist) (key : String) : Worklist :=
  match w.index[key]? with
  | none => w
  | some numbers => numbers.foldl (meetOne key) { w with index := w.index.erase key }

def step (pkgs : List Archive) (w : Worklist) : Worklist :=
  match w.ready with
  | [] => w
  | place :: ready =>
    if w.selected.contains place then { w with ready }
    else
      let listed := ((declaration? pkgs place).map (·.deps)).getD []
      listed.foldl meet { w with ready, selected := w.selected.insert place }

def run (pkgs : List Archive) : (budget : Nat) → Worklist → Worklist
  | 0, w => w
  | budget + 1, w => if w.ready.isEmpty then w else run pkgs budget (w.step pkgs)

end Worklist

/-- The live declarations of a program. Each step selects one, so their number bounds the steps. -/
def Selection.live (pkgs : List Archive) : Selection :=
  (Worklist.run pkgs (declarationCount pkgs) (.start pkgs)).selected

end Linkage
