/-!
# Paths

A path is text; slashes separate its components. Empty components and `.` stand for the directory before them, `..`
for the one above it.
-/
namespace Linkage.Path

private def splitChars : List Char → List (List Char)
  | [] => [[]]
  | c :: rest =>
    if c = '/' then [] :: splitChars rest
    else match splitChars rest with
      | first :: others => (c :: first) :: others
      | [] => [[c]]

def components (path : String) : List String := (splitChars path.toList).map String.ofList

private theorem splitChars_ne_nil (chars : List Char) : splitChars chars ≠ [] := by
  cases chars with
  | nil => simp [splitChars]
  | cons c rest =>
    rw [splitChars]
    split
    · simp
    · split <;> simp

private theorem splitChars_slash (front back : List Char) :
    splitChars (front ++ '/' :: back) = splitChars front ++ splitChars back := by
  induction front with
  | nil => simp [splitChars]
  | cons c rest ih =>
    simp only [List.cons_append, splitChars, ih]
    split
    · rfl
    · cases split : splitChars rest with
      | nil => exact absurd split (splitChars_ne_nil rest)
      | cons first others => rfl

private theorem splitChars_of_not_mem {chars : List Char} (plain : '/' ∉ chars) : splitChars chars = [chars] := by
  induction chars with
  | nil => rfl
  | cons c rest ih =>
    rw [List.mem_cons, not_or] at plain
    rw [splitChars, if_neg (Ne.symm plain.1), ih plain.2]

theorem components_slash (front back : String) :
    components (front ++ "/" ++ back) = components front ++ components back := by
  simp [components, splitChars_slash]

theorem components_of_not_mem {name : String} (plain : '/' ∉ name.toList) : components name = [name] := by
  rw [components, splitChars_of_not_mem plain, List.map_singleton, String.ofList_toList]

/-- The last component that is not empty, after those before it. -/
def splitLast? (path : String) : Option (List String × String) :=
  match (components path).reverse.dropWhile (·.isEmpty) with
  | [] => none
  | last :: before => some (before.reverse, last)

def isAbsolute (path : String) : Bool := path.toList.head? = some '/'

/-- Whether the path can only be that of a directory. -/
def endsInSlash (path : String) : Bool := path.toList.getLast? = some '/'

def join (directory name : String) : String :=
  if directory.isEmpty || endsInSlash directory then directory ++ name else directory ++ "/" ++ name

def fileName? (path : String) : Option String :=
  match ((components path).filter fun c => c ≠ "" ∧ c ≠ ".").getLast? with
  | some ".." => none
  | last => last

/-- Whether a name has characters before a last dot, and `ext` after it. -/
def hasExtension (name ext : String) : Bool :=
  let after := ('.' :: ext.toList).reverse
  after.isPrefixOf name.toList.reverse && after.length < name.length

end Linkage.Path
