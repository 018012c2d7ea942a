import Linkage.Command.Invocation
import Mathlib.Data.List.Basic
import Mathlib.Data.List.Induction

/-!
# The arguments of a command

Arguments are read from left to right in groups: an option together with what belongs to it, or an import path. They
are accepted exactly if they are groups throughout, with one import path among them and a cache directory at least
once. Otherwise the first group that is none, or is one too many, decides what the error is.
-/
namespace Linkage

namespace Invocation

/-- Whether an argument looks like an option. -/
def Dashed (argument : String) : Prop := argument.toList.head? = some '-'

instance (argument : String) : Decidable (Dashed argument) := inferInstanceAs (Decidable (_ = _))

/-- Arguments that belong together. -/
inductive Group where
  -- The argument behind the option is its path, even if it looks like an option.
  | output (path : String)
  | cache (dir : String)
  | sourceMap (path : String)
  | minify
  | package (path : String) (plain : ¬ Dashed path)

inductive Kind where
  | output
  | cache
  | sourceMap
  | minify
  | package
  deriving DecidableEq

namespace Group

def kind : Group → Kind
  | output _ => .output
  | cache _ => .cache
  | sourceMap _ => .sourceMap
  | minify => .minify
  | package _ _ => .package

def value : Group → String
  | output value | cache value | sourceMap value | package value _ => value
  | minify => ""

def text : Group → List String
  | output path => ["-o", path]
  | cache dir => ["--cache=" ++ dir]
  | sourceMap path => ["--source-map=" ++ path]
  | minify => ["--minify"]
  | package path _ => [path]

end Group

def textOf (groups : List Group) : List String := groups.flatMap Group.text

/-- The values that groups give for one kind, in order. -/
def values (kind : Kind) (groups : List Group) : List String := (groups.filter (·.kind = kind)).map Group.value

/-- What groups ask for. Of the options that may come more than once the last one counts. -/
structure Tells (groups : List Group) (i : Invocation) : Prop where
  package : values .package groups = [i.package]
  cacheDir : (values .cache groups).getLast? = some i.cacheDir
  output : (values .output groups).getLast? = i.output
  sourceMap : (values .sourceMap groups).getLast? = i.sourceMap
  minify : i.minify = true ↔ Group.minify ∈ groups

/-- What is wrong with the arguments that stand behind some groups. -/
inductive Offends (before : List Group) : List String → UsageError → Prop
  | outputWithoutPath : Offends before ["-o"] .outputWithoutPath
  | unknownOption {argument : String} {rest : List String} (dashed : Dashed argument)
    (unknown : ∀ g : Group, g.text.head? ≠ some argument) :
    Offends before (argument :: rest) (.unknownOption argument)
  | unexpectedArgument {argument : String} {rest : List String} (plain : ¬ Dashed argument)
    (second : values .package before ≠ []) : Offends before (argument :: rest) (.unexpectedArgument argument)

/-- Why arguments are refused. Something that is missing counts only if nothing is wrong with what is there. -/
inductive Refused (arguments : List String) : UsageError → Prop
  | offending {before : List Group} {rest : List String} {e : UsageError} (split : textOf before ++ rest = arguments)
    (once : (values .package before).length ≤ 1) (offends : Offends before rest e) : Refused arguments e
  | missingPackage {groups : List Group} (whole : textOf groups = arguments) (none : values .package groups = []) :
    Refused arguments .missingPackage
  | missingCache {groups : List Group} (whole : textOf groups = arguments)
    (once : (values .package groups).length = 1) (none : values .cache groups = []) :
    Refused arguments .missingCache

/-- The groups that ask for what an invocation holds. -/
def groups (i : Invocation) (plain : ¬ Dashed i.package) : List Group :=
  [.package i.package plain, .cache i.cacheDir] ++ i.output.toList.map .output ++
    i.sourceMap.toList.map .sourceMap ++ if i.minify then [.minify] else []

/-! ### Groups -/

theorem textOf_concat (groups : List Group) (g : Group) : textOf (groups ++ [g]) = textOf groups ++ g.text := by
  simp [textOf]

theorem values_concat (kind : Kind) (groups : List Group) (g : Group) :
    values kind (groups ++ [g]) = values kind groups ++ if g.kind = kind then [g.value] else [] := by
  by_cases same : g.kind = kind <;> simp [values, same]

/-! ### Single arguments -/

/-- What follows a prefix is the rest of the argument, character by character. -/
theorem after?_eq_some_iff {start argument rest : String} :
    after? start argument = some rest ↔ argument = start ++ rest := by
  rw [after?, Option.map_eq_some_iff, String.ext_iff, String.toList_append]
  constructor
  · rintro ⟨l, found, rfl⟩
    rw [List.isPrefixOf?_eq_some_iff_append_eq] at found
    rw [String.toList_ofList, found]
  · intro split
    exact ⟨rest.toList, List.isPrefixOf?_eq_some_iff_append_eq.mpr split.symm, String.ofList_toList⟩

theorem isSome_after?_dash {argument : String} : (after? "-" argument).isSome = true ↔ Dashed argument := by
  rw [Option.isSome_iff_exists, Dashed]
  simp only [after?_eq_some_iff, String.ext_iff, String.toList_append]
  constructor
  · rintro ⟨rest, split⟩
    rw [split]
    rfl
  · intro first
    obtain ⟨rest, split⟩ := List.head?_eq_some_iff.mp first
    refine ⟨String.ofList rest, ?_⟩
    rw [split, String.toList_ofList, String.toList_ofList, List.singleton_append]

/-- An argument without a dash is taken for no option. -/
theorem after?_eq_none_of_plain {argument : String} (plain : ¬ Dashed argument) (start : String)
    (option : Dashed start) : after? start argument = none := by
  refine Option.eq_none_iff_forall_ne_some.mpr fun rest found => plain ?_
  obtain ⟨more, first⟩ := List.head?_eq_some_iff.mp option
  rw [after?_eq_some_iff.mp found, Dashed, String.toList_append, first]
  rfl

namespace Draft

variable {o : Draft} {argument : String}

theorem take_cache (o : Draft) (dir : String) : o.take ("--cache=" ++ dir) = .ok { o with cacheDir := some dir } := by
  rw [take, after?_eq_some_iff.mpr rfl]

theorem take_sourceMap (o : Draft) (path : String) :
    o.take ("--source-map=" ++ path) = .ok { o with sourceMap := some path } := by
  have other : after? "--cache=" ("--source-map=" ++ path) = none := by simp [after?, List.isPrefixOf?]
  rw [take, other, after?_eq_some_iff.mpr rfl]

theorem take_minify (o : Draft) : o.take "--minify" = .ok { o with minify := true } := by
  rfl

/-- A plain argument is the package, and there may be only one. -/
theorem take_of_plain (plain : ¬ Dashed argument) : o.take argument =
    if o.package.isNone then .ok { o with package := some argument } else .error (.unexpectedArgument argument) := by
  have named : argument ≠ "--minify" := by
    rintro rfl
    exact plain rfl
  have undashed : (after? "-" argument).isSome = false :=
    Bool.eq_false_iff.mpr fun found => plain (isSome_after?_dash.mp found)
  simp [take, after?_eq_none_of_plain plain "--cache=" rfl, after?_eq_none_of_plain plain "--source-map=" rfl, named,
    undashed]

/-- An option that no group begins with is refused. -/
theorem take_of_unknown (dashed : Dashed argument) (unknown : ∀ g : Group, g.text.head? ≠ some argument) :
    o.take argument = .error (.unknownOption argument) := by
  have noCache : after? "--cache=" argument = none := by
    refine Option.eq_none_iff_forall_ne_some.mpr fun dir found => unknown (.cache dir) ?_
    rw [after?_eq_some_iff.mp found]
    rfl
  have noMap : after? "--source-map=" argument = none := by
    refine Option.eq_none_iff_forall_ne_some.mpr fun path found => unknown (.sourceMap path) ?_
    rw [after?_eq_some_iff.mp found]
    rfl
  have unnamed : argument ≠ "--minify" := by
    rintro rfl
    exact unknown .minify rfl
  simp [take, noCache, noMap, unnamed, isSome_after?_dash.mpr dashed]

theorem takeAll_cons (o : Draft) (rest : List String) (other : argument ≠ "-o") :
    takeAll o (argument :: rest) = o.take argument >>= (takeAll · rest) := by
  rw [takeAll]
  · exact fun _ _ same _ => other same
  · exact fun same _ => other same

theorem takeAll_of_ok {o' : Draft} {rest : List String} (other : argument ≠ "-o") (taken : o.take argument = .ok o') :
    takeAll o (argument :: rest) = takeAll o' rest := by
  rw [takeAll_cons o rest other, taken]
  rfl

theorem takeAll_of_error {e : UsageError} {rest : List String} (other : argument ≠ "-o")
    (refused : o.take argument = .error e) : takeAll o (argument :: rest) = .error e := by
  rw [takeAll_cons o rest other, refused]
  rfl

/-! ### Taking groups -/

def add (o : Draft) : Group → Draft
  | .output path => { o with output := some path }
  | .cache dir => { o with cacheDir := some dir }
  | .sourceMap path => { o with sourceMap := some path }
  | .minify => { o with minify := true }
  | .package path _ => { o with package := some path }

/-- A group can be told from what it adds to an empty draft. -/
theorem add_injective (g g' : Group) (same : ({} : Draft).add g = ({} : Draft).add g') : g = g' := by
  cases g <;> cases g' <;> simp_all [add]

/-- Any group but an output option is a single argument. -/
theorem exists_argument {g : Group} (other : g.kind ≠ .output) : ∃ argument, g.text = [argument] ∧ argument ≠ "-o" ∧
    ∀ o : Draft, (g.kind = .package → o.package = none) → o.take argument = .ok (o.add g) := by
  cases g with
  | output path => exact absurd rfl other
  | cache dir => exact ⟨_, rfl, by simp [String.ext_iff], fun o _ => take_cache o dir⟩
  | sourceMap path => exact ⟨_, rfl, by simp [String.ext_iff], fun o _ => take_sourceMap o path⟩
  | minify => exact ⟨_, rfl, by decide, fun o _ => take_minify o⟩
  | package path plain =>
    refine ⟨path, rfl, ?_, fun o free => ?_⟩
    · rintro rfl
      exact plain rfl
    · rw [take_of_plain plain, free rfl]
      rfl

/-- A group is taken as a whole, but for an import path behind another one. -/
theorem takeAll_text {g : Group} (rest : List String) (free : g.kind = .package → o.package = none) :
    takeAll o (g.text ++ rest) = takeAll (o.add g) rest := by
  by_cases output : g.kind = .output
  · cases g with
    | output path => rfl
    | _ => cases output
  · obtain ⟨argument, text, other, taken⟩ := exists_argument output
    rw [text]
    exact takeAll_of_ok other (taken o free)

/-- The first group of a text can be told from its front, whatever comes behind it. -/
theorem eq_of_append_eq {g g' : Group} {rest rest' : List String} (same : g.text ++ rest = g'.text ++ rest') :
    g = g' ∧ rest = rest' := by
  by_cases output : g.kind = .output <;> by_cases output' : g'.kind = .output
  · cases g <;> cases output
    cases g' <;> cases output'
    simpa [Group.text] using same
  · obtain ⟨argument, text, other, -⟩ := exists_argument output'
    cases g <;> cases output
    rw [text] at same
    exact absurd (List.cons.inj same).1.symm other
  · obtain ⟨argument, text, other, -⟩ := exists_argument output
    cases g' <;> cases output'
    rw [text] at same
    exact absurd (List.cons.inj same).1 other
  · obtain ⟨argument, text, -, taken⟩ := exists_argument output
    obtain ⟨argument', text', -, taken'⟩ := exists_argument output'
    rw [text, text'] at same
    obtain ⟨rfl, rest⟩ := List.cons.inj same
    -- The same argument is taken in the same way, and what it adds to an empty draft tells which group it is.
    have drafts := (taken {} fun _ => rfl).symm.trans (taken' {} fun _ => rfl)
    exact ⟨add_injective _ _ (Except.ok.inj drafts), rest⟩

/-- What groups leave behind is told by the values of each kind. -/
theorem foldl_add (groups : List Group) : groups.foldl add {} =
    { package := (values .package groups).getLast?, cacheDir := (values .cache groups).getLast?,
      output := (values .output groups).getLast?, sourceMap := (values .sourceMap groups).getLast?,
      minify := groups.any (·.kind = .minify) } := by
  induction groups using List.reverseRecOn with
  | nil => rfl
  | append_singleton groups g ih =>
    rw [List.foldl_concat, ih]
    cases g <;> simp [add, values_concat, Group.kind, Group.value]

/-- Groups are taken one by one, if there is at most one package among them. -/
theorem takeAll_textOf {groups : List Group} (rest : List String) (once : (values .package groups).length ≤ 1) :
    takeAll {} (textOf groups ++ rest) = takeAll (groups.foldl add {}) rest := by
  induction groups using List.reverseRecOn generalizing rest with
  | nil => rfl
  | append_singleton groups g ih =>
    rw [values_concat, List.length_append] at once
    rw [textOf_concat, List.append_assoc, ih _ (by omega), List.foldl_concat]
    refine takeAll_text rest fun second => ?_
    rw [if_pos second, List.length_singleton] at once
    have first : values .package groups = [] := List.length_eq_zero_iff.mp (by omega)
    rw [foldl_add, first]
    rfl

/-- The first offence is reported, whatever stands behind it. -/
theorem takeAll_of_offends {before : List Group} {rest : List String} {e : UsageError}
    (offends : Offends before rest e) : takeAll (before.foldl add {}) rest = .error e := by
  cases offends with
  | outputWithoutPath => rfl
  | unknownOption dashed unknown =>
    refine takeAll_of_error ?_ (take_of_unknown dashed unknown)
    rintro rfl
    exact unknown (.output "") rfl
  | unexpectedArgument plain second =>
    refine takeAll_of_error ?_ ?_
    · rintro rfl
      exact plain rfl
    · rw [take_of_plain plain, foldl_add, List.getLast?_eq_some_getLast second]
      rfl

/-- What an invocation tells about the groups is that each value is the last one given. -/
theorem finish_foldl_add_eq_ok_iff {groups : List Group} {i : Invocation} (once : (values .package groups).length ≤ 1) :
    (groups.foldl add {}).finish = .ok i ↔ Tells groups i := by
  have minify : groups.any (·.kind = .minify) = true ↔ Group.minify ∈ groups := by
    rw [List.any_eq_true]
    constructor
    · rintro ⟨g, member, same⟩
      cases g <;> simp_all [Group.kind]
    · exact fun member => ⟨_, member, by simp [Group.kind]⟩
  rw [foldl_add, finish]
  constructor
  · intro finished
    split at finished
    next => cases finished
    next => cases finished
    next package cacheDir first last =>
      cases finished
      obtain ⟨front, split⟩ := List.getLast?_eq_some_iff.mp first
      rw [split, List.length_append, List.length_singleton] at once
      have alone : front = [] := List.length_eq_zero_iff.mp (by omega)
      exact ⟨by rw [split, alone]; rfl, last, rfl, rfl, minify⟩
  · rintro ⟨package, cacheDir, output, sourceMap, minified⟩
    have same : groups.any (·.kind = .minify) = i.minify := Bool.eq_iff_iff.mpr (minify.trans minified.symm)
    rw [package, cacheDir, output, sourceMap, same]
    rfl

/-- Only then is it asked whether the package and the cache are there at all. -/
theorem finish_foldl_add_eq_error_iff {groups : List Group} {e : UsageError}
    (once : (values .package groups).length ≤ 1) :
    (groups.foldl add {}).finish = .error e ↔ values .package groups = [] ∧ e = .missingPackage ∨
      (values .package groups).length = 1 ∧ values .cache groups = [] ∧ e = .missingCache := by
  rw [foldl_add, finish]
  rcases packages : values .package groups with _ | ⟨package, _ | ⟨second, more⟩⟩
  · simp [eq_comm (a := e)]
  · rcases List.eq_nil_or_concat (values .cache groups) with none | ⟨earlier, last, split⟩
    · simp [none, eq_comm (a := e)]
    · simp [split]
  · rw [packages] at once
    simp at once

end Draft

theorem parse_textOf {groups : List Group} (once : (values .package groups).length ≤ 1) :
    parse (textOf groups) = (groups.foldl Draft.add {}).finish := by
  rw [parse, ← List.append_nil (textOf groups), Draft.takeAll_textOf [] once]
  rfl

theorem parse_of_offends {before : List Group} {rest : List String} {e : UsageError}
    (once : (values .package before).length ≤ 1) (offends : Offends before rest e) :
    parse (textOf before ++ rest) = .error e := by
  rw [parse, Draft.takeAll_textOf rest once, Draft.takeAll_of_offends offends]
  rfl

/-- What stands behind some groups begins with a further group, or something is wrong with it. -/
theorem exists_group (before : List Group) {arguments : List String} (more : arguments ≠ []) :
    (∃ (g : Group) (rest : List String), g.text ++ rest = arguments ∧
        (g.kind = .package → values .package before = [])) ∨
      ∃ e, Offends before arguments e := by
  obtain ⟨argument, rest, rfl⟩ := List.exists_cons_of_ne_nil more
  by_cases dashed : Dashed argument
  · by_cases known : ∃ g : Group, g.text.head? = some argument
    · obtain ⟨g, head⟩ := known
      cases g with
      | output _ =>
        cases head
        cases rest with
        | nil => exact .inr ⟨_, .outputWithoutPath⟩
        | cons path rest => exact .inl ⟨.output path, rest, rfl, nofun⟩
      | cache dir =>
        cases head
        exact .inl ⟨.cache dir, rest, rfl, nofun⟩
      | sourceMap path =>
        cases head
        exact .inl ⟨.sourceMap path, rest, rfl, nofun⟩
      | minify =>
        cases head
        exact .inl ⟨.minify, rest, rfl, nofun⟩
      | package path plain =>
        cases head
        exact absurd dashed plain
    · exact .inr ⟨_, .unknownOption dashed (not_exists.mp known)⟩
  · by_cases first : values .package before = []
    · exact .inl ⟨.package argument dashed, rest, rfl, fun _ => first⟩
    · exact .inr ⟨_, .unexpectedArgument dashed first⟩

theorem Group.text_ne_nil (g : Group) : g.text ≠ [] := by
  cases g <;> exact List.cons_ne_nil _ _

/-- All arguments are groups, up to the first thing that is wrong. The groups read so far are carried along, since
another import path is wrong only behind a first one. -/
theorem exists_groups (before : List Group) (once : (values .package before).length ≤ 1) (arguments : List String) :
    ∃ groups rest, textOf groups ++ rest = textOf before ++ arguments ∧ (values .package groups).length ≤ 1 ∧
      (rest = [] ∨ ∃ e, Offends groups rest e) := by
  by_cases done : arguments = []
  · exact ⟨before, [], by rw [done], once, .inl rfl⟩
  · rcases exists_group before done with ⟨g, rest, more, free⟩ | wrong
    · have shorter : rest.length < arguments.length := by
        rw [← more, List.length_append]
        exact Nat.lt_add_of_pos_left (List.length_pos_of_ne_nil g.text_ne_nil)
      have still : (values .package (before ++ [g])).length ≤ 1 := by
        rw [values_concat]
        split
        next package => simp [free package]
        next => simpa using once
      obtain ⟨groups, rest', split, found⟩ := exists_groups (before ++ [g]) still rest
      refine ⟨groups, rest', ?_, found⟩
      rw [split, textOf_concat, List.append_assoc, more]
    · exact ⟨before, arguments, rfl, once, .inr wrong⟩
termination_by arguments.length
decreasing_by exact shorter

/-- Arguments are groups throughout, or something among them is wrong. -/
theorem whole_or_offends (arguments : List String) :
    (∃ groups, textOf groups = arguments ∧ (values .package groups).length ≤ 1) ∨
      ∃ before rest e, textOf before ++ rest = arguments ∧ (values .package before).length ≤ 1 ∧
        Offends before rest e := by
  obtain ⟨groups, rest, split, once, rfl | ⟨e, offends⟩⟩ := exists_groups [] (Nat.zero_le 1) arguments
  · exact .inl ⟨groups, (List.append_nil _).symm.trans split, once⟩
  · exact .inr ⟨groups, rest, e, split, once, offends⟩

/-! ### Accepted and refused arguments -/

/-- An invocation has one package. -/
theorem Tells.once {groups : List Group} {i : Invocation} (tells : Tells groups i) :
    (values .package groups).length ≤ 1 := by
  exact Nat.le_of_eq (congrArg List.length tells.package)

/-- Arguments are accepted exactly if they are the text of groups that tell an invocation. -/
theorem parse_eq_ok_iff {arguments : List String} {i : Invocation} :
    parse arguments = .ok i ↔ ∃ groups, textOf groups = arguments ∧ Tells groups i := by
  constructor
  · intro accepted
    rcases whole_or_offends arguments with ⟨groups, rfl, once⟩ | ⟨before, rest, e, rfl, once, offends⟩
    · rw [parse_textOf once, Draft.finish_foldl_add_eq_ok_iff once] at accepted
      exact ⟨groups, rfl, accepted⟩
    · rw [parse_of_offends once offends] at accepted
      cases accepted
  · rintro ⟨groups, rfl, tells⟩
    rw [parse_textOf tells.once]
    exact (Draft.finish_foldl_add_eq_ok_iff tells.once).mpr tells

/-- The error of a refused command line is determined by its arguments. -/
theorem parse_eq_error_iff {arguments : List String} {e : UsageError} :
    parse arguments = .error e ↔ Refused arguments e := by
  constructor
  · intro failed
    rcases whole_or_offends arguments with ⟨groups, rfl, once⟩ | ⟨before, rest, e', rfl, once, offends⟩
    · rw [parse_textOf once, Draft.finish_foldl_add_eq_error_iff once] at failed
      rcases failed with ⟨none, rfl⟩ | ⟨single, none, rfl⟩
      · exact .missingPackage rfl none
      · exact .missingCache rfl single none
    · rw [parse_of_offends once offends] at failed
      cases failed
      exact .offending rfl once offends
  · intro refused
    cases refused with
    | offending split once offends =>
      rw [← split]
      exact parse_of_offends once offends
    | @missingPackage groups whole none =>
      have once : (values .package groups).length ≤ 1 := by simp [none]
      rw [← whole, parse_textOf once, Draft.finish_foldl_add_eq_error_iff once]
      exact .inl ⟨none, rfl⟩
    | missingCache whole single none =>
      have once := Nat.le_of_eq single
      rw [← whole, parse_textOf once, Draft.finish_foldl_add_eq_error_iff once]
      exact .inr ⟨single, none, rfl⟩

/-- A command line is accepted if it is in groups, with one package and some cache among them. -/
theorem exists_parse_iff {arguments : List String} : (∃ i, parse arguments = .ok i) ↔
    ∃ groups, textOf groups = arguments ∧ (values .package groups).length = 1 ∧ values .cache groups ≠ [] := by
  simp only [parse_eq_ok_iff]
  constructor
  · rintro ⟨i, groups, whole, tells⟩
    refine ⟨groups, whole, by rw [tells.package]; rfl, fun none => ?_⟩
    have last := tells.cacheDir
    rw [none] at last
    cases last
  · rintro ⟨groups, whole, single, given⟩
    have once := Nat.le_of_eq single
    cases outcome : (groups.foldl Draft.add {}).finish with
    | ok i => exact ⟨i, groups, whole, (Draft.finish_foldl_add_eq_ok_iff once).mp outcome⟩
    | error e =>
      rcases (Draft.finish_foldl_add_eq_error_iff once).mp outcome with ⟨none, -⟩ | ⟨-, none, -⟩
      · rw [none] at single
        cases single
      · exact absurd none given

/-- There is only one way to read arguments as groups. -/
theorem textOf_injective {groups groups' : List Group} (same : textOf groups = textOf groups') : groups = groups' := by
  induction groups generalizing groups' with
  | nil =>
    cases groups' with
    | nil => rfl
    | cons g rest => exact absurd (List.append_eq_nil_iff.mp same.symm).1 g.text_ne_nil
  | cons g rest ih =>
    cases groups' with
    | nil => exact absurd (List.append_eq_nil_iff.mp same).1 g.text_ne_nil
    | cons g' rest' =>
      obtain ⟨rfl, others⟩ := Draft.eq_of_append_eq same
      rw [ih others]

/-! ### Other orders -/

/-- The same groups in another order, in which those of one kind come as before. -/
def Shuffled (groups groups' : List Group) : Prop :=
  ∀ kind, groups.filter (·.kind = kind) = groups'.filter (·.kind = kind)

theorem Shuffled.symm {groups groups' : List Group} (shuffled : Shuffled groups groups') : Shuffled groups' groups :=
  fun kind => (shuffled kind).symm

/-- Only the order of groups of one kind counts. -/
theorem Tells.shuffled {groups groups' : List Group} {i : Invocation} (tells : Tells groups i)
    (shuffled : Shuffled groups groups') : Tells groups' i := by
  have same (kind : Kind) : values kind groups' = values kind groups := by rw [values, values, shuffled]
  have minify (groups : List Group) : Group.minify ∈ groups ↔ Group.minify ∈ groups.filter (·.kind = .minify) := by
    simp [Group.kind]
  refine ⟨(same _).trans tells.package, ?_, ?_, ?_, ?_⟩
  · rw [same, tells.cacheDir]
  · rw [same, tells.output]
  · rw [same, tells.sourceMap]
  · rw [tells.minify, minify groups, minify groups', shuffled]

theorem parse_shuffled {groups groups' : List Group} (shuffled : Shuffled groups groups') (i : Invocation) :
    parse (textOf groups) = .ok i ↔ parse (textOf groups') = .ok i := by
  have onward {groups groups' : List Group} (shuffled : Shuffled groups groups')
      (accepted : parse (textOf groups) = .ok i) : parse (textOf groups') = .ok i := by
    obtain ⟨read, whole, tells⟩ := parse_eq_ok_iff.mp accepted
    rw [textOf_injective whole] at tells
    exact parse_eq_ok_iff.mpr ⟨groups', rfl, tells.shuffled shuffled⟩
  exact ⟨onward shuffled, onward shuffled.symm⟩

theorem perm_toList_iff {α : Type} {l : List α} {o : Option α} : l.Perm o.toList ↔ l = o.toList := by
  cases o with
  | none => exact List.perm_nil
  | some a => exact List.perm_singleton

/-- The groups of an invocation give each of its values once. -/
theorem values_groups {i : Invocation} (plain : ¬ Dashed i.package) (kind : Kind) :
    values kind (i.groups plain) = match kind with
      | .output => i.output.toList
      | .cache => [i.cacheDir]
      | .sourceMap => i.sourceMap.toList
      | .minify => if i.minify then [""] else []
      | .package => [i.package] := by
  obtain ⟨package, cacheDir, output, sourceMap, minify⟩ := i
  cases kind <;> cases output <;> cases sourceMap <;> cases minify <;> rfl

/-- An invocation is told by its own groups in any order. -/
theorem tells_of_perm {i : Invocation} {plain : ¬ Dashed i.package} {groups : List Group}
    (perm : groups.Perm (i.groups plain)) : Tells groups i := by
  have values_perm {kind : Kind} {given : List String} (known : values kind (i.groups plain) = given) :
      (values kind groups).Perm given := by
    rw [← known]
    exact (perm.filter _).map _
  have last {kind : Kind} {o : Option String} (known : values kind (i.groups plain) = o.toList) :
      (values kind groups).getLast? = o := by
    rw [perm_toList_iff.mp (values_perm known)]
    cases o <;> rfl
  refine ⟨List.perm_singleton.mp (values_perm (values_groups plain .package)), ?_, ?_, ?_, ?_⟩
  · exact last (o := some i.cacheDir) (values_groups plain .cache)
  · exact last (values_groups plain .output)
  · exact last (values_groups plain .sourceMap)
  · rw [perm.mem_iff]
    cases minify : i.minify <;> simp [Invocation.groups, minify]

/-- Arguments are accepted exactly if they are groups, which are determined then, with one import path and at least one
cache directory among them. The groups tell what is asked for, in whatever order those of different kinds come, so that
an invocation is read back from its groups in any order. Otherwise the first thing that is wrong with the arguments
decides about the error, and what is missing only if nothing is. -/
theorem parse_outcome (arguments : List String) :
    ((∃ i, parse arguments = .ok i) ↔
      ∃ groups, textOf groups = arguments ∧ (values .package groups).length = 1 ∧ values .cache groups ≠ []) ∧
    (∀ groups groups', textOf groups = arguments → textOf groups' = arguments → groups = groups') ∧
    (∀ i, parse arguments = .ok i ↔ ∃ groups, textOf groups = arguments ∧ Tells groups i) ∧
    (∀ groups groups' i, textOf groups = arguments → Shuffled groups groups' →
      (parse (textOf groups') = .ok i ↔ parse arguments = .ok i)) ∧
    (∀ (i : Invocation) (plain : ¬ Dashed i.package) (groups : List Group), groups.Perm (i.groups plain) →
      textOf groups = arguments → parse arguments = .ok i) ∧
    (∀ e, parse arguments = .error e ↔ Refused arguments e) := by
  refine ⟨exists_parse_iff, ?_, fun _ => parse_eq_ok_iff, ?_, ?_, fun _ => parse_eq_error_iff⟩
  · rintro groups groups' rfl same
    exact textOf_injective same.symm
  · rintro groups groups' i rfl shuffled
    exact parse_shuffled shuffled.symm i
  · intro i plain groups perm whole
    exact parse_eq_ok_iff.mpr ⟨groups, whole, tells_of_perm perm⟩

/-- An output option whose path looks like another option, and a cache directory that is overridden. -/
def mixed : List Group := [.output "--minify", .cache "a", .package "main" (by decide), .cache "b"]

def moved : List Group := [.package "main" (by decide), .cache "a", .cache "b", .output "--minify"]

def asked : Invocation := { package := "main", cacheDir := "b", output := some "--minify" }

/-- An output path may look like an option, and the last cache directory counts. -/
theorem parse_outcome_mixed :
    (textOf mixed = ["-o", "--minify", "--cache=a", "main", "--cache=b"] ∧ Tells mixed asked ∧
      parse ["-o", "--minify", "--cache=a", "main", "--cache=b"] = .ok asked) ∧
    (Shuffled mixed moved ∧ parse (textOf moved) = .ok asked) ∧
    ((asked.groups (by decide)).reverse.Perm (asked.groups (by decide)) ∧
      textOf (asked.groups (by decide)).reverse = ["-o", "--minify", "--cache=b", "main"] ∧
      parse ["-o", "--minify", "--cache=b", "main"] = .ok asked) ∧
    Refused ["main", "--cache=a", "other", "-x"] (.unexpectedArgument "other") := by
  have whole : textOf mixed = ["-o", "--minify", "--cache=a", "main", "--cache=b"] := rfl
  have tells : Tells mixed asked := ⟨rfl, rfl, rfl, rfl, by simp [mixed, asked]⟩
  have shuffled : Shuffled mixed moved := by
    intro kind
    cases kind <;> rfl
  have reversed : textOf (asked.groups (by decide)).reverse = ["-o", "--minify", "--cache=b", "main"] := rfl
  have perm := List.reverse_perm (asked.groups (by decide))
  obtain ⟨-, -, accepted, moves, -⟩ := parse_outcome ["-o", "--minify", "--cache=a", "main", "--cache=b"]
  obtain ⟨-, -, -, -, recovered, -⟩ := parse_outcome ["-o", "--minify", "--cache=b", "main"]
  obtain ⟨-, -, -, -, -, refused⟩ := parse_outcome ["main", "--cache=a", "other", "-x"]
  have read := (accepted asked).mpr ⟨mixed, whole, tells⟩
  exact ⟨⟨whole, tells, read⟩, ⟨shuffled, (moves _ _ asked whole shuffled).mpr read⟩,
    ⟨perm, reversed, recovered asked _ _ perm reversed⟩, (refused _).mp (by rfl)⟩

end Invocation
end Linkage
