import Linkage.Proofs.Disk.Changes

/-!
# Trails

Where a path leads is a matter of its components. The disk only has a say in whether it gets there: the places on the
trail have to be directories. So a change that leaves the trail alone leaves the path alone, and directories that are
missing on it can be made.
-/
namespace Linkage

namespace Path

/-- The place that a component leads to. -/
def step (place : Location) (component : String) : Location :=
  if component = "" ∨ component = "." then place else if component = ".." then place.tail else component :: place

/-- The places that components lead through, the last of them included. -/
def trail (place : Location) : List String → List Location
  | [] => [place]
  | component :: rest => place :: trail (step place component) rest

theorem mem_trail_self (place : Location) (components : List String) : place ∈ trail place components := by
  cases components with
  | nil => exact List.mem_singleton_self place
  | cons component rest => exact List.mem_cons_self

end Path

namespace Disk

variable {d d' : Disk} {place next goal : Location} {components : List String} {component path : String} {made : Bool}

/-- One step of a walk passes a directory and takes a component that is not too long. -/
theorem enter_eq_ok_iff_step :
    d.enter place component = .ok next ↔
      d.entryAt place = some .directory ∧ component.utf8ByteSize ≤ longestName ∧ next = Path.step place component := by
  have ok (place : Location) : (Except.ok place : Except DiskError Location) = .ok next ↔ next = place := by
    rw [Except.ok.injEq, eq_comm]
  unfold enter Path.step
  cases found : d.entryAt place with
  | none => simp
  | some e =>
    cases e with
    | file bytes => simp
    | directory =>
      by_cases stays : component = "" ∨ component = "."
      · have short : component.utf8ByteSize ≤ longestName := by rcases stays with rfl | rfl <;> decide
        simp only [if_pos stays, ok, short, true_and]
      · by_cases up : component = ".."
        · have short : component.utf8ByteSize ≤ longestName := by subst up; decide
          simp only [if_neg stays, if_pos up, ok, short, true_and]
        · by_cases short : component.utf8ByteSize ≤ longestName
          · simp only [if_neg stays, if_neg up, if_neg (Nat.not_lt.mpr short), ok, short, true_and]
          · simp only [if_neg stays, if_neg up, if_pos (Nat.lt_of_not_le short), short, false_and, and_false,
              reduceCtorEq]

theorem walk_cons (place : Location) (component : String) (rest : List String) :
    d.walk place (component :: rest) = d.enter place component >>= (d.walk · rest) := List.foldlM_cons ..

/-- A path leads to a directory if there are directories all the way. -/
theorem walk_eq_ok_iff :
    d.walk place components = .ok goal ∧ d.entryAt goal = some .directory ↔
      (∀ stop ∈ Path.trail place components, d.entryAt stop = some .directory) ∧
        (∀ component ∈ components, component.utf8ByteSize ≤ longestName) ∧
        goal = components.foldl Path.step place := by
  induction components generalizing place with
  | nil =>
    simp only [walk, List.foldlM_nil, pure, Except.pure, Except.ok.injEq, Path.trail, List.mem_singleton, forall_eq,
      List.not_mem_nil, false_imp_iff, implies_true, true_and, List.foldl_nil]
    constructor
    · rintro ⟨rfl, directory⟩
      exact ⟨directory, rfl⟩
    · rintro ⟨directory, rfl⟩
      exact ⟨rfl, directory⟩
  | cons component rest ih =>
    rw [walk_cons, Path.trail, List.forall_mem_cons, List.forall_mem_cons, List.foldl_cons]
    constructor
    · rintro ⟨walked, directory⟩
      cases entered : d.enter place component with
      | error cause => simp [entered, bind, Except.bind] at walked
      | ok next =>
        rw [entered] at walked
        obtain ⟨here, short, rfl⟩ := enter_eq_ok_iff_step.mp entered
        obtain ⟨stops, others, reached⟩ := ih.mp ⟨walked, directory⟩
        exact ⟨⟨here, stops⟩, ⟨short, others⟩, reached⟩
    · rintro ⟨⟨here, stops⟩, ⟨short, others⟩, reached⟩
      rw [enter_eq_ok_iff_step.mpr ⟨here, short, rfl⟩]
      exact ih.mpr ⟨stops, others, reached⟩

/-! ### Making directories -/

/-- A directory that is there already is passed. -/
theorem run_makeFrom_of_directory {rest : List String} (entered : d.enter place component = .ok next)
    (directory : d.entryAt next = some .directory) :
    (makeFrom made place (component :: rest)).run d = (makeFrom made next rest).run d := by
  have asked : (ask (·.enter place component)).run d = .ok next d := run_ask entered
  simp only [makeFrom, EStateM.run_bind, asked, EStateM.run_get, directory]

/-- A directory that is missing is made, and the walk goes on inside of it. -/
theorem run_makeFrom_of_missing {rest : List String} (entered : d.enter place component = .ok next)
    (missing : d.entryAt next = none) (named : areDots rest = false) :
    (makeFrom made place (component :: rest)).run d =
      (makeFrom true next rest).run (d.change (.makeDirectory next)) := by
  have asked : (ask (·.enter place component)).run d = .ok next d := run_ask entered
  simp only [makeFrom, EStateM.run_bind, asked, EStateM.run_get, missing, named, Bool.false_eq_true, if_false,
    EStateM.run_modify]

/-- Directories that are there are not made again. -/
theorem run_makeFrom_of_trail (short : ∀ component ∈ components, component.utf8ByteSize ≤ longestName)
    (stops : ∀ stop ∈ Path.trail place components, d.entryAt stop = some .directory) :
    (makeFrom made place components).run d = .ok () d := by
  induction components generalizing place made with
  | nil => simp only [makeFrom, EStateM.run_pure]
  | cons component rest ih =>
    rw [List.forall_mem_cons] at short
    rw [Path.trail, List.forall_mem_cons] at stops
    have entered : d.enter place component = .ok (Path.step place component) :=
      enter_eq_ok_iff_step.mpr ⟨stops.1, short.1, rfl⟩
    rw [run_makeFrom_of_directory entered (stops.2 _ (Path.mem_trail_self _ rest))]
    exact ih short.2 stops.2

/-- Where only the last directory is missing, that one is made. It can be passed on the way to it. -/
theorem run_makeFrom_of_missing_goal {name : String} {around : Location}
    (short : ∀ component ∈ components, component.utf8ByteSize ≤ longestName)
    (named : ∀ rest, rest <:+ components → areDots rest = false)
    (goal : components.foldl Path.step place = name :: around) (begins : d.entryAt place = some .directory)
    (missing : d.entryAt (name :: around) = none)
    (stops : ∀ stop ∈ Path.trail place components, stop ≠ name :: around → d.entryAt stop = some .directory) :
    (makeFrom made place components).run d = .ok () (d.change (.makeDirectory (name :: around))) := by
  induction components generalizing place made with
  | nil =>
    obtain rfl : place = name :: around := goal
    rw [missing] at begins
    cases begins
  | cons component rest ih =>
    rw [List.forall_mem_cons] at short
    rw [Path.trail, List.forall_mem_cons] at stops
    have entered : d.enter place component = .ok (Path.step place component) :=
      enter_eq_ok_iff_step.mpr ⟨begins, short.1, rfl⟩
    have behind : ∀ others, others <:+ rest → areDots others = false := fun others suffix =>
      named others (suffix.trans (List.suffix_cons component rest))
    by_cases here : Path.step place component = name :: around
    · -- From here on all directories are there.
      rw [here] at entered
      rw [run_makeFrom_of_missing entered missing (behind rest (List.suffix_refl rest))]
      refine run_makeFrom_of_trail short.2 fun stop passed => ?_
      rw [← here] at passed
      by_cases made : stop = name :: around
      · exact (entryAt_makeDirectory name around stop).trans (if_pos made)
      · exact (entryAt_makeDirectory name around stop).trans ((if_neg made).trans (stops.2 stop passed made))
    · have directory := stops.2 _ (Path.mem_trail_self _ rest) here
      rw [run_makeFrom_of_directory entered directory]
      exact ih short.2 behind goal directory stops.2

theorem entryAt_nil : d.entryAt [] = some .directory := rfl

theorem home_change (d : Disk) (c : Change) : (d.change c).home = d.home := by
  cases c <;> rfl

/-- Directories are only made along a walk that the disk permits. -/
theorem enter_of_makeFrom {rest : List String} (ran : (makeFrom made place (component :: rest)).run d = .ok () d') :
    d.enter place component = .ok (Path.step place component) := by
  cases entered : d.enter place component with
  | error cause =>
    have asked : (ask (·.enter place component)).run d = .error cause d := run_ask_error entered
    simp [makeFrom, EStateM.run_bind, asked] at ran
  | ok next => rw [(enter_eq_ok_iff_step.mp entered).2.2]

/-- Nothing is lost, and all that is new are directories. -/
structure Grows (d d' : Disk) : Prop where
  home : d'.home = d.home
  kept : ∀ {stop : Location} {e : Entry}, d.entryAt stop = some e → d'.entryAt stop = some e
  added : ∀ {stop : Location} {e : Entry}, d'.entryAt stop = some e → d.entryAt stop = some e ∨ e = .directory

namespace Grows

theorem refl (d : Disk) : Grows d d := ⟨rfl, id, .inl⟩

theorem trans {later : Disk} (first : Grows d d') (second : Grows d' later) : Grows d later where
  home := second.home.trans first.home
  kept found := second.kept (first.kept found)
  added found := (second.added found).elim first.added .inr

/-- Making a directory adds one entry and loses none. -/
theorem makeDirectory (missing : d.entryAt place = none) : Grows d (d.change (.makeDirectory place)) := by
  cases place with
  | nil => cases missing
  | cons name around =>
    have there := entryAt_makeDirectory (d := d) name around
    refine ⟨home_change d _, fun {stop e} found => ?_, fun {stop e} found => ?_⟩
    · rw [there, if_neg, found]
      rintro rfl
      rw [missing] at found
      cases found
    · rw [there] at found
      split at found
      · exact .inr (Option.some.inj found).symm
      · exact .inl found

end Grows

/-- Making directories ends with directories all the way, and loses nothing. -/
theorem trail_of_makeFrom (ran : (makeFrom made place components).run d = .ok () d')
    (begins : d.entryAt place = some .directory) :
    Grows d d' ∧ (∀ stop ∈ Path.trail place components, d'.entryAt stop = some .directory) ∧
      ∀ component ∈ components, component.utf8ByteSize ≤ longestName := by
  induction components generalizing place made d with
  | nil =>
    simp only [makeFrom, EStateM.run_pure, EStateM.Result.ok.injEq, true_and] at ran
    subst ran
    exact ⟨.refl d, fun stop here => List.mem_singleton.mp here ▸ begins, nofun⟩
  | cons component rest ih =>
    have entered := enter_of_makeFrom ran
    have short := (enter_eq_ok_iff_step.mp entered).2.1
    have asked : (ask (·.enter place component)).run d = .ok (Path.step place component) d := run_ask entered
    rw [Path.trail, List.forall_mem_cons, List.forall_mem_cons]
    cases found : d.entryAt (Path.step place component) with
    | none =>
      cases named : areDots rest with
      | true => simp [makeFrom, EStateM.run_bind, asked, found, named] at ran
      | false =>
        rw [run_makeFrom_of_missing entered found named] at ran
        have made : (d.change (.makeDirectory (Path.step place component))).entryAt (Path.step place component) =
            some .directory := by
          cases location : Path.step place component with
          | nil => exact entryAt_nil
          | cons name around => exact (entryAt_makeDirectory name around _).trans (if_pos rfl)
        obtain ⟨grows, stops, others⟩ := ih ran made
        have grows := (Grows.makeDirectory found).trans grows
        exact ⟨grows, ⟨grows.kept begins, stops⟩, short, others⟩
    | some e =>
      cases e with
      | file bytes => simp [makeFrom, EStateM.run_bind, asked, found] at ran
      | directory =>
        rw [run_makeFrom_of_directory entered found] at ran
        obtain ⟨grows, stops, others⟩ := ih ran found
        exact ⟨grows, ⟨grows.kept begins, stops⟩, short, others⟩

end Disk
end Linkage
