import Linkage.Proofs.Selection.Sites

/-!
# The invariant of the worklist

Candidates wait for exactly those of their keys that no selected declaration has listed, the index leads from a key
to exactly the candidates that wait for it, and a declaration is ready or selected exactly if it waits for nothing.
The last of these holds even while the candidates of one key are served, which is what makes a candidate ready once.
-/
namespace Linkage

namespace Candidate

@[simp] theorem isReady_iff (c : Candidate) : c.isReady = true ↔ c.unmet = [] := by
  simp [isReady]

@[simp] theorem meet_place (c : Candidate) (key : String) : (c.meet key).place = c.place := rfl

theorem mem_meet_unmet (c : Candidate) (key other : String) :
    other ∈ (c.meet key).unmet ↔ other ∈ c.unmet ∧ other ≠ key := by
  simp [meet]

theorem meet_eq_self {c : Candidate} {key : String} (absent : key ∉ c.unmet) : c.meet key = c := by
  have kept : c.unmet.filter (· ≠ key) = c.unmet := by
    rw [List.filter_eq_self]
    intro other member
    simpa using fun same : other = key => absent (same ▸ member)
  rw [meet, kept]

theorem meet_meet (c : Candidate) (key : String) : (c.meet key).meet key = c.meet key :=
  meet_eq_self (by simp [mem_meet_unmet])

end Candidate

namespace Worklist

variable {sites : List (Place × Site)} {met : List String} {w : Worklist}

def rootPlaces (sites : List (Place × Site)) : List Place :=
  (sites.filter fun (_, s) => s.declaration.isRoot).map (·.1)

/-- The candidates among `sites` once the keys in `met` are listed. -/
def waiting (met : List String) (sites : List (Place × Site)) : List Candidate :=
  (sites.filter fun (_, s) => !s.declaration.isRoot).map fun (place, s) => ⟨place, s.keys.filter (· ∉ met)⟩

/-- Listing one key more strikes it from every candidate that still waits. -/
theorem waiting_cons (key : String) (met : List String) (sites : List (Place × Site)) :
    waiting (key :: met) sites = (waiting met sites).map (·.meet key) := by
  simp only [waiting, List.map_map]
  congr 1
  funext ⟨place, s⟩
  simp only [Function.comp, Candidate.meet, List.filter_filter, Candidate.mk.injEq, true_and]
  congr 1
  funext other
  simp [Bool.decide_and]

/-- Each candidate stands for a place of its own, which is ready or selected exactly if the candidate waits for
nothing; the roots make up the rest of what is ready or selected. -/
structure Balanced (roots : List Place) (w : Worklist) : Prop where
  distinct : ∀ {i j : Nat} {c d : Candidate}, w.candidates[i]? = some c → w.candidates[j]? = some d →
    c.place = d.place → i = j
  nonroot : ∀ {i : Nat} {c : Candidate}, w.candidates[i]? = some c → c.place ∉ roots
  ready_nodup : w.ready.Nodup
  unselected : ∀ place ∈ w.ready, w.selected.contains place = false
  reached_iff : ∀ place, (place ∈ w.ready ∨ w.selected.contains place = true) ↔
    place ∈ roots ∨ ∃ (i : Nat) (c : Candidate), w.candidates[i]? = some c ∧ c.place = place ∧ c.unmet = []

/-- The index leads from each key to the candidates that wait for it. -/
def Indexed (w : Worklist) : Prop :=
  ∀ key number, number ∈ w.index.getD key [] ↔ ∃ c, w.candidates[number]? = some c ∧ key ∈ c.unmet

/-- The worklist holds `sites`, and the keys in `met` are those listed so far. -/
structure Tracks (sites : List (Place × Site)) (met : List String) (w : Worklist) : Prop where
  candidates : w.candidates.toList = waiting met sites
  indexed : Indexed w
  balanced : Balanced (rootPlaces sites) w

/-! ### Serving one candidate -/

@[simp] theorem meetOne_selected (key : String) (w : Worklist) (number : Nat) :
    (meetOne key w number).selected = w.selected := by
  unfold meetOne
  split
  · rfl
  · split <;> rfl

@[simp] theorem meetOne_index (key : String) (w : Worklist) (number : Nat) :
    (meetOne key w number).index = w.index := by
  unfold meetOne
  split
  · rfl
  · split <;> rfl

/-- Serving a candidate changes it alone, and strikes the key from what it waits for. -/
theorem meetOne_candidates (key : String) (w : Worklist) (number i : Nat) :
    (meetOne key w number).candidates[i]? =
      if i = number then w.candidates[i]?.map (·.meet key) else w.candidates[i]? := by
  unfold meetOne
  split
  next absent =>
    split
    next same => rw [same, absent, Option.map_none]
    next => rfl
  next c found =>
    split
    next done =>
      have untouched : c.meet key = c := Candidate.meet_eq_self (by simp [(c.isReady_iff).mp done])
      split
      next same => rw [same, found, Option.map_some, untouched]
      next => rfl
    next waits =>
      rw [Array.getElem?_setIfInBounds]
      grind

/-- A served candidate becomes ready if the key was the last that it waited for, and only then. -/
theorem meetOne_ready (key : String) (w : Worklist) (number : Nat) :
    (meetOne key w number).ready =
      match w.candidates[number]? with
      | some c => if c.unmet ≠ [] ∧ (c.meet key).unmet = [] then c.place :: w.ready else w.ready
      | none => w.ready := by
  unfold meetOne
  cases w.candidates[number]? with
  | none => rfl
  | some c =>
    by_cases done : c.unmet = [] <;> by_cases last : (c.meet key).unmet = [] <;>
      simp [done, last, Candidate.isReady]

/-- The candidate with this number stands for `place`, and `key` is the last key that it waits for. -/
def Completes (key : String) (w : Worklist) (number : Nat) (place : Place) : Prop :=
  ∃ c, w.candidates[number]? = some c ∧ c.place = place ∧ c.unmet ≠ [] ∧ (c.meet key).unmet = []

theorem mem_meetOne_ready {key : String} {number : Nat} {place : Place} :
    place ∈ (meetOne key w number).ready ↔ place ∈ w.ready ∨ Completes key w number place := by
  rw [meetOne_ready, Completes]
  cases w.candidates[number]? with
  | none => simp
  | some c =>
    dsimp only
    split
    next last =>
      rw [List.mem_cons, or_comm]
      refine or_congr_right ⟨?_, ?_⟩
      · rintro rfl
        exact ⟨c, rfl, rfl, last⟩
      · rintro ⟨d, same, rfl, _⟩
        exact congrArg Candidate.place (Option.some.inj same).symm
    next lasts =>
      refine (or_iff_left ?_).symm
      rintro ⟨d, same, _, last⟩
      exact lasts (Option.some.inj same ▸ last)

/-- The places of satisfied candidates grow by the one that is completed. -/
theorem exists_meetOne_candidates {key : String} {number : Nat} {place : Place} :
    (∃ (i : Nat) (c : Candidate),
        (meetOne key w number).candidates[i]? = some c ∧ c.place = place ∧ c.unmet = []) ↔
      (∃ (i : Nat) (c : Candidate), w.candidates[i]? = some c ∧ c.place = place ∧ c.unmet = []) ∨
        Completes key w number place := by
  simp only [meetOne_candidates]
  constructor
  · rintro ⟨i, c, found, same, done⟩
    split at found
    next here =>
      obtain ⟨d, before, rfl⟩ := Option.map_eq_some_iff.mp found
      -- The candidate that was served waited for nothing before, or the key was its last one.
      by_cases already : d.unmet = []
      · exact .inl ⟨i, d, before, same, already⟩
      · exact .inr ⟨d, here ▸ before, same, already, done⟩
    next => exact .inl ⟨i, c, found, same, done⟩
  · rintro (⟨i, c, found, same, done⟩ | ⟨c, found, same, _, done⟩)
    · by_cases here : i = number
      · exact ⟨i, c.meet key, by simp [here ▸ found, here], same, by simp [Candidate.meet, done]⟩
      · exact ⟨i, c, by simp [here, found], same, done⟩
    · exact ⟨number, c.meet key, by simp [found], same, done⟩

theorem place_of_meetOne {key : String} {number i : Nat} {c : Candidate}
    (found : (meetOne key w number).candidates[i]? = some c) :
    ∃ d, w.candidates[i]? = some d ∧ d.place = c.place := by
  rw [meetOne_candidates] at found
  split at found
  next =>
    obtain ⟨d, before, rfl⟩ := Option.map_eq_some_iff.mp found
    exact ⟨d, before, rfl⟩
  next => exact ⟨c, found, rfl⟩

/-- A candidate that still waits is neither ready nor selected. -/
theorem Balanced.not_reached {roots : List Place} {number : Nat} {c : Candidate} (balanced : Balanced roots w)
    (found : w.candidates[number]? = some c) (waits : c.unmet ≠ []) :
    ¬ (c.place ∈ w.ready ∨ w.selected.contains c.place = true) := by
  rw [balanced.reached_iff]
  rintro (root | ⟨i, d, there, same, done⟩)
  · exact balanced.nonroot found root
  -- No other candidate has its place, and it waits itself.
  · obtain rfl := balanced.distinct there found same
    rw [found] at there
    cases there
    exact waits done

/-- No candidate becomes ready twice: it had to be waiting before. -/
theorem meetOne_balanced {roots : List Place} (key : String) (number : Nat) (balanced : Balanced roots w) :
    Balanced roots (meetOne key w number) where
  distinct {i j c d} atI atJ same := by
    obtain ⟨c', wasI, sameC⟩ := place_of_meetOne atI
    obtain ⟨d', wasJ, sameD⟩ := place_of_meetOne atJ
    exact balanced.distinct wasI wasJ (sameC.trans (same.trans sameD.symm))
  nonroot {i c} found := by
    obtain ⟨d, before, same⟩ := place_of_meetOne found
    exact same ▸ balanced.nonroot before
  ready_nodup := by
    rw [meetOne_ready]
    split
    next c found =>
      split
      next last =>
        -- It has waited until now, so its place is not listed yet.
        have fresh := balanced.not_reached found last.1
        exact List.nodup_cons.mpr ⟨fun member => fresh (.inl member), balanced.ready_nodup⟩
      next => exact balanced.ready_nodup
    next => exact balanced.ready_nodup
  unselected place member := by
    rw [meetOne_selected]
    rcases mem_meetOne_ready.mp member with old | ⟨c, found, rfl, waits, _⟩
    · exact balanced.unselected place old
    · simpa using fun selected => balanced.not_reached found waits (.inr selected)
  reached_iff place := by
    rw [mem_meetOne_ready, exists_meetOne_candidates, meetOne_selected, ← or_assoc, ← balanced.reached_iff]
    exact or_right_comm

/-! ### Serving the candidates of a key -/

theorem foldl_meetOne_selected (key : String) (numbers : List Nat) (w : Worklist) :
    (numbers.foldl (meetOne key) w).selected = w.selected := by
  induction numbers generalizing w with
  | nil => rfl
  | cons number rest ih => rw [List.foldl_cons, ih, meetOne_selected]

theorem foldl_meetOne_index (key : String) (numbers : List Nat) (w : Worklist) :
    (numbers.foldl (meetOne key) w).index = w.index := by
  induction numbers generalizing w with
  | nil => rfl
  | cons number rest ih => rw [List.foldl_cons, ih, meetOne_index]

theorem foldl_meetOne_balanced {roots : List Place} (key : String) (numbers : List Nat)
    (balanced : Balanced roots w) : Balanced roots (numbers.foldl (meetOne key) w) := by
  induction numbers generalizing w with
  | nil => exact balanced
  | cons number rest ih => exact ih (meetOne_balanced key number balanced)

/-- A number that occurs twice in the list strikes the key only once, since striking is idempotent. -/
theorem foldl_meetOne_candidates (key : String) (numbers : List Nat) (w : Worklist) (i : Nat) :
    (numbers.foldl (meetOne key) w).candidates[i]? =
      if i ∈ numbers then w.candidates[i]?.map (·.meet key) else w.candidates[i]? := by
  induction numbers generalizing w with
  | nil => simp
  | cons number rest ih =>
    rw [List.foldl_cons, ih, meetOne_candidates]
    -- A number may come twice: the second time its candidate no longer waits for the key.
    by_cases here : i = number <;> by_cases later : i ∈ rest <;>
      simp [here, later, Function.comp_def, Candidate.meet_meet]

/-! ### Meeting a key -/

@[simp] theorem meet_selected (w : Worklist) (key : String) : (w.meet key).selected = w.selected := by
  unfold meet
  split
  · rfl
  · rw [foldl_meetOne_selected]

/-- A key that has been met leads to no candidate any more. -/
theorem getD_meet_index (w : Worklist) (key other : String) :
    (w.meet key).index.getD other [] = if other = key then [] else w.index.getD other [] := by
  unfold meet
  split
  next absent =>
    split
    next same => rw [same, Std.TreeMap.getD_eq_getD_getElem?, absent, Option.getD_none]
    next => rfl
  next =>
    rw [foldl_meetOne_index, Std.TreeMap.getD_erase]
    simp only [Std.LawfulEqOrd.compare_eq_iff_eq, eq_comm (a := key)]

theorem meet_balanced {roots : List Place} (key : String) (balanced : Balanced roots w) :
    Balanced roots (w.meet key) := by
  unfold meet
  split
  · exact balanced
  · exact foldl_meetOne_balanced key _ ⟨balanced.distinct, balanced.nonroot, balanced.ready_nodup,
      balanced.unselected, balanced.reached_iff⟩

/-- The index misses no candidate, so those that it does not lead to are already as they should be. -/
theorem Indexed.meet_eq_self (indexed : Indexed w) {key : String} {i : Nat} {c : Candidate}
    (found : w.candidates[i]? = some c) (absent : i ∉ w.index.getD key []) : c.meet key = c :=
  Candidate.meet_eq_self fun waits => absent ((indexed key i).mpr ⟨c, found, waits⟩)

/-- Following the index amounts to striking the key from all candidates. -/
theorem meet_candidates (indexed : Indexed w) (key : String) :
    (w.meet key).candidates = w.candidates.map (·.meet key) := by
  apply Array.ext_getElem?
  intro i
  have served : (w.meet key).candidates[i]? = if i ∈ w.index.getD key [] then
      w.candidates[i]?.map (·.meet key) else w.candidates[i]? := by
    rw [Std.TreeMap.getD_eq_getD_getElem?]
    unfold meet
    cases w.index[key]? with
    | none => simp
    | some numbers => simp [foldl_meetOne_candidates]
  rw [served, Array.getElem?_map]
  split
  next => rfl
  -- The index does not lead to this candidate, so it does not wait for the key.
  next absent =>
    cases found : w.candidates[i]? with
    | none => rfl
    | some c => rw [Option.map_some, indexed.meet_eq_self found absent]

/-- What the index says of the other keys stays true. -/
theorem meet_indexed (indexed : Indexed w) (key : String) : Indexed (w.meet key) := by
  intro other number
  rw [getD_meet_index, meet_candidates indexed, Array.getElem?_map]
  by_cases same : other = key
  · simp [same, Candidate.mem_meet_unmet]
  · simp [same, indexed other number, Candidate.mem_meet_unmet]

/-- Meeting a key is what the worklist does for one entry of the deps of a selected declaration. -/
theorem Tracks.meet (tracks : Tracks sites met w) (key : String) : Tracks sites (key :: met) (w.meet key) where
  candidates := by rw [meet_candidates tracks.indexed, Array.toList_map, tracks.candidates, waiting_cons]
  indexed := meet_indexed tracks.indexed key
  balanced := meet_balanced key tracks.balanced

theorem Tracks.foldl_meet (tracks : Tracks sites met w) (listed : List String) :
    Tracks sites (listed.reverse ++ met) (listed.foldl Worklist.meet w) := by
  induction listed generalizing w met with
  | nil => exact tracks
  | cons key rest ih =>
    rw [List.foldl_cons, List.reverse_cons, List.append_assoc]
    exact ih (tracks.meet key)

theorem foldl_meet_selected (listed : List String) (w : Worklist) :
    (listed.foldl meet w).selected = w.selected := by
  induction listed generalizing w with
  | nil => rfl
  | cons key rest ih => rw [List.foldl_cons, ih, meet_selected]

/-- What is ready or selected are the declarations all of whose keys are listed. -/
theorem Tracks.reached_iff (tracks : Tracks sites met w) (place : Place) :
    (place ∈ w.ready ∨ w.selected.contains place = true) ↔
      ∃ s, (place, s) ∈ sites ∧ ∀ key ∈ s.keys, key ∈ met := by
  rw [tracks.balanced.reached_iff]
  have candidate : (∃ (i : Nat) (c : Candidate), w.candidates[i]? = some c ∧ c.place = place ∧ c.unmet = []) ↔
      ∃ c ∈ waiting met sites, c.place = place ∧ c.unmet = [] := by
    simp only [← tracks.candidates, List.mem_iff_getElem?, Array.getElem?_toList]
    constructor
    · rintro ⟨i, c, found, rest⟩
      exact ⟨c, ⟨i, found⟩, rest⟩
    · rintro ⟨c, ⟨i, found⟩, rest⟩
      exact ⟨i, c, found, rest⟩
  rw [candidate]
  -- Roots have no keys at all, and a candidate waits for those of its keys that are not listed.
  simp only [rootPlaces, waiting, List.mem_map, List.mem_filter, Prod.exists]
  constructor
  · rintro (⟨place, s, ⟨member, root⟩, rfl⟩ | ⟨_, ⟨place, s, ⟨member, _⟩, rfl⟩, rfl, done⟩)
    · refine ⟨s, member, fun key needed => ?_⟩
      rw [(s.keys_eq_nil_iff).mpr root] at needed
      exact absurd needed List.not_mem_nil
    · refine ⟨s, member, fun key needed => ?_⟩
      simpa using List.filter_eq_nil_iff.mp done key needed
  · rintro ⟨s, member, listed⟩
    cases root : s.declaration.isRoot with
    | true => exact .inl ⟨place, s, ⟨member, root⟩, rfl⟩
    | false =>
      refine .inr ⟨_, ⟨place, s, ⟨member, by simp [root]⟩, rfl⟩, rfl, ?_⟩
      exact List.filter_eq_nil_iff.mpr fun key needed => by simpa using listed key needed

/-! ### Loading a program -/

/-- A key that a declaration has twice leads to its number twice. -/
theorem mem_getD_foldl_insert (keys : List String) (number other : Nat) (key : String)
    (index : Std.TreeMap String (List Nat)) :
    other ∈ (keys.foldl (fun index key => index.insert key (index.getD key [] ++ [number])) index).getD key [] ↔
      other ∈ index.getD key [] ∨ key ∈ keys ∧ other = number := by
  induction keys generalizing index with
  | nil => simp
  | cons first rest ih =>
    rw [List.foldl_cons, ih, Std.TreeMap.getD_insert]
    by_cases same : first = key
    · subst same
      simp only [Std.ReflCmp.compare_self, ite_true, List.mem_append, List.mem_singleton, List.mem_cons_self,
        true_and, or_assoc, or_iff_left_of_imp And.right]
    · simp [same, Ne.symm same]

/-- The worklist knows no places but those of the sites that it tracks. -/
theorem Tracks.place_mem (tracks : Tracks sites met w) {i : Nat} {c : Candidate}
    (found : w.candidates[i]? = some c) : c.place ∈ sites.map (·.1) := by
  have member : c ∈ waiting met sites := by
    rw [← tracks.candidates, Array.mem_toList_iff]
    exact Array.mem_of_getElem? found
  obtain ⟨x, kept, rfl⟩ := List.mem_map.mp member
  exact List.mem_map_of_mem (List.mem_filter.mp kept).1

theorem Tracks.not_reached {place : Place} (tracks : Tracks sites met w) (fresh : place ∉ sites.map (·.1)) :
    ¬ (place ∈ w.ready ∨ w.selected.contains place = true) := by
  rw [tracks.reached_iff]
  rintro ⟨s, member, _⟩
  exact fresh (List.mem_map_of_mem member)

/-- A declaration without filters is ready at once. -/
theorem Tracks.addRoot {place : Place} {s : Site} (tracks : Tracks sites [] w)
    (fresh : place ∉ sites.map (·.1)) (root : s.declaration.isRoot = true) :
    Tracks (sites ++ [(place, s)]) [] { w with ready := place :: w.ready } := by
  have unreached := tracks.not_reached fresh
  -- No candidate and no other root has this place.
  have roots : rootPlaces (sites ++ [(place, s)]) = rootPlaces sites ++ [place] := by simp [rootPlaces, root]
  refine ⟨by simp [tracks.candidates, waiting, root], tracks.indexed, ?_⟩
  rw [roots]
  refine ⟨tracks.balanced.distinct, fun found => ?_, ?_, fun other member => ?_, fun other => ?_⟩
  · rw [List.mem_append, List.mem_singleton]
    rintro (old | same)
    · exact tracks.balanced.nonroot found old
    · exact fresh (same ▸ tracks.place_mem found)
  · exact List.nodup_cons.mpr ⟨fun member => unreached (.inl member), tracks.balanced.ready_nodup⟩
  · rcases List.mem_cons.mp member with rfl | old
    · simpa using fun selected => unreached (.inr selected)
    · exact tracks.balanced.unselected other old
  · rw [List.mem_cons, List.mem_append, List.mem_singleton, or_assoc, tracks.balanced.reached_iff, or_left_comm,
      or_assoc]

/-- A candidate that is put at the end is found through each of its keys. -/
theorem Indexed.push (indexed : Indexed w) (place : Place) (keys : List String) :
    Indexed { w with
      candidates := w.candidates.push ⟨place, keys⟩
      index := keys.foldl
        (fun index key => index.insert key (index.getD key [] ++ [w.candidates.size])) w.index } := by
  intro key number
  -- Only the keys of the new candidate lead to its number, which is the next free one.
  rw [mem_getD_foldl_insert, indexed key number]
  simp only [Array.getElem?_push]
  by_cases last : number = w.candidates.size
  · simp [last]
  · simp [last]

/-- A new candidate that waits for something is not reached, so the balance stays. -/
theorem Balanced.push {roots : List Place} {place : Place} {keys : List String} (balanced : Balanced roots w)
    (unlisted : ∀ {i : Nat} {c : Candidate}, w.candidates[i]? = some c → c.place ≠ place) (nonroot : place ∉ roots)
    (keyed : keys ≠ []) (index : Std.TreeMap String (List Nat)) :
    Balanced roots { w with candidates := w.candidates.push ⟨place, keys⟩, index } where
  distinct atI atJ same := by
    rw [Array.getElem?_push] at atI atJ
    split at atI <;> split at atJ
    next hereI hereJ => exact hereI.trans hereJ.symm
    next => cases atI; exact absurd same.symm (unlisted atJ)
    next => cases atJ; exact absurd same (unlisted atI)
    next => exact balanced.distinct atI atJ same
  nonroot found := by
    rw [Array.getElem?_push] at found
    split at found
    next => cases found; exact nonroot
    next => exact balanced.nonroot found
  ready_nodup := balanced.ready_nodup
  unselected := balanced.unselected
  reached_iff other := by
    -- The new candidate has keys to wait for, so it adds nothing to what is reached.
    rw [balanced.reached_iff]
    refine or_congr_right ⟨?_, ?_⟩
    · rintro ⟨i, c, found, rest⟩
      have inside : i ≠ w.candidates.size := Nat.ne_of_lt (Array.getElem?_eq_some_iff.mp found).1
      exact ⟨i, c, by simp [Array.getElem?_push, inside, found], rest⟩
    · rintro ⟨i, c, found, same, done⟩
      rw [Array.getElem?_push] at found
      split at found
      next => cases found; exact absurd done keyed
      next => exact ⟨i, c, found, same, done⟩

/-- A declaration with filters waits for all of its keys. -/
theorem Tracks.addCandidate {place : Place} {s : Site} (tracks : Tracks sites [] w)
    (fresh : place ∉ sites.map (·.1)) (waits : s.declaration.isRoot = false) :
    Tracks (sites ++ [(place, s)]) [] { w with
      candidates := w.candidates.push ⟨place, s.keys⟩
      index := s.keys.foldl
        (fun index key => index.insert key (index.getD key [] ++ [w.candidates.size])) w.index } := by
  have keyed : s.keys ≠ [] := by simp [s.keys_eq_nil_iff, waits]
  have roots : rootPlaces (sites ++ [(place, s)]) = rootPlaces sites := by simp [rootPlaces, waits]
  have unlisted : ∀ {i : Nat} {c : Candidate}, w.candidates[i]? = some c → c.place ≠ place :=
    fun found same => fresh (same ▸ tracks.place_mem found)
  have nonroot : place ∉ rootPlaces sites :=
    fun root => tracks.not_reached fresh ((tracks.balanced.reached_iff place).mpr (.inl root))
  refine ⟨?_, tracks.indexed.push place s.keys, ?_⟩
  · simp [tracks.candidates, waiting, waits]
  · rw [roots]
    exact tracks.balanced.push unlisted nonroot keyed _

/-- Adding the next declaration keeps track of it, whether or not it has filters. -/
theorem Tracks.add {place : Place} {s : Site} (tracks : Tracks sites [] w)
    (fresh : place ∉ sites.map (·.1)) :
    Tracks (sites ++ [(place, s)]) [] (w.add s.importPath place s.declaration) := by
  unfold Worklist.add
  cases root : s.declaration.isRoot with
  | true => exact tracks.addRoot fresh root
  | false => exact tracks.addCandidate fresh root

theorem tracks_empty : Tracks [] [] {} where
  candidates := rfl
  indexed key number := by simp
  balanced := {
    distinct := by simp
    nonroot := by simp
    ready_nodup := .nil
    unselected := by simp
    reached_iff := by simp [rootPlaces] }

theorem Tracks.foldl_add {more : List (Place × Site)} (tracks : Tracks sites [] w)
    (distinct : ((sites ++ more).map (·.1)).Nodup) :
    Tracks (sites ++ more) [] (more.foldl (fun w (place, s) => w.add s.importPath place s.declaration) w) := by
  induction more generalizing sites w with
  | nil => simpa using tracks
  | cons first rest ih =>
    rw [List.append_cons] at distinct ⊢
    have fresh : first.1 ∉ sites.map (·.1) := by
      rw [List.map_append, List.map_append] at distinct
      have apart := (List.nodup_append.mp (List.nodup_append.mp distinct).1).2.2
      exact fun member => apart _ member first.1 (by simp) rfl
    exact ih (tracks.add fresh) distinct

/-- The two nested loops over packages and declarations go through the sites in their order. -/
theorem start_eq (pkgs : List Archive) :
    start pkgs = (Linkage.sites pkgs).foldl (fun w (place, s) => w.add s.importPath place s.declaration) {} := by
  simp only [start, Linkage.sites, List.foldl_flatMap, addPackage, List.foldl_map]

theorem start_tracks (pkgs : List Archive) : Tracks (Linkage.sites pkgs) [] (start pkgs) := by
  rw [start_eq]
  have distinct : ((Linkage.sites pkgs).map (·.1)).Nodup := places_eq_map_sites pkgs ▸ places_nodup pkgs
  exact tracks_empty.foldl_add distinct

/-! ### Selecting -/

/-- The worklist holds a program, and what it has met are the keys that selected declarations list. This is true
whenever the next declaration is about to be selected. -/
def Current (pkgs : List Archive) (w : Worklist) : Prop :=
  ∃ met, Tracks (Linkage.sites pkgs) met w ∧
    ∀ key, key ∈ met ↔ ∃ user, w.selected.contains user = true ∧ Lists pkgs user key

variable {pkgs : List Archive}

/-- What is reached is told in terms of the program: all keys are listed by selected declarations. -/
theorem Current.reached_iff (current : Current pkgs w) (place : Place) :
    (place ∈ w.ready ∨ w.selected.contains place = true) ↔
      ∃ s, site? pkgs place = some s ∧
        ∀ key ∈ s.keys, ∃ user, w.selected.contains user = true ∧ Lists pkgs user key := by
  obtain ⟨met, tracks, listed⟩ := current
  simp only [tracks.reached_iff, mem_sites, listed]

theorem Current.declared (current : Current pkgs w) {place : Place}
    (reached : place ∈ w.ready ∨ w.selected.contains place = true) : (site? pkgs place).isSome = true := by
  obtain ⟨s, found, _⟩ := (current.reached_iff place).mp reached
  simp [found]

/-- No declaration is ready again once it is selected. -/
theorem Current.unselected (current : Current pkgs w) {place : Place} (member : place ∈ w.ready) :
    w.selected.contains place = false := by
  obtain ⟨met, tracks, _⟩ := current
  exact tracks.balanced.unselected place member

@[simp] theorem add_selected (w : Worklist) (importPath : String) (place : Place) (d : Declaration) :
    (w.add importPath place d).selected = w.selected := by
  unfold add
  split <;> rfl

theorem start_selected (pkgs : List Archive) : (start pkgs).selected = .empty := by
  have kept : ∀ (sites : List (Place × Site)) (w : Worklist),
      (sites.foldl (fun w (place, s) => w.add s.importPath place s.declaration) w).selected = w.selected := by
    intro sites
    induction sites with
    | nil => exact fun _ => rfl
    | cons first rest ih => exact fun w => (ih _).trans (add_selected ..)
  rw [start_eq, kept]

theorem start_current (pkgs : List Archive) : Current pkgs (start pkgs) :=
  ⟨[], start_tracks pkgs, by simp [start_selected]⟩

/-- The deps of the declaration at a place. -/
def depsAt (pkgs : List Archive) (place : Place) : List String :=
  ((declaration? pkgs place).map (·.deps)).getD []

theorem mem_depsAt {place : Place} {key : String} : key ∈ depsAt pkgs place ↔ Lists pkgs place key := by
  rw [depsAt, declaration?_eq_map, Lists]
  cases site? pkgs place <;> simp

/-- A step selects the next ready declaration and meets each of its deps in turn. -/
theorem Current.step_eq {place : Place} {rest : List Place} (current : Current pkgs w)
    (next : w.ready = place :: rest) :
    w.step pkgs =
      (depsAt pkgs place).foldl meet { w with ready := rest, selected := w.selected.insert place } := by
  -- What is ready is not selected yet, so the step never skips it.
  have fresh : w.selected.contains place = false := current.unselected (next ▸ List.mem_cons_self)
  simp [step, next, fresh, depsAt]

theorem Current.step_selected {place : Place} {rest : List Place} (current : Current pkgs w)
    (next : w.ready = place :: rest) : (w.step pkgs).selected = w.selected.insert place := by
  rw [current.step_eq next, foldl_meet_selected]

/-- The invariant of the selection: one step preserves it. -/
theorem Current.step (current : Current pkgs w) : Current pkgs (w.step pkgs) := by
  cases next : w.ready with
  | nil => simpa [Worklist.step, next] using current
  | cons place rest =>
    have chosen := current.step_selected next
    rw [current.step_eq next] at chosen ⊢
    obtain ⟨met, tracks, listed⟩ := current
    -- Selecting a ready place leaves what is reached as it is; only then its deps are met.
    obtain ⟨notRest, restNodup⟩ := List.nodup_cons.mp (next ▸ tracks.balanced.ready_nodup)
    have popped : Tracks (Linkage.sites pkgs) met
        { w with ready := rest, selected := w.selected.insert place } := by
      refine ⟨tracks.candidates, tracks.indexed, tracks.balanced.distinct, tracks.balanced.nonroot, restNodup,
        fun other member => ?_, fun other => ?_⟩
      · have old := tracks.balanced.unselected other (next ▸ List.mem_cons_of_mem place member)
        rw [Bool.eq_false_iff, Ne, Selection.contains_insert, not_or]
        exact ⟨fun same => notRest (same ▸ member), by simp [old]⟩
      · rw [← tracks.balanced.reached_iff, next, List.mem_cons, Selection.contains_insert, or_left_comm, or_assoc]
    refine ⟨_, popped.foldl_meet (depsAt pkgs place), fun key => ?_⟩
    simp only [chosen, List.mem_append, List.mem_reverse, mem_depsAt, listed, Selection.contains_insert,
      or_and_right, exists_or, exists_eq_left]

/-- The invariant holds throughout a run, by induction on the budget. -/
theorem Current.run (current : Current pkgs w) (budget : Nat) : Current pkgs (run pkgs budget w) := by
  induction budget generalizing w with
  | zero => exact current
  | succ budget ih =>
    unfold Worklist.run
    split
    · exact current
    · exact ih current.step

/-- Ready and selected places are distinct places of the program, so there are at most as many as it has. -/
theorem Current.size_add_length_le (current : Current pkgs w) :
    w.selected.size + w.ready.length ≤ declarationCount pkgs := by
  -- What is selected or ready are distinct places of the program.
  rw [← Selection.length_toList, ← List.length_append]
  apply length_le_declarationCount
  · obtain ⟨met, tracks, _⟩ := current
    refine List.nodup_append.mpr ⟨w.selected.nodup_toList, tracks.balanced.ready_nodup, ?_⟩
    rintro place selected _ ready rfl
    rw [Selection.mem_toList] at selected
    simp [tracks.balanced.unselected place ready] at selected
  · intro place member
    rw [List.mem_append, Selection.mem_toList, or_comm] at member
    exact current.declared member

/-- With a budget for every declaration that is left, a run ends with nothing ready. -/
theorem Current.run_ready (current : Current pkgs w) {budget : Nat}
    (enough : declarationCount pkgs ≤ w.selected.size + budget) : (Worklist.run pkgs budget w).ready = [] := by
  -- Each step selects one declaration more, so the budget never falls below the number of those left.
  induction budget generalizing w with
  | zero =>
    have bound := current.size_add_length_le
    have none : w.ready.length = 0 := by omega
    exact List.length_eq_zero_iff.mp none
  | succ budget ih =>
    unfold Worklist.run
    cases next : w.ready with
    | nil => simpa using next
    | cons place rest =>
      have fresh : w.selected.contains place = false := current.unselected (next ▸ List.mem_cons_self)
      have grown : (w.step pkgs).selected.size = w.selected.size + 1 := by
        rw [current.step_selected next, Selection.size_insert, fresh]
        rfl
      exact ih current.step (by omega)

end Worklist
end Linkage
