import Linkage.Proofs.Program.Lexemes

/-!
# Tokens of a script

The tokens of a script, and the places of its markers among them. Squeezing lexemes keeps their tokens, for it keeps
the gaps without which two of them would become one.
-/
namespace Linkage.Whitespace

/-- What has been read of a script so far. -/
structure Reading where
  -- The newest token first, and of each token its last byte first.
  tokens : List Bytes := []
  -- Whether something separates the newest token from what comes next.
  gap : Bool := false
  -- The newest marker first, each with the number of token bytes in front of it.
  markers : List Mark := []
  deriving DecidableEq, Repr

namespace Reading

def last? (r : Reading) : Option UInt8 := r.tokens.head?.bind (·.head?)

/-- Whether a byte of code belongs to the newest token. -/
def joins (r : Reading) (b : UInt8) : Bool := !r.gap && r.last?.any (runTogether · b)

def start (r : Reading) (b : UInt8) : Reading := { r with tokens := [b] :: r.tokens, gap := false }

def extend (r : Reading) (b : UInt8) : Reading :=
  match r.tokens with
  | [] => r.start b
  | token :: older => { r with tokens := (b :: token) :: older, gap := false }

/-- Adjacent bytes of a word and adjacent equal signs are one token, and so is a literal. Any other byte of code is a
token of its own. A marker is part of none and separates nothing. -/
def read (r : Reading) : Lexeme → Reading
  | .gap => { r with gap := true }
  | .marker handle => { r with markers := ⟨r.tokens.flatten.length, handle⟩ :: r.markers }
  | .code b => if r.joins b then r.extend b else r.start b
  | .inside b => r.extend b

/-- Read a script that begins outside of literals and comments. -/
def through (r : Reading) (p : Bytes) : Reading := (scan .code p).lexemes.foldl read r

end Reading

/-- The tokens of a script, in order. -/
def tokens (p : Bytes) : List Bytes := (Reading.through {} p).tokens.reverse.map List.reverse

/-- The whole markers of a script outside of literals and comments, in order. -/
def markers (p : Bytes) : List Mark := (Reading.through {} p).markers.reverse

-- A literal and its blanks are one token, and so are the word bytes around the marker.
example :
    let script : Bytes := [0x61, 8, 0, 0, 0, 5, 0x62, 0x20, 0x2B, 0x2B, 0x22, 0x20, 0x5C, 0x22, 0x22, 0x63]
    tokens script = [[0x61, 0x62], [0x2B, 0x2B], [0x22, 0x20, 0x5C, 0x22, 0x22], [0x63]] ∧
      markers script = [⟨1, 5⟩] := by decide

namespace Reading

variable {r r' : Reading}

@[simp] theorem extend_gap (r : Reading) (b : UInt8) : (r.extend b).gap = false := by
  unfold extend
  split <;> rfl

@[simp] theorem extend_markers (r : Reading) (b : UInt8) : (r.extend b).markers = r.markers := by
  unfold extend
  split <;> rfl

@[simp] theorem extend_last? (r : Reading) (b : UInt8) : (r.extend b).last? = some b := by
  unfold extend
  split <;> rfl

theorem extend_tokens (same : r.tokens = r'.tokens) (b : UInt8) : (r.extend b).tokens = (r'.extend b).tokens := by
  unfold extend start
  rw [← same]
  split <;> rfl

/-- Readings of the same tokens have the same last byte. -/
theorem last?_congr (same : r.tokens = r'.tokens) : r.last? = r'.last? := by
  rw [last?, last?, same]

/-! ### Readings of the same script -/

/-- The next byte of code begins a token. -/
def Ready (r : Reading) : Prop := ∀ b, r.joins b = false

/-- The readings agree in all that has been read, and in what they do next. -/
structure Alike (r r' : Reading) : Prop where
  tokens : r.tokens = r'.tokens
  markers : r.markers = r'.markers
  joins : ∀ b, r.joins b = r'.joins b

theorem ready_of_gap (gap : r.gap = true) : r.Ready := by
  intro b
  rw [joins, gap]
  rfl

theorem ready_of_stops {b : UInt8} (last : r.last? = some b) (stop : stops b) : r.Ready := by
  intro next
  rw [joins, last, Option.any_some, runTogether_of_stops stop, Bool.and_false]

/-- Ready readings of the same tokens and markers are alike, whatever gaps they have seen. -/
theorem Ready.alike (ready : r.Ready) (ready' : r'.Ready) (tokens : r.tokens = r'.tokens)
    (markers : r.markers = r'.markers) : r.Alike r' :=
  ⟨tokens, markers, fun b => (ready b).trans (ready' b).symm⟩

theorem Alike.ready (alike : r.Alike r') (ready : r.Ready) : r'.Ready :=
  fun b => (alike.joins b).symm.trans (ready b)

theorem Alike.start (alike : r.Alike r') (b : UInt8) : (r.start b).Alike (r'.start b) :=
  ⟨congrArg ([b] :: ·) alike.tokens, alike.markers, fun _ => rfl⟩

theorem Alike.extend (alike : r.Alike r') (b : UInt8) : (r.extend b).Alike (r'.extend b) where
  tokens := extend_tokens alike.tokens b
  markers := by simpa using alike.markers
  joins next := by simp [Reading.joins]

/-- Readings that are alike stay alike through any lexeme. -/
theorem Alike.read (alike : r.Alike r') (lexeme : Lexeme) : (r.read lexeme).Alike (r'.read lexeme) := by
  cases lexeme with
  | gap => exact ⟨alike.tokens, alike.markers, fun _ => rfl⟩
  | marker handle =>
    refine ⟨alike.tokens, ?_, alike.joins⟩
    change _ :: r.markers = _ :: r'.markers
    rw [alike.tokens, alike.markers]
  | code b =>
    rw [Reading.read, Reading.read, alike.joins b]
    split
    · exact alike.extend b
    · exact alike.start b
  | inside b => exact alike.extend b

theorem Alike.foldl (alike : r.Alike r') (lexemes : List Lexeme) :
    (lexemes.foldl Reading.read r).Alike (lexemes.foldl Reading.read r') :=
  List.foldl_rel alike fun lexeme _ _ _ alike => alike.read lexeme

/-! ### Readings of squeezed lexemes -/

/-- `r` has read lexemes and `r'` what squeezing leaves of them, up to a byte `last` and perhaps a gap behind it. -/
inductive Follows : Option UInt8 → Bool → Reading → Reading → Prop
  | fresh {gap : Bool} {r r' : Reading} (tokens : r.tokens = r'.tokens) (markers : r.markers = r'.markers)
    (ready : r.Ready) (ready' : r'.Ready) : Follows none gap r r'
  | behind {b : UInt8} {gap : Bool} {r r' : Reading} (tokens : r.tokens = r'.tokens) (markers : r.markers = r'.markers)
    (last : r.last? = some b) (gapped : r.gap = gap) (gapless : r'.gap = false) : Follows (some b) gap r r'

namespace Follows

variable {last : Option UInt8} {gap : Bool}

/-- A reading and the one that follows it have the same tokens. -/
theorem tokens (follows : Follows last gap r r') : r.tokens = r'.tokens := by
  cases follows <;> assumption

theorem markers (follows : Follows last gap r r') : r.markers = r'.markers := by
  cases follows <;> assumption

/-- A gap read ahead is a gap still owed. -/
theorem skip (follows : Follows last gap r r') : Follows last true (r.read .gap) r' := by
  cases follows with
  | fresh tokens markers _ ready' => exact .fresh tokens markers (ready_of_gap rfl) ready'
  | behind tokens markers last _ gapless => exact .behind tokens markers last rfl gapless

theorem marker (follows : Follows last gap r r') (handle : UInt32) :
    Follows last gap (r.read (.marker handle)) (r'.read (.marker handle)) := by
  have place : (r.read (.marker handle)).markers = (r'.read (.marker handle)).markers := by
    change _ :: r.markers = _ :: r'.markers
    rw [follows.tokens, follows.markers]
  cases follows with
  | fresh tokens _ ready ready' => exact .fresh tokens place ready ready'
  | behind tokens _ last gapped gapless => exact .behind tokens place last gapped gapless

theorem start (follows : Follows last gap r r') (b : UInt8) : Follows (some b) false (r.start b) (r'.start b) :=
  .behind (congrArg ([b] :: ·) follows.tokens) follows.markers rfl rfl rfl

theorem extend (follows : Follows last gap r r') (b : UInt8) : Follows (some b) false (r.extend b) (r'.extend b) :=
  .behind (extend_tokens follows.tokens b) (by simpa using follows.markers) (extend_last? r b) (extend_gap r b)
    (extend_gap r' b)

/-- If no gap is kept in front of a byte of code, both readings put it in the same place. -/
theorem joins (follows : Follows last gap r r') {b : UInt8} (apart : ¬ (gap && last.any (runTogether · b))) :
    r.joins b = r'.joins b := by
  cases follows with
  | fresh _ _ ready ready' => exact (ready b).trans (ready' b).symm
  | behind tokens _ last gapped gapless =>
    rw [Bool.not_eq_true, ← last, ← gapped] at apart
    rw [Reading.joins, Reading.joins, gapless, ← last?_congr tokens]
    cases open_ : r.gap with
    | false => rfl
    | true =>
      rw [open_, Bool.true_and] at apart
      rw [apart]
      rfl

/-- Where no space is owed, a byte of code is read alike on both sides. -/
theorem code (follows : Follows last gap r r') {b : UInt8} (apart : ¬ (gap && last.any (runTogether · b))) :
    Follows (some b) false (r.read (.code b)) (r'.read (.code b)) := by
  rw [Reading.read, Reading.read, follows.joins apart]
  split
  · exact follows.extend b
  · exact follows.start b

/-- A gap is kept where the byte behind it begins a token only because of it. -/
theorem spaced (follows : Follows last gap r r') {b : UInt8} (spaced : gap && last.any (runTogether · b)) :
    Follows (some b) false (r.read (.code b)) ((r'.read .gap).read (.code b)) := by
  rw [Bool.and_eq_true] at spaced
  have alone : r.joins b = false := by
    cases follows with
    | fresh => exact nomatch spaced.2
    | behind _ _ _ gapped _ => exact ready_of_gap (gapped.trans spaced.1) b
  have begins : r.read (.code b) = r.start b := by
    rw [Reading.read, alone]
    rfl
  rw [begins]
  exact follows.start b

/-- Through all lexemes of a script, the reading of what squeezing leaves follows that of the lexemes. -/
theorem foldl (follows : Follows last gap r r') (lexemes : List Lexeme) :
    ∃ last' gap', Follows last' gap' (lexemes.foldl Reading.read r)
      ((squeeze last gap lexemes).foldl Reading.read r') := by
  induction lexemes generalizing last gap r r' with
  | nil => exact ⟨last, gap, follows⟩
  | cons lexeme rest ih =>
    cases lexeme with
    | gap => exact ih follows.skip
    | marker handle => exact ih (follows.marker handle)
    | inside b => exact ih (follows.extend b)
    | code b =>
      rw [squeeze]
      split
      next separate => exact ih (follows.spaced separate)
      next apart => exact ih (follows.code apart)

end Follows
end Reading

end Linkage.Whitespace
