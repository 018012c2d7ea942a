import Linkage.Proofs.Program.Tokens

/-!
# Scripts that match

Two scripts match if they are read alike wherever no token is left open; parts that match make wholes that match. A
script matches what whitespace removal leaves of it.
-/
namespace Linkage.Whitespace

/-! ### Parts of a script -/

/-- The byte that a lexeme adds to a token. -/
def Lexeme.byte? : Lexeme → Option UInt8
  | .gap | .marker _ => none
  | .code b | .inside b => some b

/-- The last byte of the tokens that the lexemes belong to. -/
def lastByte (lexemes : List Lexeme) : Option UInt8 := (lexemes.filterMap Lexeme.byte?).getLast?

theorem lastByte_append (front back : List Lexeme) :
    lastByte (front ++ back) = (lastByte back).or (lastByte front) := by
  rw [lastByte, List.filterMap_append, List.getLast?_append]
  rfl

/-- Squeezing leaves the last byte in place. -/
theorem lastByte_squeeze (last : Option UInt8) (gap : Bool) (lexemes : List Lexeme) :
    lastByte (squeeze last gap lexemes) = lastByte lexemes := by
  have bytes : (squeeze last gap lexemes).filterMap Lexeme.byte? = lexemes.filterMap Lexeme.byte? := by
    fun_induction squeeze last gap lexemes with
    | case1 => rfl
    | case2 _ _ _ ih | case3 _ _ _ _ ih => exact ih
    | case4 last gap b rest ih | case6 last gap b rest _ ih => exact congrArg (List.cons b) ih
    | case5 last gap b rest _ ih => exact congrArg (List.cons b) ih
  rw [lastByte, bytes]
  rfl

theorem lastByte_of_getLast? {lexemes : List Lexeme} {b : UInt8} (last : lexemes.getLast? = some (.code b)) :
    lastByte lexemes = some b := by
  obtain ⟨front, rfl⟩ := List.getLast?_eq_some_iff.mp last
  exact lastByte_append front [.code b]

/-- Squeezing adds no lexeme but gaps. -/
theorem mem_squeeze {last : Option UInt8} {gap : Bool} {lexeme : Lexeme} {lexemes : List Lexeme}
    (member : lexeme ∈ squeeze last gap lexemes) : lexeme ∈ lexemes ∨ lexeme = .gap := by
  fun_induction squeeze last gap lexemes with
  | case1 => exact .inl member
  | case2 _ _ rest ih => exact (ih member).imp_left (List.mem_cons_of_mem _)
  | case3 _ _ _ rest ih | case4 _ _ _ rest ih | case6 _ _ _ rest _ ih =>
    rcases List.mem_cons.mp member with rfl | later
    · exact .inl List.mem_cons_self
    · exact (ih later).imp_left (List.mem_cons_of_mem _)
  | case5 _ _ _ rest _ ih =>
    rcases List.mem_cons.mp member with rfl | later
    · exact .inr rfl
    · rcases List.mem_cons.mp later with rfl | later
      · exact .inl List.mem_cons_self
      · exact (ih later).imp_left (List.mem_cons_of_mem _)

/-- The last byte of a reading is that of the lexeme read, and the earlier one when the lexeme has none. -/
theorem Reading.last?_read (r : Reading) (lexeme : Lexeme) : (r.read lexeme).last? = lexeme.byte?.or r.last? := by
  cases lexeme with
  | gap | marker handle => rfl
  | inside b => exact extend_last? r b
  | code b =>
    rw [read]
    split
    · exact extend_last? r b
    · rfl

theorem Reading.last?_foldl (r : Reading) (lexemes : List Lexeme) :
    (lexemes.foldl Reading.read r).last? = (lastByte lexemes).or r.last? := by
  induction lexemes generalizing r with
  | nil => rfl
  | cons lexeme rest ih =>
    have first : lastByte [lexeme] = lexeme.byte? := by cases lexeme <;> rfl
    rw [List.foldl_cons, ih, last?_read, ← first, ← Option.or_assoc, ← lastByte_append]
    rfl

/-- A script that leaves no literal, comment or marker open. -/
structure Shut (p : Bytes) : Prop where
  whole : .code Marker.sentinel ∉ (scan .code p).lexemes
  ending : (scan .code p).ending = .code

instance (p : Bytes) : Decidable (Shut p) :=
  decidable_of_iff (_ ∧ _) ⟨fun ⟨whole, ending⟩ => ⟨whole, ending⟩, fun shut => ⟨shut.whole, shut.ending⟩⟩

/-- A shut script with a gap at its end. -/
structure Spaced (p : Bytes) : Prop extends Shut p where
  last : (scan .code p).lexemes.getLast? = some .gap

/-- A script that is read from one mode to another, and on its own whatever comes next. -/
structure Passes (mode : Mode) (p : Bytes) (next : Mode) : Prop where
  whole : .code Marker.sentinel ∉ (scan mode p).lexemes
  ending : (scan mode p).ending = next
  uncommented : next ≠ .comment
  apart : (scan mode p).lexemes.getLast? ≠ some (.code slash)

namespace Shut

variable {p q : Bytes}

/-- Behind a shut script the next one is scanned as it would be alone, unless a slash meets a star. -/
theorem scan_append (shut : Shut p)
    (apart : (scan .code p).lexemes.getLast? = some (.code slash) → q.head? ≠ some star) :
    scan .code (p ++ q) = (scan .code p).followedBy (scan .code q) := by
  have sealed : (scan .code p).Sealed := ⟨shut.whole, fun comment => nomatch shut.ending.symm.trans comment⟩
  rw [Whitespace.scan_append sealed apart, shut.ending]

theorem scan_newline (shut : Shut p) :
    scan .code (p ++ [Emitter.newline]) = (scan .code p).followedBy ⟨[.gap], .code⟩ :=
  shut.scan_append fun _ => by decide

theorem append_newline (shut : Shut p) : Spaced (p ++ [Emitter.newline]) where
  whole member := by
    rw [shut.scan_newline] at member
    rcases List.mem_append.mp member with inside | last
    · exact shut.whole inside
    · exact nomatch List.mem_singleton.mp last
  ending := by rw [shut.scan_newline]; rfl
  last := by rw [shut.scan_newline, Scan.followedBy, List.getLast?_concat]

/-- A script stays shut under removal, if no gap stands between a slash of it and a star. -/
theorem remove (shut : Shut p) (unsplit : Unsplit (scan .code p).lexemes) : Shut (Whitespace.remove p) where
  whole member := by
    rw [scan_remove unsplit] at member
    rcases mem_squeeze member with inside | gap
    · exact shut.whole inside
    · exact nomatch gap
  ending := by rw [scan_remove unsplit, shut.ending]; rfl

theorem through_newline (shut : Shut p) (r : Reading) :
    r.through (p ++ [Emitter.newline]) = (r.through p).read .gap := by
  rw [Reading.through, shut.scan_newline, Scan.followedBy, List.foldl_append]
  rfl

end Shut

/-- Behind a spaced script no token goes on. -/
theorem Spaced.ready {p : Bytes} (spaced : Spaced p) (r : Reading) : (r.through p).Ready := by
  obtain ⟨front, lexemes⟩ := List.getLast?_eq_some_iff.mp spaced.last
  apply Reading.ready_of_gap
  rw [Reading.through, lexemes, List.foldl_append]
  rfl

theorem Reading.last?_through (r : Reading) {p : Bytes} {b : UInt8} (last : lastByte (scan .code p).lexemes = some b) :
    (r.through p).last? = some b := by
  rw [through, last?_foldl, last]
  rfl

/-- A shut script that does not end in a slash passes from code to code. -/
theorem Shut.passes {p : Bytes} (shut : Shut p) (apart : (scan .code p).lexemes.getLast? ≠ some (.code slash)) :
    Passes .code p .code :=
  ⟨shut.whole, shut.ending, nofun, apart⟩

theorem Spaced.passes {p : Bytes} (spaced : Spaced p) : Passes .code p .code :=
  spaced.toShut.passes fun slash => nomatch spaced.last.symm.trans slash

namespace Passes

variable {mode next after : Mode} {p q : Bytes}

theorem scan_append (passes : Passes mode p next) (q : Bytes) :
    scan mode (p ++ q) = (scan mode p).followedBy (scan next q) := by
  have sealed : (scan mode p).Sealed :=
    ⟨passes.whole, fun comment => passes.uncommented (passes.ending.symm.trans comment)⟩
  rw [Whitespace.scan_append sealed fun last => absurd last passes.apart, passes.ending]

/-- Scripts that pass one into the other pass together. -/
theorem append (passes : Passes mode p next) (other : Passes next q after) : Passes mode (p ++ q) after where
  whole member := by
    rw [passes.scan_append] at member
    exact (List.mem_append.mp member).elim passes.whole other.whole
  ending := by rw [passes.scan_append]; exact other.ending
  uncommented := other.uncommented
  apart last := by
    rw [passes.scan_append, Scan.followedBy, List.getLast?_append, Option.or_eq_some_iff] at last
    exact last.elim other.apart fun last => passes.apart last.2

/-- Two scripts in a row are read as the second one from where the first ends. -/
theorem through_append (passes : Passes .code p .code) (r : Reading) (q : Bytes) :
    r.through (p ++ q) = (r.through p).through q := by
  rw [Reading.through, passes.scan_append, Scan.followedBy, List.foldl_append]
  rfl

end Passes

/-! ### Scripts that end in a newline -/

/-- The quote of the literal that a byte is in. -/
def Mode.quote? : Mode → Option UInt8
  | .code | .comment => none
  | .literal quote | .escaped quote => some quote

theorem Mode.quote?_afterInside {quote : UInt8} (unquoted : some quote ≠ some Emitter.newline) (b : UInt8) :
    (afterInside quote b).quote? ≠ some Emitter.newline := by
  unfold afterInside
  split
  · exact unquoted
  · split
    · exact nofun
    · exact unquoted

theorem Mode.quote?_afterCode (b : UInt8) : (afterCode b).quote? ≠ some Emitter.newline := by
  unfold afterCode
  split
  next quoted =>
    rintro ⟨rfl⟩
    exact nomatch quoted
  next => exact nofun

/-- A newline at the end of a shut script separates, or belongs to a marker. -/
theorem exists_last_of_newline {mode : Mode} {p : Bytes} (unquoted : mode.quote? ≠ some Emitter.newline)
    (newline : p.getLast? = some Emitter.newline) (ending : (scan mode p).ending = .code) :
    ∃ last, (scan mode p).lexemes.getLast? = some last ∧ last.byte? = none := by
  have outside : none ≠ some Emitter.newline := (Option.some_ne_none _).symm
  fun_induction scan mode p with
  | case1 mode => simp at newline
  | case2 quote b rest ih =>
    cases rest with
    | nil =>
      obtain rfl : b = Emitter.newline := Option.some.inj newline
      have closes : ¬ Emitter.newline = quote := fun same => unquoted (congrArg some same.symm)
      rw [Mode.afterInside, if_neg (by decide), if_neg closes] at ending
      simp [scan, Scan.cons] at ending
    | cons c more =>
      exact (ih (Mode.quote?_afterInside unquoted b) newline ending).imp fun _ => .imp_left getLast?_cons_of_some
  | case3 quote b rest ih =>
    cases rest with
    | nil => simp [scan, Scan.cons] at ending
    | cons c more => exact (ih unquoted newline ending).imp fun _ => .imp_left getLast?_cons_of_some
  | case4 rest ih | case6 h₁ h₂ h₃ h₄ rest ih | case8 b rest noMarker noComment blank ih =>
    cases rest with
    | nil => exact ⟨_, rfl, rfl⟩
    | cons c more => exact (ih outside newline ending).imp fun _ => .imp_left getLast?_cons_of_some
  | case5 b rest goesOn ih | case7 rest ih =>
    cases rest with
    | nil => simp [scan, Scan.cons] at ending
    | cons c more => exact (ih outside newline ending).imp fun _ => .imp_left getLast?_cons_of_some
  | case9 b rest noMarker noComment dark ih =>
    cases rest with
    | nil =>
      obtain rfl : b = Emitter.newline := Option.some.inj newline
      exact absurd rfl dark
    | cons c more =>
      exact (ih (Mode.quote?_afterCode b) newline ending).imp fun _ => .imp_left getLast?_cons_of_some

/-- A shut script that ends in a newline outside of markers. -/
structure Line (p : Bytes) : Prop extends Shut p where
  newline : p.getLast? = some Emitter.newline
  outside : ∀ handle, (scan .code p).lexemes.getLast? ≠ some (.marker handle)

theorem Shut.line {p : Bytes} (shut : Shut p) : Line (p ++ [Emitter.newline]) where
  toShut := shut.append_newline.toShut
  newline := List.getLast?_concat
  outside _ marker := nomatch shut.append_newline.last.symm.trans marker

theorem Line.spaced {p : Bytes} (line : Line p) : Spaced p where
  toShut := line.toShut
  last := by
    have unquoted : Mode.code.quote? ≠ some Emitter.newline := nofun
    obtain ⟨last, ends, noByte⟩ := exists_last_of_newline unquoted line.newline line.ending
    cases last with
    | gap => exact ends
    | marker handle => exact absurd ends (line.outside handle)
    | code b => exact nomatch noByte
    | inside b => exact nomatch noByte

/-! ### Scripts that match -/

/-- The two scripts are read alike wherever the next byte of code begins a token, and leave no token open. -/
structure Matches (p q : Bytes) : Prop where
  left : Passes .code p .code
  right : Passes .code q .code
  alike {r r' : Reading} (alike : r.Alike r') (ready : r.Ready) : (r.through p).Alike (r'.through q)
  ready {r : Reading} (ready : r.Ready) : (r.through p).Ready

/-- From readings that are alike, a script and its minified form have the same tokens and markers. -/
theorem Reading.Alike.removed {r r' : Reading} (alike : r.Alike r') (ready : r.Ready) {p : Bytes}
    (unsplit : Unsplit (scan .code p).lexemes) :
    (r.through p).tokens = (r'.through (remove p)).tokens ∧
      (r.through p).markers = (r'.through (remove p)).markers := by
  have fresh : Follows none false r r' := .fresh alike.tokens alike.markers ready (alike.ready ready)
  obtain ⟨last, gap, follows⟩ := fresh.foldl (scan .code p).lexemes
  rw [through, through, scan_remove unsplit]
  exact ⟨follows.tokens, follows.markers⟩

namespace Matches

variable {p q p' q' : Bytes}

theorem nil : Matches [] [] where
  left := ⟨List.not_mem_nil, rfl, nofun, nofun⟩
  right := ⟨List.not_mem_nil, rfl, nofun, nofun⟩
  alike alike _ := alike
  ready ready := ready

theorem append (first : Matches p q) (second : Matches p' q') : Matches (p ++ p') (q ++ q') where
  left := first.left.append second.left
  right := first.right.append second.right
  alike {r r'} alike ready := by
    rw [first.left.through_append, first.right.through_append]
    exact second.alike (first.alike alike ready) (first.ready ready)
  ready {r} ready := by
    rw [first.left.through_append]
    exact second.ready (first.ready ready)

/-- Scripts that match item by item match as a whole. -/
theorem flatMap {α : Type} {items : List α} {f g : α → Bytes} (all : ∀ item ∈ items, Matches (f item) (g item)) :
    Matches (items.flatMap f) (items.flatMap g) := by
  induction items with
  | nil => exact nil
  | cons item rest ih =>
    exact (all item List.mem_cons_self).append (ih fun other member => all other (List.mem_cons_of_mem item member))

/-- Behind a gap it is enough that the same has been read. -/
theorem spaced (left : Spaced p) (right : Spaced q)
    (same : ∀ {r r' : Reading}, r.Alike r' → r.Ready →
      (r.through p).tokens = (r'.through q).tokens ∧ (r.through p).markers = (r'.through q).markers) : Matches p q where
  left := left.passes
  right := right.passes
  alike {r r'} alike ready :=
    have ⟨tokens, markers⟩ := same alike ready
    (left.ready r).alike (right.ready r') tokens markers
  ready {r} _ := left.ready r

/-- A spaced script matches itself. -/
theorem self (spaced : Spaced p) : Matches p p :=
  .spaced spaced spaced fun alike _ =>
    have after := alike.foldl (scan .code p).lexemes
    ⟨after.tokens, after.markers⟩

/-- A shut script and its minified form match once both have a newline behind them. -/
theorem removed_newline (shut : Shut p) (unsplit : Unsplit (scan .code p).lexemes) :
    Matches (p ++ [Emitter.newline]) (remove p ++ [Emitter.newline]) := by
  have shut' := shut.remove unsplit
  refine .spaced shut.append_newline shut'.append_newline fun {r r'} alike ready => ?_
  rw [shut.through_newline, shut'.through_newline]
  exact alike.removed ready unsplit

/-- A script whose last byte runs together with nothing needs no gap at its end. -/
theorem removed (shut : Shut p) (unsplit : Unsplit (scan .code p).lexemes) {b : UInt8}
    (last : lastByte (scan .code p).lexemes = some b) (stop : stops b) (noSlash : b ≠ slash) :
    Matches p (remove p) := by
  have last' : lastByte (scan .code (remove p)).lexemes = some b := by
    rw [scan_remove unsplit, lastByte_squeeze, last]
  have apart {p : Bytes} (last : lastByte (scan .code p).lexemes = some b) :
      (scan .code p).lexemes.getLast? ≠ some (.code slash) := by
    intro ends
    exact noSlash (Option.some.inj (last.symm.trans (lastByte_of_getLast? ends)))
  refine ⟨shut.passes (apart last), (shut.remove unsplit).passes (apart last'), fun {r r'} alike ready => ?_,
    fun {r} _ => ?_⟩
  · obtain ⟨tokens, markers⟩ := alike.removed ready unsplit
    have ready := Reading.ready_of_stops (r.last?_through last) stop
    exact ready.alike (Reading.ready_of_stops (r'.last?_through last') stop) tokens markers
  · exact Reading.ready_of_stops (r.last?_through last) stop

/-- Scripts that match have the same tokens, and the same markers in the same places among them. -/
theorem tokens (same : Matches p q) : tokens p = tokens q ∧ markers p = markers q := by
  have empty : Reading.Ready {} := fun _ => rfl
  have all := same.alike (empty.alike empty rfl rfl) empty
  exact ⟨congrArg (fun tokens => tokens.reverse.map List.reverse) all.tokens, congrArg List.reverse all.markers⟩

end Matches
end Linkage.Whitespace
