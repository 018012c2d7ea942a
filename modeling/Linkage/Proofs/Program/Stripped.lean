import Linkage.Proofs.Program.Runs

/-!
# What removal keeps of a script

Removal keeps the literals, the markers and the single bytes of a script, and of its blanks and comments one space
between two bytes that would run together. What is left is divided into just these pieces, so it has the same tokens,
unless a slash comes to stand in front of a star.
-/
namespace Linkage.Whitespace

namespace Piece

/-- Drop the blanks and comments behind the byte `last`, but for a space where two bytes would run together. `gap` says
whether there is one in front. -/
def squeeze (last : Option UInt8) (gap : Bool) : List Piece → List Piece
  | [] => []
  | .blank _ :: ps | .comment _ _ :: ps => squeeze last true ps
  | .marker handle :: ps => .marker handle :: squeeze last gap ps
  | .literal quote body :: ps => .literal quote body :: squeeze (some (body.getLast?.getD quote)) false ps
  | .byte b :: ps =>
    if gap && last.any (runTogether · b) then .blank 0x20 :: .byte b :: squeeze (some b) false ps
    else .byte b :: squeeze (some b) false ps

/-- No slash is separated from a star behind it by blanks and comments alone. -/
def Unsplit (ps : List Piece) : Prop :=
  ∀ front gaps back, (∀ piece ∈ gaps, piece.separates) → gaps ≠ [] →
    ps ≠ front ++ .byte slash :: (gaps ++ .byte star :: back)

/-- The last of the pieces, markers apart, is that byte. -/
def EndsIn (ps : List Piece) (b : UInt8) : Prop := ∃ (front : List Piece) (handles : List UInt32),
  ps = front ++ .byte b :: handles.map .marker

/-- The blank `b` is a space, and keeps the byte `before` from the first one of what is behind it. -/
def KeepsApart (before b : UInt8) (back : List Piece) : Prop :=
  b = 0x20 ∧ ∃ after behind, back = .byte after :: behind ∧ runTogether before after

end Piece

/-- What is left of the pieces of a script. -/
structure Stripped (ps qs : List Piece) : Prop where
  tokens : runTokens qs = runTokens ps
  kept : qs.filter (!·.separates) = ps.filter (!·.separates)
  uncommented : ∀ inner closed, .comment inner closed ∉ qs
  spaces : ∀ front b back, qs = front ++ .blank b :: back →
    ∃ before, Piece.EndsIn front before ∧ Piece.KeepsApart before b back

variable {ps : List Piece} {piece : Piece} {last : Option UInt8} {gap : Bool} {quote b : UInt8}

theorem Piece.Unsplit.of_cons (unsplit : Unsplit (piece :: ps)) : Unsplit ps := by
  rintro front gaps back separate nonempty rfl
  exact unsplit (piece :: front) gaps back separate nonempty rfl

theorem Piece.EndsIn.cons (ends : EndsIn ps b) (piece : Piece) : EndsIn (piece :: ps) b := by
  obtain ⟨front, handles, rfl⟩ := ends
  exact ⟨piece :: front, handles, rfl⟩

/-! ### The lexemes and the text of squeezed pieces -/

/-- Squeezing touches only the pieces that separate. -/
theorem Piece.filter_squeeze (last : Option UInt8) (gap : Bool) (ps : List Piece) :
    (squeeze last gap ps).filter (!·.separates) = ps.filter (!·.separates) := by
  fun_induction squeeze last gap ps with
  | case1 => rfl
  | case2 _ _ _ _ ih | case3 _ _ _ _ _ ih => exact ih
  | case4 _ _ handle _ ih => exact congrArg (List.cons (.marker handle)) ih
  | case5 _ _ quote body _ ih => exact congrArg (List.cons (.literal quote body)) ih
  | case6 _ _ b _ _ ih | case7 _ _ b _ _ ih => exact congrArg (List.cons (.byte b)) ih

/-- The only separators a squeezed text has are single spaces. -/
theorem Piece.eq_of_mem_squeeze {kept : Piece} (member : kept ∈ squeeze last gap ps) (separates : kept.separates) :
    kept = .blank 0x20 := by
  fun_induction squeeze last gap ps with
  | case1 => exact nomatch member
  | case2 _ _ _ _ ih | case3 _ _ _ _ _ ih => exact ih member
  | case4 _ _ _ _ ih | case5 _ _ _ _ _ ih | case7 _ _ _ _ _ ih =>
    rcases List.mem_cons.mp member with rfl | later
    · exact nomatch separates
    · exact ih later
  | case6 _ _ _ _ _ ih =>
    rcases List.mem_cons.mp member with rfl | later
    · rfl
    · rcases List.mem_cons.mp later with rfl | later
      · exact nomatch separates
      · exact ih later

/-- A run of gaps counts as one. -/
theorem squeeze_gaps (last : Option UInt8) (gap : Bool) (n : Nat) (rest : List Lexeme) :
    squeeze last gap (List.replicate (n + 1) .gap ++ rest) = squeeze last true rest := by
  induction n generalizing gap with
  | zero => rfl
  | succ n ih => exact ih true

theorem squeeze_inside (b : UInt8) (body : Bytes) (rest : List Lexeme) :
    squeeze (some b) false (body.map .inside ++ rest) =
      body.map .inside ++ squeeze (some (body.getLast?.getD b)) false rest := by
  induction body generalizing b with
  | nil => rfl
  | cons c body ih => rw [List.map_cons, List.cons_append, squeeze, ih, List.getLast?_cons, Option.getD_some]; rfl

/-- Squeezing the pieces and squeezing their lexemes is the same. -/
theorem Division.lexemes_squeeze (division : Division ps) (last : Option UInt8) (gap : Bool) :
    (Piece.squeeze last gap ps).flatMap Piece.lexemes = squeeze last gap (ps.flatMap Piece.lexemes) := by
  induction division generalizing last gap with
  | nil => rfl
  | @cons piece ps before _ ih =>
    generalize textOf ps = rest at before
    rw [List.flatMap_cons]
    cases before with
    | blank => exact ih last true
    | comment | unclosed => exact (ih last true).trans (squeeze_gaps last gap _ _).symm
    | marker => exact congrArg (List.cons _) (ih last gap)
    | @literal quote body _ quoted =>
      have apart : ¬ (gap && last.any (runTogether · quote)) := by
        rw [any_runTogether_of_stops (stops_of_isQuote quoted), Bool.and_false]
        exact Bool.false_ne_true
      have kept (rest : List Lexeme) : squeeze last gap (.code quote :: rest) =
          .code quote :: squeeze (some quote) false rest := if_neg apart
      rw [Piece.squeeze, List.flatMap_cons, ih, Piece.lexemes, List.cons_append, List.cons_append, kept, squeeze_inside]
    | @byte b =>
      rw [Piece.squeeze, Piece.lexemes, List.singleton_append, squeeze]
      split
      · exact congrArg (fun later => .gap :: .code b :: later) (ih (some b) false)
      · exact congrArg (List.cons (.code b)) (ih (some b) false)

theorem Piece.spell_lexemes (noComment : ∀ inner closed, piece ≠ .comment inner closed)
    (blank : ∀ b, piece = .blank b → b = 0x20) : spell piece.lexemes = piece.text := by
  cases piece with
  | blank b =>
    rw [blank b rfl]
    rfl
  | comment inner closed => exact absurd rfl (noComment inner closed)
  | literal quote body => simp [lexemes, text, spell, Lexeme.spell, List.flatMap_map]
  | marker handle => exact List.append_nil _
  | byte b => rfl

theorem Piece.spell_flatMap_squeeze (last : Option UInt8) (gap : Bool) (ps : List Piece) :
    spell ((squeeze last gap ps).flatMap lexemes) = textOf (squeeze last gap ps) := by
  rw [spell, List.flatMap_assoc, textOf]
  refine List.flatMap_congr fun piece member => spell_lexemes ?_ ?_
  · rintro inner closed rfl
    exact nomatch eq_of_mem_squeeze member rfl
  · rintro b rfl
    cases eq_of_mem_squeeze member rfl
    rfl

/-- The text of the squeezed pieces is what the squeezed lexemes spell. -/
theorem Division.textOf_squeeze (division : Division ps) (last : Option UInt8) (gap : Bool) :
    textOf (Piece.squeeze last gap ps) = spell (squeeze last gap (scan .code (textOf ps)).lexemes) := by
  rw [division.scan_textOf, ← division.lexemes_squeeze, Piece.spell_flatMap_squeeze]

/-! ### Squeezed pieces are a division -/

/-- What is left behind a slash begins with a star only if the star comes next but for blanks and comments. -/
theorem Division.exists_of_star (division : Division ps) {more : Bytes}
    (first : textOf (Piece.squeeze (some slash) gap ps) = star :: more) :
    ∃ gaps back, ps = gaps ++ .byte star :: back ∧ ∀ piece ∈ gaps, piece.separates := by
  induction division generalizing gap with
  | nil => exact nomatch first
  | @cons piece ps before _ ih =>
    generalize textOf ps = rest at before
    cases before with
    | blank | comment | unclosed =>
      obtain ⟨gaps, back, rfl, separate⟩ := ih first
      exact ⟨_ :: gaps, back, rfl, List.forall_mem_cons.mpr ⟨rfl, separate⟩⟩
    | marker => exact nomatch (List.cons.inj first).1
    | literal quoted =>
      obtain ⟨rfl, -⟩ := List.cons.inj first
      exact nomatch quoted
    | @byte b =>
      have apart : ¬ (gap && (some slash).any (runTogether · b)) := by
        rw [Option.any_some, runTogether_of_stops (by decide), Bool.and_false]
        exact Bool.false_ne_true
      rw [Piece.squeeze, if_neg apart] at first
      obtain rfl : b = star := (List.cons.inj first).1
      exact ⟨[], ps, rfl, List.forall_mem_nil _⟩

/-- A byte of code is read as one if what is behind it is squeezed. -/
theorem Division.inked_squeeze (division : Division ps) (unsplit : Piece.Unsplit (.byte b :: ps))
    (inked : Inked b (textOf ps)) (unquoted : ¬ isQuote b) : Inked b (textOf (Piece.squeeze (some b) false ps)) := by
  refine ⟨fun h₁ h₂ h₃ h₄ more sentinel next => ?_, ?_, inked.dark⟩
  · have goesOn : Mode.afterCode b = .code := if_neg unquoted
    have short := inked.noMarker_squeezed h₁ h₂ h₃ h₄ more sentinel
    rw [goesOn, ← division.textOf_squeeze] at short
    exact short next
  · rintro more rfl starred
    obtain ⟨gaps, back, rfl, separate⟩ := division.exists_of_star starred
    by_cases immediate : gaps = []
    · subst immediate
      exact inked.noComment _ rfl rfl
    · exact unsplit [] gaps back separate immediate rfl

/-- Squeezing keeps a division a division, provided that no separator stands between a slash and a star. -/
theorem Division.squeeze (division : Division ps) (unsplit : Piece.Unsplit ps) (last : Option UInt8) (gap : Bool) :
    Division (Piece.squeeze last gap ps) := by
  induction division generalizing last gap with
  | nil => exact .nil
  | @cons piece ps before division ih =>
    have later := ih unsplit.of_cons
    generalize ends : textOf ps = rest at before
    cases before with
    | blank | comment | unclosed => exact later last true
    | marker => exact .cons .marker (later last gap)
    | literal quoted spans =>
      refine .cons (.literal quoted (spans.change fun empty => ?_)) (later _ false)
      rw [textOf_eq_nil_iff.mp (ends.trans empty)]
      rfl
    | byte inked unquoted =>
      subst ends
      have shown := division.inked_squeeze unsplit inked unquoted
      have own := Division.cons (.byte shown unquoted) (later _ false)
      rw [Piece.squeeze]
      split
      · exact .cons (.blank (by decide)) own
      · exact own

/-- Removal squeezes the pieces of a script. -/
theorem Divides.remove {p : Bytes} (divides : Divides p ps) (unsplit : Piece.Unsplit ps) :
    Divides (Whitespace.remove p) (Piece.squeeze none false ps) := by
  refine ⟨divides.division.squeeze unsplit none false, ?_⟩
  rw [divides.division.textOf_squeeze, divides.text, remove_eq]

/-! ### The spaces that are left -/

/-- The last of the pieces, markers apart, is that byte, or there is none and they are behind the byte `last`. -/
def Piece.Behind (last : Option UInt8) (ps : List Piece) (b : UInt8) : Prop :=
  EndsIn ps b ∨ ∃ handles : List UInt32, ps = handles.map .marker ∧ last = some b

theorem Piece.Behind.marker (behind : Behind last ps b) (handle : UInt32) : Behind last (.marker handle :: ps) b := by
  rcases behind with ends | ⟨handles, rfl, last⟩
  · exact .inl (ends.cons _)
  · exact .inr ⟨handle :: handles, rfl, last⟩

/-- With the byte they are behind put in front, the pieces have a last byte of their own. -/
theorem Piece.Behind.byte {c : UInt8} (behind : Behind (some c) ps b) : EndsIn (.byte c :: ps) b := by
  rcases behind with ends | ⟨handles, rfl, ⟨⟩⟩
  · exact ends.cons _
  · exact ⟨[], handles, rfl⟩

theorem Piece.exists_of_cons_eq {rest front back : List Piece} (split : piece :: rest = front ++ .blank b :: back)
    (noBlank : piece ≠ .blank b) :
    ∃ later, front = piece :: later ∧ rest = later ++ .blank b :: back := by
  cases front with
  | nil => exact absurd (List.cons.inj split).1 noBlank
  | cons first later =>
    obtain ⟨rfl, rest⟩ := List.cons.inj split
    exact ⟨later, rfl, rest⟩

/-- A space that is left keeps bytes apart. -/
theorem Division.exists_of_blank (division : Division ps) {front back : List Piece}
    (split : Piece.squeeze last gap ps = front ++ .blank b :: back) :
    ∃ before, Piece.Behind last front before ∧ Piece.KeepsApart before b back := by
  induction division generalizing last gap front with
  | nil => simp [Piece.squeeze] at split
  | @cons piece ps before _ ih =>
    generalize ends : textOf ps = rest at before
    cases before with
    | blank | comment | unclosed => exact ih split
    | @marker handle =>
      obtain ⟨front, rfl, later⟩ := Piece.exists_of_cons_eq split nofun
      exact (ih later).imp fun before => .imp_left (·.marker handle)
    | literal quoted spans =>
      obtain ⟨front, rfl, later⟩ := Piece.exists_of_cons_eq split nofun
      obtain ⟨before, inside | ⟨_, -, last⟩, apart⟩ := ih later
      · exact ⟨before, .inl (inside.cons _), apart⟩
      -- Nothing runs together with a quote, and nothing is behind a literal that is not closed.
      rcases spans.closed_or_nil with closed | rfl
      · rw [closed, Option.getD_some] at last
        cases last
        obtain ⟨-, after, _, -, together⟩ := apart
        rw [runTogether_of_stops (stops_of_isQuote quoted)] at together
        exact nomatch together
      · rw [textOf_eq_nil_iff.mp ends] at later
        simp [Piece.squeeze] at later
    | @byte c =>
      have within {front : List Piece}
          (split : .byte c :: Piece.squeeze (some c) false ps = front ++ .blank b :: back) :
          ∃ before, Piece.EndsIn front before ∧ Piece.KeepsApart before b back := by
        obtain ⟨front, rfl, later⟩ := Piece.exists_of_cons_eq split nofun
        exact (ih later).imp fun before => .imp_left Piece.Behind.byte
      rw [Piece.squeeze] at split
      split at split
      next spaced =>
        obtain ⟨before, last, together⟩ := (Option.any_eq_true _ _).mp (Bool.and_eq_true_iff.mp spaced).2
        cases front with
        | nil =>
          obtain ⟨⟨⟩, rfl⟩ := List.cons.inj split
          exact ⟨before, .inr ⟨[], rfl, last⟩, rfl, c, _, rfl, together⟩
        | cons first front =>
          exact (within (List.cons.inj split).2).imp fun before => .imp_left fun ends => .inl (ends.cons first)
      next => exact (within split).imp fun before => .imp_left .inl

/-! ### Scripts and what removal leaves of them -/

/-- A division is the only one of its text. -/
theorem Divides.iff_eq {p : Bytes} (divides : Divides p ps) (other : List Piece) : Divides p other ↔ other = ps := by
  refine ⟨fun divides' => divides'.unique divides, ?_⟩
  rintro rfl
  exact divides

/-- The removal keeps the tokens, provided that no separator stands between a slash and a star. -/
theorem Divides.tokens_remove {p : Bytes} (divides : Divides p ps) (unsplit : Piece.Unsplit ps) :
    tokens (Whitespace.remove p) = tokens p := by
  have squeezed : (scan .code (Whitespace.remove p)).lexemes =
      Whitespace.squeeze none false (scan .code p).lexemes := by
    have kept := divides.remove unsplit
    rw [← kept.text, kept.division.scan_textOf, divides.division.lexemes_squeeze, ← divides.division.scan_textOf,
      divides.text]
  have empty : Reading.Ready {} := fun _ => rfl
  have fresh : Reading.Follows none false {} {} := .fresh rfl rfl empty empty
  obtain ⟨last, gap, follows⟩ := fresh.foldl (scan .code p).lexemes
  rw [tokens, tokens, Reading.through, Reading.through, squeezed, follows.tokens]

/-- The removal strips a divided script in each respect that `Stripped` names. -/
theorem Divides.stripped {p : Bytes} (divides : Divides p ps) (unsplit : Piece.Unsplit ps) :
    Stripped ps (Piece.squeeze none false ps) where
  tokens := by rw [← (divides.remove unsplit).tokens_eq, ← divides.tokens_eq, divides.tokens_remove unsplit]
  kept := Piece.filter_squeeze none false ps
  uncommented inner closed member := nomatch Piece.eq_of_mem_squeeze member rfl
  spaces front b back split := by
    obtain ⟨before, ends | ⟨_, -, none⟩, apart⟩ := divides.division.exists_of_blank split
    · exact ⟨before, ends, apart⟩
    · cases none

/-- Each script has one division, and so has what removal leaves of it. If no slash is split from a star, then the
tokens, the literals and the markers of both are the same, and what is left has no comment and no blank but the spaces
that keep tokens apart. -/
theorem remove_stripped (script : Bytes) :
    ∃ ps qs, (∀ other, Divides script other ↔ other = ps) ∧ (∀ other, Divides (remove script) other ↔ other = qs) ∧
      (Piece.Unsplit ps → Stripped ps qs) := by
  obtain ⟨ps, divides⟩ := exists_divides script
  obtain ⟨qs, divides'⟩ := exists_divides (remove script)
  refine ⟨ps, qs, divides.iff_eq, divides'.iff_eq, fun unsplit => ?_⟩
  rw [divides'.unique (divides.remove unsplit)]
  exact divides.stripped unsplit

namespace Mixed

/-- Two words with a comment and a marker between them, two signs, a literal with quotes in it, and the beginning of a
marker. -/
def pieces : List Piece :=
  [.byte 0x61, .blank 0x20, .comment [0x78] true, .marker 5, .byte 0x62, .blank 0x20, .byte 0x2B, .blank 0x09,
    .byte 0x2B, .literal 0x22 [0x20, 0x5C, 0x22, 0x22], .blank 0x0A, .byte 8]

theorem division : Division pieces := by
  have byte {b : UInt8} {ps : List Piece} (later : Division ps) (inked : Inked b (textOf ps)) (unquoted : ¬ isQuote b) :
      Division (.byte b :: ps) := .cons (.byte inked unquoted) later
  have blank {b : UInt8} {ps : List Piece} (later : Division ps) (blank : isBlankByte b) :
      Division (.blank b :: ps) := .cons (.blank blank) later
  have ending := blank (b := 0x0A) (byte (b := 8) .nil ⟨nofun, nofun, by decide⟩ (by decide)) (by decide)
  have escaped : Spans 0x22 [0x20, 0x5C, 0x22, 0x22] (textOf [.blank 0x0A, .byte 8]) :=
    .plain (by decide) (by decide) (.escape .closed)
  have literal := Division.cons (.literal (by decide) escaped) ending
  have sign := byte (b := 0x2B) literal ⟨nofun, nofun, by decide⟩ (by decide)
  have signs := byte (b := 0x2B) (blank (b := 0x09) sign (by decide)) ⟨nofun, nofun, by decide⟩ (by decide)
  have word := byte (b := 0x62) (blank (b := 0x20) signs (by decide)) ⟨nofun, nofun, by decide⟩ (by decide)
  have commented : Division (.comment [0x78] true :: .marker 5 :: _) := .cons (.comment (by decide)) (.cons .marker word)
  exact byte (blank commented (by decide)) ⟨nofun, nofun, by decide⟩ (by decide)

theorem unsplit : Piece.Unsplit pieces := by
  intro front gaps back _ _ split
  have slashed : .byte slash ∈ pieces := by
    rw [split]
    exact List.mem_append_right front List.mem_cons_self
  revert slashed
  decide

end Mixed

open Mixed in
/-- A script with a comment, a literal with an escaped quote and a marker has the same six tokens after the
removal. -/
theorem remove_stripped_mixed :
    Division pieces ∧ Piece.Unsplit pieces ∧
      ∃ qs, Divides (remove (textOf pieces)) qs ∧ Stripped pieces qs ∧
        runTokens qs = [[0x61], [0x62], [0x2B], [0x2B], [0x22, 0x20, 0x5C, 0x22, 0x22], [8]] := by
  obtain ⟨ps, qs, own, left, stripped⟩ := remove_stripped (textOf pieces)
  obtain rfl : pieces = ps := (own pieces).mp ⟨division, rfl⟩
  have kept := stripped unsplit
  refine ⟨division, unsplit, qs, (left qs).mpr rfl, kept, ?_⟩
  rw [kept.tokens]
  decide

end Linkage.Whitespace
