import Linkage.Proofs.Program.Lexemes

/-!
# Removing whitespace twice

A second removal finds nothing to drop, unless the first one has opened a comment: it drops the gap between a slash and a
star, and then the two stand together. This is the only way in which a stripped script is read as something else.
-/
namespace Linkage.Whitespace

variable {mode : Mode} {last : Option UInt8} {gap : Bool} {p t : Bytes} {b : UInt8}

/-! ### Squeezing twice -/

/-- What is squeezed has no gap that could be dropped. -/
theorem squeeze_squeeze {again gap : Bool} (fewer : again = true → gap = true) (last : Option UInt8)
    (lexemes : List Lexeme) : squeeze last again (squeeze last gap lexemes) = squeeze last gap lexemes := by
  fun_induction squeeze last gap lexemes generalizing again with
  | case1 => rfl
  | case2 last gap rest ih => exact ih fun _ => rfl
  | case3 last gap handle rest ih => exact congrArg (List.cons (.marker handle)) (ih fewer)
  | case4 last gap b rest ih => exact congrArg (List.cons (.inside b)) (ih id)
  | case5 last gap b rest spaced ih =>
    have kept : (true && last.any (runTogether · b)) = true := by
      rw [Bool.true_and]
      exact (Bool.and_eq_true_iff.mp spaced).2
    rw [squeeze, squeeze, if_pos kept, ih id]
  | case6 last gap b rest joined ih =>
    have dropped : ¬ (again && last.any (runTogether · b)) = true := by
      rw [Bool.and_eq_true_iff] at joined ⊢
      exact fun both => joined ⟨fewer both.1, both.2⟩
    rw [squeeze, if_neg dropped, ih id]

/-! ### Slashes that are split from stars -/

theorem Unsplit.nil : Unsplit [] := by
  intro front gaps back empty
  exact absurd empty.symm (by simp)

theorem Unsplit.cons {lexeme : Lexeme} {rest : List Lexeme} (unsplit : Unsplit rest)
    (apart : lexeme = .code slash → ∀ gaps back, rest ≠ List.replicate (gaps + 1) .gap ++ .code star :: back) :
    Unsplit (lexeme :: rest) := by
  intro front gaps back split
  cases front with
  | nil =>
    obtain ⟨first, others⟩ := List.cons.inj split
    exact apart first gaps back others
  | cons head front =>
    exact unsplit front gaps back (List.cons.inj split).2

/-- A lexeme other than a slash begins no divided comment opener. -/
theorem Unsplit.cons_of_ne {lexeme : Lexeme} {rest : List Lexeme} (unsplit : Unsplit rest)
    (other : lexeme ≠ .code slash) : Unsplit (lexeme :: rest) := unsplit.cons fun same => absurd same other

/-- Behind a slash, a star takes the place of the gaps in front of it. -/
theorem squeeze_gaps_star (gap : Bool) (gaps : Nat) (back : List Lexeme) :
    squeeze (some slash) gap (List.replicate gaps .gap ++ .code star :: back) =
      .code star :: squeeze (some star) false back := by
  induction gaps generalizing gap with
  | zero =>
    have apart : ¬ (gap && (some slash).any (runTogether · star)) = true := by
      rw [Option.any_some, runTogether_of_stops (by decide), Bool.and_false]
      exact Bool.false_ne_true
    rw [List.replicate_zero, List.nil_append, squeeze, if_neg apart]
  | succ gaps ih => exact ih true

/-! ### Scripts that removal leaves as they are -/

/-- Removal that goes on behind the byte `last` drops nothing. -/
def Fixed (mode : Mode) (last : Option UInt8) (p : Bytes) : Prop := spell (squeeze last false (scan mode p).lexemes) = p

namespace Fixed

/-- Inside of a literal every byte is kept, so what is behind one is left as it is, too. -/
theorem inside {quote : UInt8} (fixed : Fixed (.literal quote) last (b :: p)) :
    Fixed (.afterInside quote b) (some b) p := (List.cons.inj fixed).2

theorem escaped {quote : UInt8} (fixed : Fixed (.escaped quote) last (b :: p)) : Fixed (.literal quote) (some b) p :=
  (List.cons.inj fixed).2

theorem marker {handle : UInt32} (fixed : Fixed .code last (Marker.encode handle ++ p)) : Fixed .code last p := by
  rw [Fixed, scan_marker] at fixed
  exact List.append_cancel_left fixed

/-- Removal shortens what begins with a comment. -/
theorem noComment : ¬ Fixed .code last (slash :: star :: p) := by
  intro fixed
  have shorter := length_squeeze .comment last true p
  have same : (spell (squeeze last true (scan .comment p).lexemes)).length = p.length + 2 := congrArg List.length fixed
  rw [same, Bool.toNat_true] at shorter
  omega

/-- If nothing is dropped behind a byte of code, then nothing is dropped behind the next one. -/
theorem code (inked : Inked b p) (fixed : Fixed .code last (b :: p)) : Fixed (.afterCode b) (some b) p := by
  rw [Fixed, inked.scan] at fixed
  exact (List.cons.inj fixed).2

/-- A space that is kept stands where the bytes around it would run together, and nothing is dropped behind them. -/
theorem spaced (inked : Inked b p) (together : last.any (runTogether · b) = true)
    (fixed : Fixed .code last (0x20 :: b :: p)) : Fixed (.afterCode b) (some b) p := by
  have kept : (true && last.any (runTogether · b)) = true := together
  rw [Fixed, scan_blank (by decide), inked.scan, Scan.cons_lexemes, Scan.cons_lexemes, squeeze, squeeze,
    if_pos kept] at fixed
  exact (List.cons.inj (List.cons.inj fixed).2).2

end Fixed

/-- If no comment is read where none was, and what follows is left as it is, then the byte is split from no star. -/
theorem Unsplit.code {rest : Bytes} (unsplit : Unsplit (scan (.afterCode b) rest).lexemes)
    (inked : Inked b (spell (squeeze (some b) false (scan (.afterCode b) rest).lexemes))) :
    Unsplit (.code b :: (scan (.afterCode b) rest).lexemes) := by
  refine unsplit.cons fun isSlash gaps back starred => ?_
  obtain rfl : b = slash := Lexeme.code.inj isSlash
  apply inked.noComment (spell (squeeze (some star) false back)) rfl
  rw [starred, squeeze_gaps_star]
  rfl

/-- What a second removal leaves as it is was spelled from lexemes in which no slash was split from a star. -/
theorem Fixed.unsplit (fixed : Fixed mode.uncommented last (spell (squeeze last gap (scan mode p).lexemes))) :
    Unsplit (scan mode p).lexemes := by
  -- The second removal spells each lexeme as the first one did, so that it leaves the rest as it is too.
  fun_induction scan mode p generalizing last gap with
  | case1 mode => exact .nil
  | case2 quote b rest ih =>
    refine (@ih (some b) false ?_).cons_of_ne (by simp)
    rw [Mode.uncommented_afterInside]
    exact Fixed.inside fixed
  | case3 quote b rest ih => exact (ih (Fixed.escaped fixed)).cons_of_ne (by simp)
  | case4 rest ih | case5 _ rest _ ih | case7 rest ih | case8 _ rest _ _ _ ih =>
    exact (ih fixed).cons_of_ne (by simp)
  | case6 h₁ h₂ h₃ h₄ rest ih => exact (ih (Fixed.marker fixed)).cons_of_ne (by simp)
  | case9 b rest noMarker noComment dark ih =>
    have inked : Inked b rest := ⟨noMarker, noComment, dark⟩
    have next := @ih (some b) false
    rw [Mode.uncommented_afterCode] at next
    rw [Scan.cons_lexemes, squeeze] at fixed
    split at fixed
    next spaced =>
      have together := (Bool.and_eq_true_iff.mp spaced).2
      -- A byte that a space was put in front of is no slash.
      have shown : Inked b (spell (squeeze (some b) false (scan (.afterCode b) rest).lexemes)) := by
        refine ⟨inked.noMarker_squeezed, fun more isSlash _ => ?_, dark⟩
        rw [isSlash, any_runTogether_of_stops (by decide)] at together
        exact Bool.false_ne_true together
      exact (next (Fixed.spaced shown together fixed)).code shown
    next =>
      have shown : Inked b (spell (squeeze (some b) false (scan (.afterCode b) rest).lexemes)) := by
        refine ⟨inked.noMarker_squeezed, fun more isSlash starred => ?_, dark⟩
        rw [spell_cons, starred, isSlash] at fixed
        exact Fixed.noComment fixed
      exact (next (Fixed.code shown fixed)).code shown

/-- A second removal changes nothing exactly if no gap stands between a slash and a star of the script. Exactly then, too,
it reads what the first one has kept, lexeme for lexeme. -/
theorem remove_remove_iff (script : Bytes) :
    (remove (remove script) = remove script ↔ Unsplit (scan .code script).lexemes) ∧
      ((scan .code (remove script)).lexemes = squeeze none false (scan .code script).lexemes ↔
        Unsplit (scan .code script).lexemes) := by
  have fixed_of_read (read : (scan .code (remove script)).lexemes = squeeze none false (scan .code script).lexemes) :
      remove (remove script) = remove script := by
    rw [remove_eq (remove script), read, squeeze_squeeze id, ← remove_eq]
  have read_of_unsplit (unsplit : Unsplit (scan .code script).lexemes) :
      (scan .code (remove script)).lexemes = squeeze none false (scan .code script).lexemes := by
    rw [scan_remove unsplit]
  have unsplit_of_fixed (fixed : remove (remove script) = remove script) : Unsplit (scan .code script).lexemes := by
    rw [remove_eq (remove script), remove_eq script] at fixed
    exact Fixed.unsplit fixed
  exact ⟨⟨unsplit_of_fixed, fun unsplit => fixed_of_read (read_of_unsplit unsplit)⟩,
    ⟨fun read => unsplit_of_fixed (fixed_of_read read), read_of_unsplit⟩⟩

/-- The first removal drops the space, and the second one the comment that this has opened. -/
theorem remove_not_idempotent : remove (remove [slash, 0x20, star]) ≠ remove [slash, 0x20, star] := by decide +kernel

end Linkage.Whitespace
