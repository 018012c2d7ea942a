import Linkage.Program.Whitespace
import Linkage.Proofs.Output.MarkedText

/-!
# Scripts as whitespace removal reads them

The lexemes of a script: what separates, the whole markers, and the bytes of code and of literals, as whitespace removal
tells them apart. Removal squeezes this sequence and spells what is left. If no slash comes to stand in front of a star
by it, what it spells is read as just that sequence again.
-/
namespace Linkage.Whitespace

inductive Lexeme where
  -- A blank, or a part of a comment.
  | gap
  | marker (handle : UInt32)
  -- A byte outside of literals, or the quote that opens one.
  | code (b : UInt8)
  -- Any other byte of a literal.
  | inside (b : UInt8)
  deriving DecidableEq, Repr

/-- What a script is read as: its lexemes, and the mode behind it. -/
structure Scan where
  lexemes : List Lexeme
  ending : Mode
  deriving DecidableEq, Repr

namespace Scan

def cons (lexeme : Lexeme) (s : Scan) : Scan := ⟨lexeme :: s.lexemes, s.ending⟩

/-- The scan of a script, and then that of one behind it. -/
def followedBy (s t : Scan) : Scan := ⟨s.lexemes ++ t.lexemes, t.ending⟩

@[simp] theorem cons_lexemes (lexeme : Lexeme) (s : Scan) : (s.cons lexeme).lexemes = lexeme :: s.lexemes := rfl

end Scan

/-- The mode behind a byte of a literal. -/
def Mode.afterInside (quote b : UInt8) : Mode :=
  if b = backslash then .escaped quote else if b = quote then .code else .literal quote

/-- The mode behind a byte of code. -/
def Mode.afterCode (b : UInt8) : Mode := if isQuote b then .literal b else .code

def scan : Mode → Bytes → Scan
  | mode, [] => ⟨[], mode⟩
  | .literal quote, b :: rest => (scan (.afterInside quote b) rest).cons (.inside b)
  | .escaped quote, b :: rest => (scan (.literal quote) rest).cons (.inside b)
  | .comment, star :: slash :: rest => (scan .code rest).cons .gap
  | .comment, _ :: rest => (scan .comment rest).cons .gap
  | .code, Marker.sentinel :: h₁ :: h₂ :: h₃ :: h₄ :: rest =>
    (scan .code rest).cons (.marker (Marker.handle h₁ h₂ h₃ h₄))
  | .code, slash :: star :: rest => (scan .comment rest).cons .gap
  | .code, b :: rest =>
    if isBlankByte b then (scan .code rest).cons .gap else (scan (.afterCode b) rest).cons (.code b)

/-- A lexeme on its own. Any gap is spelled as a space. -/
def Lexeme.spell : Lexeme → Bytes
  | .gap => [0x20]
  | .marker handle => Marker.encode handle
  | .code b | .inside b => [b]

def spell (lexemes : List Lexeme) : Bytes := lexemes.flatMap (·.spell)

/-- Drop the gaps behind the byte `last` but those between two bytes that would run together. `gap` says whether there
is one in front. -/
def squeeze (last : Option UInt8) (gap : Bool) : List Lexeme → List Lexeme
  | [] => []
  | .gap :: rest => squeeze last true rest
  | .marker handle :: rest => .marker handle :: squeeze last gap rest
  | .inside b :: rest => .inside b :: squeeze (some b) false rest
  | .code b :: rest =>
    if gap && last.any (runTogether · b) then .gap :: .code b :: squeeze (some b) false rest
    else .code b :: squeeze (some b) false rest

@[simp] theorem spell_nil : spell [] = [] := rfl

@[simp] theorem spell_cons (lexeme : Lexeme) (rest : List Lexeme) :
    spell (lexeme :: rest) = lexeme.spell ++ spell rest := rfl

/-! ### What removal keeps -/

/-- Stripping adds nothing but spaces. -/
theorem mem_strip {b : UInt8} {mode : Mode} {last : Option UInt8} {gap : Bool} {kept : Array UInt8} {script : Bytes}
    (member : b ∈ strip mode last gap kept script) : b ∈ kept ∨ b ∈ script ∨ b = 0x20 := by
  fun_induction strip mode last gap kept script with
  | case1 => exact .inl member
  -- A byte of a literal is kept.
  | case2 _ _ _ _ _ _ _ ih | case3 _ _ _ _ _ _ ih =>
    have before := ih member
    simp only [Array.mem_push, List.mem_cons] at before ⊢
    grind
  -- Of a comment nothing is kept, and neither is a blank.
  | case4 _ _ _ _ ih | case5 _ _ _ _ _ _ ih | case7 _ _ _ _ ih | case8 _ _ _ _ _ _ _ _ ih =>
    have before := ih member
    simp only [List.mem_cons]
    grind
  | case6 _ _ _ h₁ h₂ h₃ h₄ rest ih =>
    have before := ih member
    rw [← Array.mem_toList_iff, Array.toList_appendList, List.mem_append, Array.mem_toList_iff] at before
    rcases before with (old | marker) | after | space
    · exact .inl old
    · exact .inr (.inl (List.mem_append_left rest marker))
    · exact .inr (.inl (List.mem_append_right [Marker.sentinel, h₁, h₂, h₃, h₄] after))
    · exact .inr (.inr space)
  -- Any other byte is kept, with a space in front of it if it would run into the last one.
  | case9 _ gap kept first rest _ _ _ spaced ih =>
    have before := ih member
    have space : b ∈ spaced → b ∈ kept ∨ b = 0x20 := by
      intro inside
      unfold spaced at inside
      split at inside
      · exact Array.mem_push.mp inside
      · exact .inl inside
    simp only [Array.mem_push, List.mem_cons] at before ⊢
    grind

theorem mem_remove {b : UInt8} {script : Bytes} (member : b ∈ remove script) : b ∈ script ∨ b = 0x20 := by
  simpa using mem_strip (Array.mem_toList_iff.mp member)

/-- Whitespace removal squeezes the lexemes of a script. -/
theorem strip_eq (mode : Mode) (last : Option UInt8) (gap : Bool) (kept : Array UInt8) (script : Bytes) :
    (strip mode last gap kept script).toList =
      kept.toList ++ spell (squeeze last gap (scan mode script).lexemes) := by
  fun_induction strip mode last gap kept script with
  | case1 => simp [scan, squeeze]
  | case2 last gap kept quote b rest mode ih =>
    change _ = kept.toList ++ spell (squeeze last gap (.inside b :: (scan mode rest).lexemes))
    simp [squeeze, ih, Lexeme.spell]
  | case3 last gap kept quote b rest ih => simp [scan, squeeze, ih, Lexeme.spell]
  | case4 last gap kept rest ih => exact ih
  | case5 last gap kept b rest goesOn ih => rw [ih, scan.eq_5 _ _ goesOn]; rfl
  | case6 last gap kept h₁ h₂ h₃ h₄ rest ih =>
    rw [ih, Array.toList_appendList, List.append_assoc, ← Marker.encode_handle]
    rfl
  | case7 last gap kept rest ih => exact ih
  | case8 last gap kept b rest noMarker noComment blank ih =>
    rw [ih, scan.eq_8 _ _ noMarker noComment, if_pos blank]
    rfl
  | case9 last gap kept b rest noMarker noComment dark spaced ih =>
    rw [ih, scan.eq_8 _ _ noMarker noComment, if_neg dark, Scan.cons_lexemes, squeeze]
    unfold spaced
    split <;> simp [Lexeme.spell, Mode.afterCode]

theorem remove_eq (script : Bytes) : remove script = spell (squeeze none false (scan .code script).lexemes) :=
  strip_eq .code none false #[] script

/-! ### One lexeme at a time -/

/-- In code a blank byte is a gap and nothing else. -/
theorem scan_blank {b : UInt8} (blank : isBlankByte b) (rest : Bytes) :
    scan .code (b :: rest) = (scan .code rest).cons .gap := by
  simp only [isBlankByte, Bool.or_eq_true, beq_iff_eq] at blank
  rcases blank with ((rfl | rfl) | rfl) | rfl <;> rfl

/-- A marker is one lexeme, whatever bytes its handle has. -/
theorem scan_marker (handle : UInt32) (rest : Bytes) :
    scan .code (Marker.encode handle ++ rest) = (scan .code rest).cons (.marker handle) := by
  obtain ⟨h₁, h₂, h₃, h₄, bytes, rfl⟩ := Marker.exists_bytes_of_handle handle
  rw [bytes]
  rfl

/-- The byte is one of code in front of `rest`: it begins neither a marker nor a comment, and is not blank. -/
structure Inked (b : UInt8) (rest : Bytes) : Prop where
  noMarker : ∀ h₁ h₂ h₃ h₄ more, b = Marker.sentinel → rest = h₁ :: h₂ :: h₃ :: h₄ :: more → False
  noComment : ∀ more, b = slash → rest = star :: more → False
  dark : ¬ isBlankByte b

/-- A byte that is neither blank nor the start of a comment or a marker is a lexeme of code. -/
theorem Inked.scan {b : UInt8} {rest : Bytes} (inked : Inked b rest) :
    scan .code (b :: rest) = (scan (.afterCode b) rest).cons (.code b) := by
  rw [Whitespace.scan.eq_8 _ _ inked.noMarker inked.noComment, if_neg inked.dark]

/-! ### Scripts one after the other -/

/-- The scan ends where another one can go on: in no comment, and with no beginning of a marker. -/
structure Scan.Sealed (s : Scan) : Prop where
  whole : .code Marker.sentinel ∉ s.lexemes
  closed : s.ending ≠ .comment

theorem Scan.Sealed.of_cons {s : Scan} {lexeme : Lexeme} (sealed : (s.cons lexeme).Sealed) : s.Sealed where
  whole inside := sealed.whole (List.mem_cons_of_mem lexeme inside)
  closed := sealed.closed

theorem getLast?_cons_of_some {lexeme last : Lexeme} {rest : List Lexeme} (ends : rest.getLast? = some last) :
    (lexeme :: rest).getLast? = some last := by
  rw [List.getLast?_cons, ends, Option.getD_some]

/-- A script behind another one is read on its own, unless the two make the opening of a comment where they meet. -/
theorem scan_append {mode : Mode} {p q : Bytes} (sealed : (scan mode p).Sealed)
    (apart : (scan mode p).lexemes.getLast? = some (.code slash) → q.head? ≠ some star) :
    scan mode (p ++ q) = (scan mode p).followedBy (scan (scan mode p).ending q) := by
  fun_induction scan mode p with
  | case1 mode => rfl
  | case2 quote b rest ih | case3 quote b rest ih | case4 rest ih | case6 h₁ h₂ h₃ h₄ rest ih | case7 rest ih =>
    exact congrArg (Scan.cons _) (ih sealed.of_cons (apart <| getLast?_cons_of_some ·))
  | case5 b rest goesOn ih =>
    have inside : ∀ more, b = star → rest ++ q = slash :: more → False := by
      rintro more rfl next
      cases rest with
      | nil => exact sealed.closed rfl
      | cons c rest => exact goesOn rest rfl (congrArg (· :: rest) (List.cons.inj next).1)
    rw [List.cons_append, scan.eq_5 _ _ inside, ih sealed.of_cons (apart <| getLast?_cons_of_some ·)]
    rfl
  | case8 b rest noMarker noComment blank ih =>
    rw [List.cons_append, scan_blank blank, ih sealed.of_cons (apart <| getLast?_cons_of_some ·)]
    rfl
  | case9 b rest noMarker noComment dark ih =>
    have inked : Inked b (rest ++ q) := by
      refine ⟨fun _ _ _ _ _ first _ => sealed.whole ?_, ?_, dark⟩
      · rw [first]
        exact List.mem_cons_self
      · rintro more rfl next
        cases rest with
        | nil => exact apart rfl (congrArg List.head? next)
        | cons c rest => exact noComment rest rfl (congrArg (· :: rest) (List.cons.inj next).1)
    rw [List.cons_append, inked.scan, ih sealed.of_cons (apart <| getLast?_cons_of_some ·)]
    rfl

/-! ### What squeezed lexemes spell -/

/-- No gap stands between a slash of code and a star of code. -/
def Unsplit (lexemes : List Lexeme) : Prop :=
  ∀ front gaps back, lexemes ≠ front ++ .code slash :: (List.replicate (gaps + 1) .gap ++ .code star :: back)

theorem Unsplit.of_cons {lexeme : Lexeme} {rest : List Lexeme} (unsplit : Unsplit (lexeme :: rest)) : Unsplit rest := by
  rintro front gaps back rfl
  exact unsplit (lexeme :: front) gaps back rfl

/-- A gap is spelled as one byte, so squeezing makes nothing longer. -/
theorem length_squeeze (mode : Mode) (last : Option UInt8) (gap : Bool) (p : Bytes) :
    (spell (squeeze last gap (scan mode p).lexemes)).length ≤ p.length + gap.toNat := by
  fun_induction scan mode p generalizing last gap with
  | case1 => exact Nat.zero_le _
  | case2 quote b rest ih | case3 quote b rest ih =>
    have shorter := ih (some b) false
    simp only [Scan.cons_lexemes, squeeze, spell_cons, Lexeme.spell, List.length_append, List.length_cons,
      List.length_nil, Bool.toNat_false] at shorter ⊢
    omega
  | case4 rest ih | case5 b rest goesOn ih | case7 rest ih | case8 b rest noMarker noComment blank ih =>
    have shorter := ih last true
    simp only [Scan.cons_lexemes, squeeze, List.length_cons, Bool.toNat_true] at shorter ⊢
    omega
  | case6 h₁ h₂ h₃ h₄ rest ih =>
    have shorter := ih last gap
    simp only [Scan.cons_lexemes, squeeze, spell_cons, Lexeme.spell, Marker.encode_handle, List.length_append,
      List.length_cons, List.length_nil] at shorter ⊢
    omega
  | case9 b rest noMarker noComment dark ih =>
    have shorter := ih (some b) false
    rw [Scan.cons_lexemes, squeeze]
    split
    next spaced =>
      rw [Bool.and_eq_true] at spaced
      simp only [spaced.1, spell_cons, Lexeme.spell, List.length_append, List.length_cons, List.length_nil,
        Bool.toNat_false, Bool.toNat_true] at shorter ⊢
      omega
    next =>
      simp only [spell_cons, Lexeme.spell, List.length_append, List.length_cons, List.length_nil,
        Bool.toNat_false] at shorter ⊢
      omega

/-- Nothing runs together with the byte if it comes next. -/
def stops (b : UInt8) : Bool := !isWordByte b && b != 0x2B && b != 0x2D

theorem runTogether_of_stops {b : UInt8} (stop : stops b) (next : UInt8) : runTogether b next = false := by
  simp only [stops, Bool.and_eq_true, Bool.not_eq_true', bne_iff_ne] at stop
  obtain ⟨⟨noWord, noPlus⟩, noMinus⟩ := stop
  rw [runTogether, noWord, Bool.false_and, Bool.false_or, Bool.and_eq_false_iff, Bool.or_eq_false_iff]
  by_cases same : b = next
  · subst same
    exact .inr ⟨beq_false_of_ne noPlus, beq_false_of_ne noMinus⟩
  · exact .inl (beq_false_of_ne same)

/-- Whether two bytes run together does not depend on their order. -/
theorem runTogether_comm (before after : UInt8) : runTogether before after = runTogether after before := by
  by_cases same : before = after
  · rw [same]
  · rw [runTogether, runTogether, beq_false_of_ne same, beq_false_of_ne (Ne.symm same), Bool.and_comm, Bool.false_and,
      Bool.false_and]

/-- A byte that stops a token needs no space before it. -/
theorem any_runTogether_of_stops {b : UInt8} (stop : stops b) (last : Option UInt8) :
    last.any (runTogether · b) = false := by
  rw [Option.any_eq_false]
  intro before _
  rw [runTogether_comm]
  exact runTogether_of_stops stop before

/-- What is spelled behind a slash begins with a star only if the star comes next but for gaps. -/
theorem exists_of_star {mode : Mode} {gap : Bool} {p more : Bytes} (outside : mode = .code ∨ mode = .comment)
    (first : spell (squeeze (some slash) gap (scan mode p).lexemes) = star :: more) :
    ∃ gaps back, (scan mode p).lexemes = List.replicate gaps .gap ++ .code star :: back ∧
      (mode = .code → gaps = 0 → ∃ rest, p = star :: rest) := by
  fun_induction scan mode p generalizing gap with
  | case1 => exact nomatch first
  | case2 | case3 => exact nomatch outside
  | case4 rest ih | case8 _ rest _ _ _ ih =>
    obtain ⟨gaps, back, next, -⟩ := ih (.inl rfl) first
    exact ⟨gaps + 1, back, congrArg (List.cons Lexeme.gap) next, nofun⟩
  | case5 _ rest _ ih | case7 rest ih =>
    obtain ⟨gaps, back, next, -⟩ := ih (.inr rfl) first
    exact ⟨gaps + 1, back, congrArg (List.cons Lexeme.gap) next, nofun⟩
  | case6 => exact nomatch (List.cons.inj first).1
  | case9 b rest _ _ _ _ =>
    have apart : ¬ (gap && (some slash).any (runTogether · b)) := by
      rw [Option.any_some, runTogether_of_stops (by decide), Bool.and_false]
      exact Bool.false_ne_true
    rw [Scan.cons_lexemes, squeeze, if_neg apart] at first
    obtain rfl : b = star := (List.cons.inj first).1
    exact ⟨0, _, rfl, fun _ _ => ⟨rest, rfl⟩⟩

theorem length_lt_four {p : Bytes} : p.length < 4 ↔ ∀ h₁ h₂ h₃ h₄ more, p ≠ h₁ :: h₂ :: h₃ :: h₄ :: more := by
  match p with
  | [] | [_] | [_, _] | [_, _, _] => simp
  | h₁ :: h₂ :: h₃ :: h₄ :: more =>
    exact iff_of_false (by simp only [List.length_cons]; omega) fun none => none h₁ h₂ h₃ h₄ more rfl

/-- A sentinel with fewer than four bytes behind it has no more of them once these are squeezed. -/
theorem Inked.noMarker_squeezed {b : UInt8} {rest : Bytes} (inked : Inked b rest) (h₁ h₂ h₃ h₄ : UInt8) (more : Bytes)
    (sentinel : b = Marker.sentinel) :
    spell (squeeze (some b) false (Whitespace.scan (.afterCode b) rest).lexemes) ≠ h₁ :: h₂ :: h₃ :: h₄ :: more := by
  have short : rest.length < 4 :=
    length_lt_four.mpr fun h₁ h₂ h₃ h₄ more => inked.noMarker h₁ h₂ h₃ h₄ more sentinel
  have shorter := length_squeeze (.afterCode b) (some b) false rest
  exact length_lt_four.mp (Nat.lt_of_le_of_lt shorter short) h₁ h₂ h₃ h₄ more

/-- A byte of code stays one if what is behind it is squeezed. -/
theorem Inked.squeezed {b : UInt8} {rest : Bytes} (inked : Inked b rest)
    (unsplit : Unsplit (.code b :: (Whitespace.scan (.afterCode b) rest).lexemes)) :
    Inked b (spell (squeeze (some b) false (Whitespace.scan (.afterCode b) rest).lexemes)) := by
  refine ⟨inked.noMarker_squeezed, ?_, inked.dark⟩
  -- A star that now follows a slash did so before, or was split from it.
  rintro more rfl spelled
  obtain ⟨gaps, back, starred, immediate⟩ := exists_of_star (.inl rfl) spelled
  cases gaps with
  | zero =>
    obtain ⟨others, begins⟩ := immediate rfl rfl
    exact inked.noComment others rfl begins
  | succ gaps => exact unsplit [] gaps back (congrArg (List.cons (Lexeme.code slash)) starred)

/-- Nothing that is spelled is in a comment. -/
def Mode.uncommented : Mode → Mode
  | .comment => .code
  | mode => mode

theorem Mode.uncommented_afterInside (quote b : UInt8) : (afterInside quote b).uncommented = afterInside quote b := by
  unfold afterInside
  split
  · rfl
  · split <;> rfl

theorem Mode.uncommented_afterCode (b : UInt8) : (afterCode b).uncommented = afterCode b := by
  unfold afterCode
  split <;> rfl

/-- What the squeezed lexemes spell is read as just these. -/
theorem scan_squeeze {mode : Mode} {p : Bytes} (unsplit : Unsplit (scan mode p).lexemes) (last : Option UInt8)
    (gap : Bool) :
    scan mode.uncommented (spell (squeeze last gap (scan mode p).lexemes)) =
      ⟨squeeze last gap (scan mode p).lexemes, (scan mode p).ending.uncommented⟩ := by
  fun_induction scan mode p generalizing last gap with
  | case1 mode => rfl
  | case2 quote b rest ih =>
    have next := ih unsplit.of_cons (some b) false
    rw [Mode.uncommented_afterInside] at next
    exact congrArg (Scan.cons (.inside b)) next
  | case3 quote b rest ih => exact congrArg (Scan.cons (.inside b)) (ih unsplit.of_cons (some b) false)
  | case4 rest ih | case5 _ rest _ ih | case7 rest ih | case8 _ rest _ _ _ ih => exact ih unsplit.of_cons last true
  | case6 h₁ h₂ h₃ h₄ rest ih =>
    exact (scan_marker _ _).trans (congrArg (Scan.cons _) (ih unsplit.of_cons last gap))
  | case9 b rest noMarker noComment dark ih =>
    have next := ih unsplit.of_cons (some b) false
    rw [Mode.uncommented_afterCode] at next
    have inked : Inked b rest := ⟨noMarker, noComment, dark⟩
    have shown := (inked.squeezed unsplit).scan.trans (congrArg (Scan.cons (.code b)) next)
    rw [Scan.cons_lexemes, squeeze]
    split
    · exact (scan_blank (by decide) _).trans (congrArg (Scan.cons .gap) shown)
    · exact shown

/-- If no slash is split from a star, removal leaves a script whose lexemes are the squeezed ones. -/
theorem scan_remove {p : Bytes} (unsplit : Unsplit (scan .code p).lexemes) :
    scan .code (remove p) = ⟨squeeze none false (scan .code p).lexemes, (scan .code p).ending.uncommented⟩ := by
  rw [remove_eq]
  exact scan_squeeze unsplit none false

end Linkage.Whitespace
