import Linkage.Proofs.Program.Lexemes

/-!
# Pieces of a script

A script is divided into blanks, block comments, literals, whole markers and single bytes. Where a comment or a literal
ends is said of its text, not of a scanner that has come there. Each script has one division, and its lexemes are those
of the pieces.
-/
namespace Linkage.Whitespace

inductive Piece where
  | blank (b : UInt8)
  -- What stands behind the opening of a block comment, and whether the comment is closed behind it.
  | comment (inner : Bytes) (closed : Bool)
  -- A quote, and the literal behind it with the quote that closes it.
  | literal (quote : UInt8) (body : Bytes)
  | marker (handle : UInt32)
  | byte (b : UInt8)
  deriving DecidableEq, Repr

def Piece.text : Piece → Bytes
  | .blank b | .byte b => [b]
  | .comment inner closed => slash :: star :: (inner ++ if closed then [star, slash] else [])
  | .literal quote body => quote :: body
  | .marker handle => Marker.encode handle

def Piece.lexemes : Piece → List Lexeme
  | .blank _ => [.gap]
  | .comment inner closed => List.replicate (inner.length + closed.toNat + 1) .gap
  | .literal quote body => .code quote :: body.map .inside
  | .marker handle => [.marker handle]
  | .byte b => [.code b]

def textOf (ps : List Piece) : Bytes := ps.flatMap Piece.text

/-- A literal goes on with `body` and no further if `rest` is behind it. A backslash takes the next byte with it, and a
literal that is not closed goes on to the end of the script. -/
inductive Spans (quote : UInt8) : Bytes → Bytes → Prop
  | closed {rest : Bytes} : Spans quote [quote] rest
  | unclosed : Spans quote [] []
  | cut : Spans quote [backslash] []
  | plain {b : UInt8} {body rest : Bytes} (noQuote : b ≠ quote) (noBackslash : b ≠ backslash)
    (more : Spans quote body rest) : Spans quote (b :: body) rest
  | escape {b : UInt8} {body rest : Bytes} (more : Spans quote body rest) : Spans quote (backslash :: b :: body) rest

/-- A script that goes on with `rest` behind the text of the piece begins with just that piece. A comment ends where it
is closed for the first time. -/
inductive Piece.Before : Piece → Bytes → Prop
  | blank {b : UInt8} {rest : Bytes} (blank : isBlankByte b) : Before (.blank b) rest
  | comment {inner rest : Bytes} (goesOn : ¬ [star, slash] <:+: inner) : Before (.comment inner true) rest
  | unclosed {inner : Bytes} (goesOn : ¬ [star, slash] <:+: inner) : Before (.comment inner false) []
  | literal {quote : UInt8} {body rest : Bytes} (quoted : isQuote quote) (spans : Spans quote body rest) :
    Before (.literal quote body) rest
  | marker {handle : UInt32} {rest : Bytes} : Before (.marker handle) rest
  | byte {b : UInt8} {rest : Bytes} (inked : Inked b rest) (unquoted : ¬ isQuote b) : Before (.byte b) rest

/-- The pieces are those that their own text is divided into. -/
inductive Division : List Piece → Prop
  | nil : Division []
  | cons {piece : Piece} {ps : List Piece} (before : piece.Before (textOf ps)) (division : Division ps) :
    Division (piece :: ps)

structure Divides (p : Bytes) (ps : List Piece) : Prop where
  division : Division ps
  text : textOf ps = p

@[simp] theorem textOf_nil : textOf [] = [] := rfl

@[simp] theorem textOf_cons (piece : Piece) (ps : List Piece) : textOf (piece :: ps) = piece.text ++ textOf ps := rfl

@[simp] theorem textOf_append (front back : List Piece) : textOf (front ++ back) = textOf front ++ textOf back :=
  List.flatMap_append

variable {p rest : Bytes} {ps qs : List Piece} {piece : Piece} {quote b : UInt8}

theorem ne_backslash_of_isQuote (quoted : isQuote quote) : quote ≠ backslash := by
  rintro rfl
  exact nomatch quoted

theorem stops_of_isQuote (quoted : isQuote quote) : stops quote := by
  simp only [isQuote, Bool.or_eq_true, beq_iff_eq] at quoted
  rcases quoted with (rfl | rfl) | rfl <;> decide

theorem inked_of_isQuote (quoted : isQuote quote) (rest : Bytes) : Inked quote rest := by
  simp only [isQuote, Bool.or_eq_true, beq_iff_eq] at quoted
  rcases quoted with (rfl | rfl) | rfl <;> exact ⟨nofun, nofun, by decide⟩

/-! ### The lexemes of pieces -/

namespace Spans

variable {body body' rest' : Bytes}

/-- Behind an opening quote the scan sees the body as bytes of the literal and goes on in code. -/
theorem scan_eq (spans : Spans quote body rest) (quoted : isQuote quote) :
    (scan (.literal quote) (body ++ rest)).lexemes = body.map .inside ++ (scan .code rest).lexemes := by
  induction spans with
  | @closed rest =>
    have after : Mode.afterInside quote quote = .code := by
      rw [Mode.afterInside, if_neg (ne_backslash_of_isQuote quoted), if_pos rfl]
    rw [List.singleton_append, scan, after]
    rfl
  | unclosed => rfl
  | cut => rfl
  | @plain b _ _ noQuote noBackslash _ ih =>
    have after : Mode.afterInside quote b = .literal quote := by
      rw [Mode.afterInside, if_neg noBackslash, if_neg noQuote]
    rw [List.cons_append, scan, after, Scan.cons_lexemes, ih]
    rfl
  | @escape b body rest _ ih => exact congrArg (fun later => .inside backslash :: .inside b :: later) ih

/-- A literal ends with its quote if it does not end with the script. -/
theorem closed_or_nil (spans : Spans quote body rest) : body.getLast? = some quote ∨ rest = [] := by
  induction spans with
  | closed => exact .inl rfl
  | unclosed | cut => exact .inr rfl
  | plain _ _ _ ih => exact ih.imp_left fun last => by rw [List.getLast?_cons, last, Option.getD_some]
  | escape _ ih => exact ih.imp_left fun last => by simp only [List.getLast?_cons, last, Option.getD_some]

/-- What is behind a literal can be replaced. -/
theorem change (spans : Spans quote body rest) (empty : rest = [] → rest' = []) : Spans quote body rest' := by
  induction spans with
  | closed => exact .closed
  | unclosed =>
    rw [empty rfl]
    exact .unclosed
  | cut =>
    rw [empty rfl]
    exact .cut
  | plain noQuote noBackslash _ ih => exact .plain noQuote noBackslash (ih empty)
  | escape _ ih => exact .escape (ih empty)

end Spans

/-- A comment that closes is a run of gaps, one for each byte and its end. -/
theorem scan_comment_closed {inner : Bytes} (goesOn : ¬ [star, slash] <:+: inner) :
    (scan .comment (inner ++ star :: slash :: rest)).lexemes =
      List.replicate (inner.length + 1) .gap ++ (scan .code rest).lexemes := by
  induction inner with
  | nil => rfl
  | cons b inner ih =>
    have inside : ∀ more, b = star → inner ++ star :: slash :: rest = slash :: more → False := by
      rintro more rfl next
      cases inner with
      | nil => exact nomatch (List.cons.inj next).1
      | cons c inner =>
        obtain rfl : c = slash := (List.cons.inj next).1
        exact goesOn ⟨[], inner, rfl⟩
    rw [List.cons_append, scan.eq_5 _ _ inside, Scan.cons_lexemes, ih fun within => goesOn (List.infix_cons within)]
    rfl

theorem scan_comment_unclosed {inner : Bytes} (goesOn : ¬ [star, slash] <:+: inner) :
    (scan .comment inner).lexemes = List.replicate inner.length .gap := by
  induction inner with
  | nil => rfl
  | cons b inner ih =>
    have inside : ∀ more, b = star → inner = slash :: more → False := by
      rintro more rfl rfl
      exact goesOn ⟨[], more, rfl⟩
    rw [scan.eq_5 _ _ inside, Scan.cons_lexemes, ih fun within => goesOn (List.infix_cons within)]
    rfl

/-- The scan of a piece gives its lexemes and goes on in code behind it. -/
theorem Piece.Before.scan_eq (before : piece.Before rest) :
    (scan .code (piece.text ++ rest)).lexemes = piece.lexemes ++ (scan .code rest).lexemes := by
  cases before with
  | blank blank => exact congrArg Scan.lexemes (scan_blank blank rest)
  | @comment inner _ goesOn =>
    have opened : Piece.text (.comment inner true) ++ rest = slash :: star :: (inner ++ star :: slash :: rest) := by
      simp [Piece.text]
    rw [opened]
    exact congrArg (List.cons Lexeme.gap) (scan_comment_closed goesOn)
  | @unclosed inner goesOn =>
    have opened : Piece.text (.comment inner false) ++ [] = slash :: star :: inner := by simp [Piece.text]
    have none : Piece.lexemes (.comment inner false) ++ (scan .code []).lexemes =
        .gap :: List.replicate inner.length .gap := List.append_nil _
    rw [opened, none]
    exact congrArg (List.cons Lexeme.gap) (scan_comment_unclosed goesOn)
  | @literal quote body _ quoted spans =>
    have opens : Mode.afterCode quote = .literal quote := if_pos quoted
    rw [Piece.text, List.cons_append, (inked_of_isQuote quoted _).scan, opens, Scan.cons_lexemes, spans.scan_eq quoted]
    rfl
  | marker => exact congrArg Scan.lexemes (scan_marker _ rest)
  | @byte b _ inked unquoted =>
    have goesOn : Mode.afterCode b = .code := if_neg unquoted
    rw [Piece.text, List.singleton_append, inked.scan, goesOn]
    rfl

/-- The lexemes of a divided script are those of its pieces in order. -/
theorem Division.scan_textOf (division : Division ps) : (scan .code (textOf ps)).lexemes = ps.flatMap Piece.lexemes := by
  induction division with
  | nil => rfl
  | cons before _ ih => rw [textOf_cons, before.scan_eq, ih, List.flatMap_cons]

/-! ### Each script has one division -/

/-- Where a comment goes on, it has a first end or none. -/
theorem exists_comment_end (p : Bytes) :
    (∃ inner rest, p = inner ++ star :: slash :: rest ∧ ¬ [star, slash] <:+: inner) ∨ ¬ [star, slash] <:+: p := by
  induction p with
  | nil => exact .inr (by decide)
  | cons b p ih =>
    have extend {t : Bytes} (goesOn : ¬ [star, slash] <:+: t) (apart : ¬ [star, slash] <+: b :: t) :
        ¬ [star, slash] <:+: b :: t := fun within => (List.infix_cons_iff.mp within).elim apart goesOn
    by_cases closes : [star, slash] <+: b :: p
    · obtain ⟨rest, closed⟩ := closes
      exact .inl ⟨[], rest, closed.symm, by decide⟩
    · rcases ih with ⟨inner, rest, rfl, goesOn⟩ | goesOn
      · refine .inl ⟨b :: inner, rest, rfl, extend goesOn fun starts => closes ?_⟩
        exact starts.trans (List.prefix_append (b :: inner) (star :: slash :: rest))
      · exact .inr (extend goesOn closes)

/-- Behind an opening quote every script goes on with a literal, be it closed or not. -/
theorem exists_spans (quote : UInt8) : (p : Bytes) → ∃ body rest, p = body ++ rest ∧ Spans quote body rest
  | [] => ⟨[], [], rfl, .unclosed⟩
  | b :: p => by
    by_cases closes : b = quote
    · subst closes
      exact ⟨[b], p, rfl, .closed⟩
    by_cases escapes : b = backslash
    · subst escapes
      match p with
      | [] => exact ⟨[backslash], [], rfl, .cut⟩
      | c :: p =>
        obtain ⟨body, rest, rfl, spans⟩ := exists_spans quote p
        exact ⟨backslash :: c :: body, rest, rfl, .escape spans⟩
    · obtain ⟨body, rest, rfl, spans⟩ := exists_spans quote p
      exact ⟨b :: body, rest, rfl, .plain closes escapes spans⟩

/-- A script that is not empty begins with a piece. -/
theorem exists_before (b : UInt8) (p : Bytes) :
    ∃ (piece : Piece) (rest : Bytes), b :: p = piece.text ++ rest ∧ piece.Before rest := by
  by_cases blank : isBlankByte b
  · exact ⟨.blank b, p, rfl, .blank blank⟩
  by_cases quoted : isQuote b
  · obtain ⟨body, rest, rfl, spans⟩ := exists_spans b p
    exact ⟨.literal b body, rest, rfl, .literal quoted spans⟩
  by_cases marked : ∃ h₁ h₂ h₃ h₄ rest, b = Marker.sentinel ∧ p = h₁ :: h₂ :: h₃ :: h₄ :: rest
  · obtain ⟨h₁, h₂, h₃, h₄, rest, rfl, rfl⟩ := marked
    refine ⟨.marker (Marker.handle h₁ h₂ h₃ h₄), rest, ?_, .marker⟩
    rw [Piece.text, Marker.encode_handle]
    rfl
  by_cases commented : ∃ rest, b = slash ∧ p = star :: rest
  · obtain ⟨p, rfl, rfl⟩ := commented
    rcases exists_comment_end p with ⟨inner, rest, rfl, goesOn⟩ | goesOn
    · exact ⟨.comment inner true, rest, by simp [Piece.text], .comment goesOn⟩
    · exact ⟨.comment p false, [], by simp [Piece.text], .unclosed goesOn⟩
  · refine ⟨.byte b, p, rfl, .byte ⟨?_, ?_, blank⟩ quoted⟩
    · exact fun h₁ h₂ h₃ h₄ rest first next => marked ⟨h₁, h₂, h₃, h₄, rest, first, next⟩
    · exact fun rest first next => commented ⟨rest, first, next⟩

theorem Piece.length_text_pos (piece : Piece) : 0 < piece.text.length := by
  cases piece with
  | marker handle => rw [Piece.text, Marker.encode]; exact Nat.succ_pos _
  | _ => exact Nat.succ_pos _

/-- Every script divides into pieces. -/
theorem exists_divides (p : Bytes) : ∃ ps, Divides p ps :=
  match p with
  | [] => ⟨[], .nil, rfl⟩
  | b :: p => by
    obtain ⟨piece, rest, begins, before⟩ := exists_before b p
    have shorter : rest.length < (b :: p).length := by
      have positive := piece.length_text_pos
      rw [begins, List.length_append]
      omega
    obtain ⟨ps, division, rfl⟩ := exists_divides rest
    exact ⟨piece :: ps, .cons before division, begins.symm⟩
termination_by p.length
decreasing_by exact shorter

/-- The next byte tells how a literal goes on. -/
theorem Spans.eq_of_append_eq {body body' rest' : Bytes} (spans : Spans quote body rest) (quoted : isQuote quote)
    (spans' : Spans quote body' rest') (same : body ++ rest = body' ++ rest') : body = body' ∧ rest = rest' := by
  have other := ne_backslash_of_isQuote quoted
  induction spans generalizing body' with
  | closed | unclosed | cut => cases spans' <;> simp_all
  | plain | escape => cases spans' <;> grind

/-- A comment that is closed is closed for the first time in one place. -/
theorem eq_nil_of_comment_end {inner more rest rest' : Bytes} (goesOn : ¬ [star, slash] <:+: inner ++ more)
    (same : star :: slash :: rest = more ++ star :: slash :: rest') : more = [] := by
  match more with
  | [] => rfl
  | [c] => exact nomatch (List.cons.inj (List.cons.inj same).2).1
  | c :: d :: more =>
    obtain ⟨rfl, next⟩ := List.cons.inj same
    obtain ⟨rfl, -⟩ := List.cons.inj next
    exact absurd ⟨inner, more, by simp⟩ goesOn

theorem eq_of_comment_end {inner inner' rest rest' : Bytes} (goesOn : ¬ [star, slash] <:+: inner)
    (goesOn' : ¬ [star, slash] <:+: inner')
    (same : inner ++ star :: slash :: rest = inner' ++ star :: slash :: rest') : inner = inner' ∧ rest = rest' := by
  have inners : inner = inner' := by
    rcases List.append_eq_append_iff.mp same with ⟨more, rfl, ends⟩ | ⟨more, rfl, ends⟩
    · rw [eq_nil_of_comment_end goesOn' ends, List.append_nil]
    · rw [eq_nil_of_comment_end goesOn ends, List.append_nil]
  subst inners
  exact ⟨rfl, (List.cons.inj (List.cons.inj (List.append_cancel_left same)).2).2⟩

/-- A script begins with one piece only. -/
theorem Piece.Before.eq_of_append_eq {piece' : Piece} {rest' : Bytes} (before : piece.Before rest)
    (before' : piece'.Before rest') (same : piece.text ++ rest = piece'.text ++ rest') :
    piece = piece' ∧ rest = rest' := by
  have lexemes : piece.lexemes ++ (scan .code rest).lexemes = piece'.lexemes ++ (scan .code rest').lexemes := by
    rw [← before.scan_eq, ← before'.scan_eq, same]
  cases before with
  | blank blank =>
    cases before' with
    | blank => simpa [Piece.text] using same
    | comment | unclosed =>
      obtain ⟨rfl, -⟩ := List.cons.inj same
      exact nomatch blank
    | _ => simp [Piece.lexemes] at lexemes
  | @comment inner rest goesOn =>
    cases before' with
    | blank blank =>
      obtain ⟨rfl, -⟩ := List.cons.inj same
      exact nomatch blank
    | @comment inner' rest' goesOn' =>
      have ends : inner ++ star :: slash :: rest = inner' ++ star :: slash :: rest' := by simpa [Piece.text] using same
      obtain ⟨rfl, rfl⟩ := eq_of_comment_end goesOn goesOn' ends
      exact ⟨rfl, rfl⟩
    | @unclosed inner' goesOn' =>
      have ends : inner ++ [star, slash] ++ rest = inner' := by simpa [Piece.text] using same
      exact absurd ⟨inner, rest, ends⟩ goesOn'
    | _ => simp [Piece.lexemes, List.replicate_succ] at lexemes
  | @unclosed inner goesOn =>
    cases before' with
    | blank blank =>
      obtain ⟨rfl, -⟩ := List.cons.inj same
      exact nomatch blank
    | @comment inner' rest' goesOn' =>
      have ends : inner' ++ [star, slash] ++ rest' = inner := by simpa [Piece.text] using same.symm
      exact absurd ⟨inner', rest', ends⟩ goesOn
    | unclosed => simpa [Piece.text] using same
    | _ => simp [Piece.lexemes, List.replicate_succ] at lexemes
  | literal quoted spans =>
    cases before' with
    | literal quoted' spans' =>
      obtain ⟨rfl, bodies⟩ := List.cons.inj same
      obtain ⟨rfl, rfl⟩ := spans.eq_of_append_eq quoted spans' bodies
      exact ⟨rfl, rfl⟩
    | byte _ unquoted =>
      obtain ⟨rfl, -⟩ := List.cons.inj same
      exact absurd quoted unquoted
    | _ => simp [Piece.lexemes, List.replicate_succ] at lexemes
  | @marker handle rest =>
    cases before' with
    | @marker handle' rest' =>
      obtain ⟨rfl, -⟩ : handle = handle' ∧ _ := by simpa [Piece.lexemes] using lexemes
      exact ⟨rfl, List.append_cancel_left same⟩
    | _ => simp [Piece.lexemes, List.replicate_succ] at lexemes
  | byte inked unquoted =>
    cases before' with
    | byte => simpa [Piece.text] using same
    | literal quoted =>
      obtain ⟨rfl, -⟩ := List.cons.inj same
      exact absurd quoted unquoted
    | _ => simp [Piece.lexemes, List.replicate_succ] at lexemes

theorem textOf_eq_nil_iff : textOf ps = [] ↔ ps = [] := by
  cases ps with
  | nil => exact iff_of_true rfl rfl
  | cons piece ps =>
    have positive := piece.length_text_pos
    simp only [textOf_cons, List.append_eq_nil_iff, List.ne_nil_of_length_pos positive, false_and, reduceCtorEq]

/-- A script divides into pieces in one way only. -/
theorem Division.eq_of_textOf_eq (division : Division ps) (division' : Division qs) (same : textOf ps = textOf qs) :
    ps = qs := by
  induction division generalizing qs with
  | nil => exact (textOf_eq_nil_iff.mp same.symm).symm
  | cons before _ ih =>
    cases division' with
    | nil => exact textOf_eq_nil_iff.mp same
    | cons before' division' =>
      obtain ⟨rfl, rests⟩ := before.eq_of_append_eq before' same
      rw [ih division' rests]

theorem Divides.unique (divides : Divides p ps) (divides' : Divides p qs) : ps = qs :=
  divides.division.eq_of_textOf_eq divides'.division (divides.text.trans divides'.text.symm)

end Linkage.Whitespace
