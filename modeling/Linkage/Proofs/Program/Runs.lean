import Linkage.Proofs.Program.Pieces
import Linkage.Proofs.Program.Tokens
import Mathlib.Data.List.SplitBy

/-!
# Tokens as runs of pieces

The tokens of a divided script are the longest runs of its pieces that belong together, with markers passed over and
blanks and comments dropped. These are the tokens that the lexemes of the script are read as.
-/
namespace Linkage.Whitespace

namespace Piece

def isMarker : Piece → Bool
  | .marker _ => true
  | _ => false

def separates : Piece → Bool
  | .blank _ | .comment _ _ => true
  | _ => false

/-- Whether two pieces belong to one token if they stand next to each other. -/
def joins : Piece → Piece → Bool
  | .byte before, .byte after => runTogether before after
  | _, _ => false

end Piece

def unmarked (ps : List Piece) : List Piece := ps.filter (!·.isMarker)

/-- The longest runs of pieces that belong together. A blank or a comment is a run of its own. -/
def runs (ps : List Piece) : List (List Piece) := (unmarked ps).splitBy Piece.joins

def isToken (run : List Piece) : Bool := run.any (!·.separates)

def runTokens (ps : List Piece) : List Bytes := ((runs ps).filter isToken).map textOf

variable {front back ps : List Piece} {piece : Piece} {b quote : UInt8} {r : Reading}

@[simp] theorem unmarked_append (front back : List Piece) :
    unmarked (front ++ back) = unmarked front ++ unmarked back := List.filter_append _ _

/-- Where two scripts meet in pieces that do not join, the tokens are those of both. -/
theorem runTokens_append (apart : ∀ x ∈ (unmarked front).getLast?, ∀ y ∈ (unmarked back).head?, x.joins y = false) :
    runTokens (front ++ back) = runTokens front ++ runTokens back := by
  rw [runTokens, runs, unmarked_append, List.splitBy_append apart, List.filter_append, List.map_append]
  rfl

theorem unmarked_concat (front : List Piece) (noMarker : piece.isMarker = false) :
    unmarked (front ++ [piece]) = unmarked front ++ [piece] := by
  rw [unmarked_append]
  simp [unmarked, noMarker]

/-- A piece that belongs to no run in front of it is a token of its own, or none. -/
theorem runTokens_concat (noMarker : piece.isMarker = false)
    (apart : (unmarked front).getLast?.any (·.joins piece) = false) :
    runTokens (front ++ [piece]) = runTokens front ++ if piece.separates then [] else [piece.text] := by
  have alone : unmarked [piece] = [piece] := unmarked_concat [] noMarker
  have own : runTokens [piece] = if piece.separates then [] else [piece.text] := by
    have run : [piece].splitBy Piece.joins = [[piece]] := rfl
    rw [runTokens, runs, alone, run]
    cases separates : piece.separates <;> simp [isToken, separates]
  rw [runTokens_append, own]
  intro x last y first
  rw [alone] at first
  cases first
  simpa [Option.mem_def.mp last] using apart

/-- An element that is related to the last one of a list belongs to the last run. -/
theorem exists_splitBy_concat {α : Type} {related : α → α → Bool} {l : List α} {x y : α} (last : l.getLast? = some x)
    (next : related x y) : ∃ older run, l.splitBy related = older ++ [run] ∧ x ∈ run ∧
      (l ++ [y]).splitBy related = older ++ [run ++ [y]] := by
  have nonempty : l.splitBy related ≠ [] := by
    rw [List.splitBy_ne_nil]
    rintro rfl
    exact nomatch last
  obtain ⟨older, run, split⟩ := (List.eq_nil_or_concat _).resolve_left nonempty
  rw [List.concat_eq_append] at split
  obtain ⟨flat, noEmpty, chains, apart⟩ := List.splitBy_eq_iff.mp split
  rw [List.flatten_append, List.flatten_singleton] at flat
  have runs : run ≠ [] := by
    rintro rfl
    simp at noEmpty
  have ends : run.getLast? = some x := by
    rw [flat, List.getLast?_append_of_ne_nil _ runs] at last
    exact last
  refine ⟨older, run, split, List.mem_of_getLast? ends, List.splitBy_eq_iff.mpr ⟨?_, ?_, ?_, ?_⟩⟩
  · rw [List.flatten_append, List.flatten_singleton, flat, List.append_assoc]
  · rw [List.mem_append, List.mem_singleton, not_or] at noEmpty ⊢
    exact ⟨noEmpty.1, fun empty => by simp at empty⟩
  · rw [List.forall_mem_append, List.forall_mem_singleton] at chains ⊢
    refine ⟨chains.1, List.isChain_append.mpr ⟨chains.2, List.isChain_singleton y, ?_⟩⟩
    rintro _ first _ ⟨⟩
    cases ends.symm.trans first
    exact next
  · rw [List.isChain_append] at apart ⊢
    refine ⟨apart.1, List.isChain_singleton _, ?_⟩
    rintro before final _ ⟨⟩
    obtain ⟨some, _, unrelated⟩ := apart.2.2 before final run rfl
    exact ⟨some, by simp, by rwa [List.head_append_of_ne_nil runs]⟩

/-- A byte that joins the piece before it makes the last token longer. -/
theorem exists_runTokens_byte (joined : (unmarked front).getLast?.any (·.joins (.byte b))) :
    ∃ older token, runTokens front = older ++ [token] ∧ runTokens (front ++ [.byte b]) = older ++ [token ++ [b]] := by
  obtain ⟨x, last, joined⟩ := (Option.any_eq_true _ _).mp joined
  obtain ⟨older, run, split, member, split'⟩ := exists_splitBy_concat last joined
  have kept : isToken run := by
    refine List.any_eq_true.mpr ⟨x, member, ?_⟩
    cases x with
    | byte => rfl
    | blank | comment | literal | marker => exact nomatch joined
  have kept' : isToken (run ++ [.byte b]) := by
    rw [isToken, List.any_append, Bool.or_eq_true]
    exact .inl kept
  refine ⟨(older.filter isToken).map textOf, textOf run, ?_, ?_⟩
  · rw [runTokens, runs, split, List.filter_append, List.filter_cons_of_pos kept, List.map_append]
    rfl
  · have unmarked_byte : unmarked (front ++ [.byte b]) = unmarked front ++ [.byte b] := unmarked_append front _
    rw [runTokens, runs, unmarked_byte, split', List.filter_append, List.filter_cons_of_pos kept', List.map_append,
      List.filter_nil, List.map_singleton, textOf_append]
    rfl

/-! ### Readings -/

def Reading.tokenTexts (r : Reading) : List Bytes := r.tokens.reverse.map List.reverse

theorem Reading.start_tokenTexts (r : Reading) (b : UInt8) : (r.start b).tokenTexts = r.tokenTexts ++ [[b]] := by
  simp [tokenTexts, start]

theorem Reading.extend_tokenTexts {older : List Bytes} {token : Bytes} (before : r.tokenTexts = older ++ [token])
    (b : UInt8) : (r.extend b).tokenTexts = older ++ [token ++ [b]] := by
  rw [tokenTexts] at before
  unfold tokenTexts extend
  cases same : r.tokens with
  | nil => simp [same] at before
  | cons newest rest =>
    rw [same, List.reverse_cons, List.map_append] at before
    obtain ⟨rfl, last⟩ := List.append_inj' before rfl
    simp_all

/-- A literal body makes the token of its quote longer by all its bytes. -/
theorem Reading.foldl_inside {older : List Bytes} {token : Bytes} (before : r.tokenTexts = older ++ [token])
    (body : Bytes) : ((body.map Lexeme.inside).foldl read r).tokenTexts = older ++ [token ++ body] := by
  induction body generalizing r token with
  | nil => rwa [List.append_nil]
  | cons b body ih =>
    rw [List.map_cons, List.foldl_cons, read, ih (extend_tokenTexts before b), List.append_assoc, List.singleton_append]

theorem Reading.foldl_inside_last? {body : Bytes} (r : Reading) (last : body.getLast? = some b) :
    ((body.map Lexeme.inside).foldl read r).last? = some b := by
  obtain ⟨front, rfl⟩ := List.getLast?_eq_some_iff.mp last
  rw [List.map_append, List.foldl_append]
  exact extend_last? _ b

theorem Reading.foldl_gaps (r : Reading) (n : Nat) :
    (List.replicate (n + 1) Lexeme.gap).foldl read r = { r with gap := true } := by
  induction n generalizing r with
  | zero => rfl
  | succ n ih => rw [List.replicate_succ, List.foldl_cons, ih, read]

/-- The lexemes of `front` have been read: the tokens are those of the runs, and the next byte of code belongs to the
newest one if it belongs to the last run. -/
structure Reads (front : List Piece) (r : Reading) : Prop where
  tokens : r.tokenTexts = runTokens front
  joins : ∀ b, r.joins b = (unmarked front).getLast?.any (·.joins (.byte b))

namespace Reads

theorem nil : Reads [] {} := ⟨rfl, fun _ => rfl⟩

theorem marker (reads : Reads front r) (handle : UInt32) :
    Reads (front ++ [.marker handle]) (r.read (.marker handle)) := by
  have same : unmarked (front ++ [.marker handle]) = unmarked front := by
    rw [unmarked_append]
    exact List.append_nil _
  refine ⟨?_, fun b => ?_⟩
  · rw [runTokens, runs, same]
    exact reads.tokens
  · rw [same]
    exact reads.joins b

/-- Behind a separator the reading has a gap, and the last run is closed. -/
theorem separator (reads : Reads front r) (separates : piece.separates) :
    Reads (front ++ [piece]) { r with gap := true } := by
  obtain ⟨noMarker, apart, ends⟩ : piece.isMarker = false ∧ (∀ x : Piece, x.joins piece = false) ∧
      ∀ x, piece.joins x = false := by
    cases piece with
    | blank | comment => exact ⟨rfl, fun x => by cases x <;> rfl, fun _ => rfl⟩
    | literal | marker | byte => exact nomatch separates
  refine ⟨?_, fun b => ?_⟩
  · have alone : (unmarked front).getLast?.any (·.joins piece) = false := by
      rw [Option.any_eq_false]
      exact fun x _ => apart x
    rw [runTokens_concat noMarker alone, if_pos separates, List.append_nil]
    exact reads.tokens
  · rw [unmarked_concat front noMarker, List.getLast?_concat, Option.any_some, ends]
    exact Reading.ready_of_gap rfl b

/-- A byte of code joins the last token exactly if it joins the last run. -/
theorem byte (reads : Reads front r) (b : UInt8) : Reads (front ++ [.byte b]) (r.read (.code b)) := by
  have last : unmarked (front ++ [.byte b]) = unmarked front ++ [.byte b] := unmarked_concat front rfl
  rw [Reading.read]
  split
  next joined =>
    rw [reads.joins] at joined
    obtain ⟨older, token, before, after⟩ := exists_runTokens_byte joined
    refine ⟨?_, fun next => ?_⟩
    · rw [after, Reading.extend_tokenTexts (reads.tokens.trans before)]
    · rw [last, List.getLast?_concat, Reading.joins, Reading.extend_gap, Reading.extend_last?]
      rfl
  next apart =>
    rw [reads.joins, Bool.not_eq_true] at apart
    refine ⟨?_, fun next => ?_⟩
    · rw [Reading.start_tokenTexts, reads.tokens, runTokens_concat rfl apart]
      rfl
    · rw [last, List.getLast?_concat]
      rfl

/-- A literal is a token of its own. -/
theorem literal_tokens (reads : Reads front r) (quoted : isQuote quote) (body : Bytes) :
    ((Piece.lexemes (.literal quote body)).foldl Reading.read r).tokenTexts =
      runTokens (front ++ [.literal quote body]) := by
  have apart : r.joins quote = false := by
    rw [reads.joins, Option.any_eq_false]
    intro x _
    cases x with
    | byte before =>
      rw [Piece.joins, runTogether_comm]
      exact runTogether_of_stops (stops_of_isQuote quoted) before
    | blank | comment | literal | marker => rfl
  have begins : r.read (.code quote) = r.start quote := by
    rw [Reading.read, apart]
    rfl
  have alone : (unmarked front).getLast?.any (·.joins (.literal quote body)) = false := by
    rw [Option.any_eq_false]
    intro x _
    cases x <;> rfl
  rw [Piece.lexemes, List.foldl_cons, begins, Reading.foldl_inside (Reading.start_tokenTexts r quote), reads.tokens,
    runTokens_concat rfl alone]
  rfl

/-- Behind a closed literal the reading goes on as the runs do. -/
theorem literal (reads : Reads front r) (quoted : isQuote quote) {body : Bytes} (closed : body.getLast? = some quote) :
    Reads (front ++ [.literal quote body]) ((Piece.lexemes (.literal quote body)).foldl Reading.read r) := by
  refine ⟨reads.literal_tokens quoted body, fun b => ?_⟩
  rw [unmarked_concat front rfl, List.getLast?_concat]
  exact Reading.ready_of_stops (Reading.foldl_inside_last? _ closed) (stops_of_isQuote quoted) b

/-- What comes next is not joined to the piece if it is a literal that goes on to the end of the script. -/
theorem before {rest : Bytes} (reads : Reads front r) (before : piece.Before rest) :
    (piece.lexemes.foldl Reading.read r).tokenTexts = runTokens (front ++ [piece]) ∧
      (rest ≠ [] → Reads (front ++ [piece]) (piece.lexemes.foldl Reading.read r)) := by
  cases before with
  | blank => exact ⟨(reads.separator rfl).tokens, fun _ => reads.separator rfl⟩
  | comment | unclosed =>
    rw [Piece.lexemes, Reading.foldl_gaps]
    exact ⟨(reads.separator rfl).tokens, fun _ => reads.separator rfl⟩
  | literal quoted spans =>
    exact ⟨reads.literal_tokens quoted _, fun more => reads.literal quoted (spans.closed_or_nil.resolve_right more)⟩
  | marker => exact ⟨(reads.marker _).tokens, fun _ => reads.marker _⟩
  | byte => exact ⟨(reads.byte _).tokens, fun _ => reads.byte _⟩

end Reads

/-- Read from the start of a division, the token texts are the runs of joined pieces. -/
theorem Division.tokenTexts_eq (division : Division ps) (reads : Reads front r) :
    ((ps.flatMap Piece.lexemes).foldl Reading.read r).tokenTexts = runTokens (front ++ ps) := by
  induction division generalizing front r with
  | nil =>
    rw [List.append_nil]
    exact reads.tokens
  | @cons piece ps before _ ih =>
    obtain ⟨tokens, goesOn⟩ := reads.before before
    rw [List.flatMap_cons, List.foldl_append, List.append_cons]
    by_cases ends : textOf ps = []
    · rw [textOf_eq_nil_iff.mp ends, List.append_nil]
      exact tokens
    · exact ih (goesOn ends)

/-- The tokens that a script is read as are the runs of its pieces. -/
theorem Divides.tokens_eq {p : Bytes} (divides : Divides p ps) : tokens p = runTokens ps := by
  have read := divides.division.tokenTexts_eq .nil
  rw [← divides.division.scan_textOf, divides.text] at read
  exact read

-- The comment separates two words, and the marker separates nothing.
example :
    let ps : List Piece :=
      [.byte 0x61, .comment [slash] true, .byte 0x62, .marker 5, .byte 0x63, .byte 0x2B, .literal 0x22 [0x20, 0x22]]
    runTokens ps = [[0x61], [0x62, 0x63], [0x2B], [0x22, 0x20, 0x22]] := by decide

end Linkage.Whitespace
