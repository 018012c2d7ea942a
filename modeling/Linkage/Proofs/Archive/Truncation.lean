import Linkage.Proofs.Archive.RoundTrip
import Linkage.Proofs.Interface.Consistency
import Linkage.Proofs.Wire.Shortage

/-!
# Archives that are cut short

A stream may stop inside of an archive, because it ends or because it fails. Wherever that is, the archive is refused
for the end of the data or for the failure, and nothing is installed. Once the archive is there as a whole, it does not
matter how the stream goes on.
-/
namespace Linkage

open Wire Format

theorem SourceFile.format_settled : Settled SourceFile.format.read :=
  imap_settled _ _ <|
    pair_settled text_settled <| pair_settled word_settled <| pair_settled word_settled (list_settled word_settled)

theorem PositionTable.format_settled : Settled PositionTable.format.read :=
  imap_settled _ _ (list_settled SourceFile.format_settled)

theorem Declaration.format_settled : Settled Declaration.format.read :=
  imap_settled _ _ <|
    pair_settled text_settled <| pair_settled (list_settled text_settled) <|
    pair_settled blob_settled <| pair_settled blob_settled <| pair_settled blob_settled <| pair_settled blob_settled <|
    pair_settled (optional_settled text_settled) <| pair_settled (optional_settled text_settled) <|
    pair_settled (list_settled text_settled) flag_settled

theorem SymbolSources.format_settled : Settled SymbolSources.format.read :=
  imap_settled _ _ (list_settled (pair_settled text_settled text_settled))

/-- A shortage is told in the words of the stream: that it has ended, or why it has failed. -/
theorem Wire.Error.IsShort.message {e : Wire.Error} (short : e.IsShort) (s : Stream) :
    e.message s.shortage = "io error: " ++ s.failure.elim "failed to fill whole buffer" (·.reason) := by
  obtain ⟨data, failure⟩ := s
  cases short <;> cases failure <;> rfl

namespace ArchiveFault

variable {path : String}

theorem message_malformed (what : Malformation) :
    (malformed path what).message = "archive '" ++ path ++ "': malformed data: " ++ what.message := by
  have joined : "': malformed data: " = "': " ++ "malformed data: " := by decide
  change "archive '" ++ path ++ "': " ++ ("malformed data: " ++ what.message) = _
  simp only [joined, String.append_assoc]

theorem message_truncatedHeader :
    (malformed path .truncatedHeader).message = "archive '" ++ path ++ "': malformed data: truncated header" := by
  have joined : "': malformed data: truncated header" = "': malformed data: " ++ "truncated header" := by decide
  rw [message_malformed, joined, ← String.append_assoc]
  rfl

/-- The failure of a reader is told in its own words. -/
theorem message_unreadable (f : ReadFailure) :
    (unreadable path f).message = "archive '" ++ path ++ "': " ++ f.reason := rfl

/-- A shortage behind the header, told as a whole. -/
theorem message_short {e : Wire.Error} (short : e.IsShort) (s : Stream) :
    (malformed path (.wire e s.shortage)).message =
      "archive '" ++ path ++ "': malformed data: io error: " ++
        s.failure.elim "failed to fill whole buffer" (·.reason) := by
  have joined : "': malformed data: io error: " = "': malformed data: " ++ "io error: " := by decide
  have said : (Malformation.wire e s.shortage).message =
      "io error: " ++ s.failure.elim "failed to fill whole buffer" (·.reason) := short.message s
  rw [message_malformed, said, joined]
  simp only [String.append_assoc]

end ArchiveFault

namespace Archive

variable {a : Archive} {k : Nat} {path : String} {failure : Option ReadFailure} {data : Bytes}

/-- Settled readers in sequence are settled, so what is read of an archive is decided by the bytes read. -/
theorem format_settled : Settled format.read :=
  imap_settled _ _ <|
    pair_settled text_settled <| pair_settled text_settled <| pair_settled (list_settled text_settled) <|
    pair_settled blob_settled <| pair_settled (list_settled Declaration.format_settled) <|
    pair_settled blob_settled <| pair_settled (optional_settled PositionTable.format_settled) <|
    pair_settled flag_settled <| pair_settled (list_settled blob_settled) SymbolSources.format_settled

/-- Inside of the header the data is missing because it ends, whoever says so, or because the reader fails. -/
theorem read_of_short (path : String) (failure : Option ReadFailure) (short : data.length < 12) :
    ∃ fault, read path ⟨data, failure⟩ = .error fault ∧
      ((∀ f ∈ failure, f.kind = .unexpectedEnd) → fault = .malformed path .truncatedHeader) ∧
      (∀ f ∈ failure, f.kind = .other → fault = .unreadable path f) := by
  have noHeader : (data.take 12).length < 12 := by
    rw [List.length_take]
    omega
  unfold read
  dsimp only
  rw [if_pos noHeader]
  match failure with
  | none => exact ⟨_, rfl, fun _ => rfl, nofun⟩
  | some ⟨.unexpectedEnd, reason⟩ =>
    refine ⟨_, rfl, fun _ => rfl, fun f given other => ?_⟩
    cases given
    cases other
  | some ⟨.other, reason⟩ =>
    refine ⟨_, rfl, fun ended => absurd (ended _ rfl) nofun, fun f given _ => ?_⟩
    cases given
    rfl

/-- What is wrong with the fields is reported for the path that was asked for. -/
theorem readFields_of_error {e : Wire.Error} (refused : format.read (data.drop 12) = .error e) :
    readFields path ⟨data, failure⟩ = .error (.malformed path (.wire e (Stream.shortage ⟨data, failure⟩))) := by
  unfold readFields
  dsimp only
  rw [refused]

theorem length_header : header.length = 12 := by
  rw [header, List.length_append, Bytes.length_ofNatLE]
  decide

/-- Cut behind the header, an archive is short of data and nothing else is wrong with it. -/
theorem read_cut (small : a.encode.length < 2 ^ 64) (behind : 12 ≤ k) (cut : k < a.encode.length) (path : String)
    (failure : Option ReadFailure) :
    ∃ e, e.IsShort ∧ read path ⟨a.encode.take k, failure⟩ =
      .error (.malformed path (.wire e (Stream.shortage ⟨a.encode.take k, failure⟩))) := by
  rw [encode_eq, List.length_append, length_header] at small cut
  have split : a.encode.take k = header ++ (format.write a).take (k - 12) := by
    rw [encode_eq, List.take_append, length_header, List.take_of_length_le (length_header ▸ behind)]
  obtain ⟨e, short, refused⟩ := format_restoring.read_take format_settled (a := a) (n := k - 12) (by omega) (by omega)
  refine ⟨e, short, ?_⟩
  rw [split, read_header]
  apply readFields_of_error
  rw [List.drop_left' length_header]
  exact refused

/-- What the fault of a cut archive is, by the place of the cut. -/
theorem read_take (small : a.encode.length < 2 ^ 64) (cut : k < a.encode.length) (path : String)
    (failure : Option ReadFailure) :
    let s : Stream := ⟨a.encode.take k, failure⟩
    ∃ fault, read path s = .error fault ∧
      (k < 12 → (∀ f ∈ failure, f.kind = .unexpectedEnd) → fault = .malformed path .truncatedHeader) ∧
      (k < 12 → ∀ f ∈ failure, f.kind = .other → fault = .unreadable path f) ∧
      (12 ≤ k → ∃ e, e.IsShort ∧ fault = .malformed path (.wire e s.shortage)) := by
  intro s
  by_cases behind : 12 ≤ k
  · obtain ⟨e, short, found⟩ := read_cut small behind cut path failure
    exact ⟨_, found, fun inside => absurd behind (Nat.not_le.mpr inside),
      fun inside => absurd behind (Nat.not_le.mpr inside), fun _ => ⟨e, short, rfl⟩⟩
  · have short : (a.encode.take k).length < 12 := by
      rw [List.length_take]
      omega
    obtain ⟨fault, found, ended, broken⟩ := read_of_short path failure short
    exact ⟨fault, found, fun _ => ended, fun _ => broken, fun further => absurd further behind⟩

end Archive

/-- A stream stops after `k` bytes of an archive and whatever comes behind it, because it ends or because it fails. If
that is short of the whole archive, then nothing is installed. Inside of the header, the fault is a truncated header if
the data ends, be it that the stream ends or that the reader reports the end, and the failure of the reader otherwise.
Behind the header, the archive is malformed, in the words of the end of the data or in those of the reader. If the
archive is there as a whole, it is read. An encoding of `2 ^ 64` bytes does not fit into memory. -/
theorem receive_cut {a : Archive} (inOrder : ∀ t ∈ a.positions, t.check = .ok ()) (small : a.encode.length < 2 ^ 64)
    (path : String) (m : Registry) (installed : List String) (rest : Bytes) (k : Nat) (failure : Option ReadFailure) :
    let s : Stream := ⟨(a.encode ++ rest).take k, failure⟩
    (k < a.encode.length →
      ∃ fault, m.receive path s = .error fault ∧
        (Registry.Session.mk m installed).after (.receive path s) = ⟨m, installed⟩ ∧
        (k < 12 → (∀ f ∈ failure, f.kind = .unexpectedEnd) →
          fault = .malformed path .truncatedHeader ∧
          fault.message = "archive '" ++ path ++ "': malformed data: truncated header") ∧
        (k < 12 → ∀ f ∈ failure, f.kind = .other →
          fault = .unreadable path f ∧ fault.message = "archive '" ++ path ++ "': " ++ f.reason) ∧
        (12 ≤ k → ∃ e, fault = .malformed path (.wire e s.shortage) ∧
          fault.message = "archive '" ++ path ++ "': malformed data: io error: " ++
            failure.elim "failed to fill whole buffer" (·.reason))) ∧
    (a.encode.length ≤ k → Archive.read path s = .ok a) := by
  intro s
  constructor
  · intro cut
    have split : (a.encode ++ rest).take k = a.encode.take k := List.take_append_of_le_length (Nat.le_of_lt cut)
    have refused := Archive.read_take small cut path failure
    rw [← split] at refused
    obtain ⟨fault, found, ended, broken, further⟩ := refused
    -- A refused archive leaves the registry alone.
    have failed : m.receive path s = .error fault := by
      rw [Registry.receive, found]
      rfl
    refine ⟨fault, failed, ?unchanged, fun inside atEnd => ?ended, fun inside f given other => ?broken,
      fun behind => ?further⟩
    case unchanged =>
      rw [Registry.Session.after, Registry.Call.perform, failed]
      rfl
    case ended =>
      obtain rfl := ended inside atEnd
      exact ⟨rfl, ArchiveFault.message_truncatedHeader⟩
    case broken =>
      obtain rfl := broken inside f given other
      exact ⟨rfl, ArchiveFault.message_unreadable f⟩
    case further =>
      obtain ⟨e, short, rfl⟩ := further behind
      exact ⟨e, rfl, ArchiveFault.message_short short s⟩
  · intro whole
    have split : (a.encode ++ rest).take k = a.encode ++ rest.take (k - a.encode.length) := by
      rw [List.take_append, List.take_of_length_le whole]
    change Archive.read path ⟨(a.encode ++ rest).take k, failure⟩ = .ok a
    rw [split]
    exact Archive.read_encode inOrder small path _ failure

/-- Inside of the header, a stream that ends, a reader that fails and a reader that reports the end; then a cut inside
of a declaration, and one behind the archive. -/
theorem receive_cut_sample :
    (∀ t ∈ Archive.sample.positions, t.check = .ok ()) ∧ Archive.sample.encode.length < 2 ^ 64 ∧
    Registry.empty.receive "p" ⟨(Archive.sample.encode ++ [0xFF]).take 11, none⟩ =
      .error (.malformed "p" .truncatedHeader) ∧
    Registry.empty.receive "p" ⟨(Archive.sample.encode ++ [0xFF]).take 11, some ⟨.other, "source gone"⟩⟩ =
      .error (.unreadable "p" ⟨.other, "source gone"⟩) ∧
    Registry.empty.receive "p" ⟨(Archive.sample.encode ++ [0xFF]).take 11, some ⟨.unexpectedEnd, "peer left"⟩⟩ =
      .error (.malformed "p" .truncatedHeader) ∧
    (∃ e, Registry.empty.receive "p" ⟨(Archive.sample.encode ++ [0xFF]).take 100, some ⟨.other, "source gone"⟩⟩ =
        .error (.malformed "p" (.wire e (.broken "source gone"))) ∧
      (ArchiveFault.malformed "p" (.wire e (.broken "source gone"))).message =
        "archive 'p': malformed data: io error: source gone") ∧
    Archive.read "p" ⟨(Archive.sample.encode ++ [0xFF]).take 1000, some ⟨.other, "source gone"⟩⟩ =
      .ok Archive.sample := by
  have inOrder := Archive.checkPositions_eq_ok.mp (show Archive.sample.checkPositions = .ok () from rfl)
  have small : Archive.sample.encode.length < 2 ^ 64 := by decide +kernel
  have inside : 100 < Archive.sample.encode.length := by decide +kernel
  have whole : Archive.sample.encode.length ≤ 1000 := by decide +kernel
  have cut := fun k failure => receive_cut inOrder small "p" .empty [] [0xFF] k failure
  have inHeader : 11 < Archive.sample.encode.length := Nat.lt_trans (by decide) inside
  refine ⟨inOrder, small, ?ended, ?broken, ?reported, ?fields, (cut 1000 _).2 whole⟩
  case ended =>
    obtain ⟨fault, refused, -, ended, -, -⟩ := (cut 11 none).1 inHeader
    rw [refused, (ended (by decide) nofun).1]
  case broken =>
    obtain ⟨fault, refused, -, -, broken, -⟩ := (cut 11 (some ⟨.other, "source gone"⟩)).1 inHeader
    rw [refused, (broken (by decide) _ rfl rfl).1]
  case reported =>
    obtain ⟨fault, refused, -, ended, -, -⟩ := (cut 11 (some ⟨.unexpectedEnd, "peer left"⟩)).1 inHeader
    rw [refused, (ended (by decide) fun f given => Option.some.inj given ▸ rfl).1]
  case fields =>
    obtain ⟨fault, refused, -, -, -, fields⟩ := (cut 100 (some ⟨.other, "source gone"⟩)).1 inside
    obtain ⟨e, rfl, said⟩ := fields (by decide)
    exact ⟨e, refused, said⟩

end Linkage
