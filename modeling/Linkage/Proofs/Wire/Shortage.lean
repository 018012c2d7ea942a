import Linkage.Proofs.Wire.Laws

/-!
# Data that ends too early

What a reader answers is decided by the bytes that it has seen: more data behind them changes neither a value nor a
refusal. Only a shortage of data can end. So what is written of a value, cut short anywhere, is refused for its
shortage and for nothing else.
-/
namespace Linkage.Wire

variable {α β : Type} {data rest : Bytes} {n : Nat} {e : Error}

/-- The data ends where more was to be read. -/
inductive Error.IsShort : Error → Prop
  | number : IsShort .shortNumber
  | text : IsShort .shortText

/-- An answer stays as it is when more data comes, unless it was a shortage. -/
structure Settled (r : Reader α) : Prop where
  value : ∀ {data a rest}, r data = .ok (a, rest) → ∀ more, r (data ++ more) = .ok (a, rest ++ more)
  refusal : ∀ {data e}, r data = .error e → ¬ e.IsShort → ∀ more, r (data ++ more) = .error e

/-! ### Single steps -/

/-- A step and the next fail where the first fails, or where it succeeds and the second fails on what is left. -/
theorem bind_eq_error {first : Reader α} {next : α → Reader β} :
    (first >>= next) data = .error e ↔
      first data = .error e ∨ ∃ a middle, first data = .ok (a, middle) ∧ next a middle = .error e := by
  change (first data >>= fun (a, middle) => next a middle) = _ ↔ _
  cases first data with
  | error cause => simp [bind, Except.bind]
  | ok found =>
    obtain ⟨a, middle⟩ := found
    constructor
    · intro later
      exact .inr ⟨a, middle, rfl, later⟩
    · rintro (⟨⟨⟩⟩ | ⟨_, _, same, later⟩)
      cases same
      exact later

/-- A reader that reads nothing has nothing to run short of. -/
theorem settled_pure (a : α) : Settled (pure a : Reader α) where
  value found more := by
    obtain ⟨same, rfl⟩ := pure_eq_ok.mp found
    exact pure_eq_ok.mpr ⟨same, rfl⟩
  refusal failed := by cases failed

theorem settled_throw : Settled (throw e : Reader α) where
  value found := absurd found throw_ne_ok
  refusal failed _ more := by
    cases failed
    rfl

/-- To take bytes is settled, since a success reads no further and a failure is a shortage. -/
theorem settled_take (short : e.IsShort) : Settled (take n e) where
  value found more := by
    obtain ⟨rfl, enough⟩ := take_eq_ok.mp found
    rw [List.append_assoc]
    exact take_eq_ok.mpr ⟨rfl, enough⟩
  refusal failed full := by
    -- To take bytes fails for a shortage only.
    simp only [take] at failed
    split at failed
    · cases failed
    · cases failed
      exact absurd short full

/-- Settled readers in a row are settled. -/
theorem settled_bind {first : Reader α} {next : α → Reader β} (one : Settled first) (others : ∀ a, Settled (next a)) :
    Settled (first >>= next) where
  value found more := by
    obtain ⟨a, middle, read, later⟩ := bind_eq_ok.mp found
    exact bind_eq_ok.mpr ⟨a, middle ++ more, one.value read more, (others a).value later more⟩
  refusal failed full more := by
    rcases bind_eq_error.mp failed with first | ⟨a, middle, read, later⟩
    · exact bind_eq_error.mpr (.inl (one.refusal first full more))
    · exact bind_eq_error.mpr (.inr ⟨a, middle ++ more, one.value read more, (others a).refusal later full more⟩)

/-- To read a counted run of items is settled when the items are. -/
theorem settled_readMany {item : Reader α} (settled : Settled item) (n : Nat) (done : List α) :
    Settled (readMany item n done) := by
  induction n generalizing done with
  | zero => exact settled_pure _
  | succ n ih => exact settled_bind settled fun a => ih (a :: done)

namespace Format

/-! ### Formats -/

theorem word_settled : Settled word.read := settled_bind (settled_take .number) fun _ => settled_pure _

theorem count_settled : Settled count.read := settled_bind (settled_take .number) fun _ => settled_pure _

theorem flag_settled : Settled flag.read := by
  refine settled_bind (settled_take .number) fun front => ?_
  split
  · exact settled_pure false
  · exact settled_pure true
  · exact settled_throw

theorem blob_settled : Settled blob.read := settled_bind count_settled fun _ => settled_take .number

theorem text_settled : Settled text.read := by
  refine settled_bind count_settled fun n => settled_bind (settled_take .text) fun bytes => ?_
  split
  · exact settled_pure _
  · exact settled_throw

theorem list_settled {item : Format α} (settled : Settled item.read) : Settled item.list.read :=
  settled_bind count_settled fun n => settled_readMany settled n []

theorem optional_settled {item : Format α} (settled : Settled item.read) : Settled item.optional.read := by
  refine settled_bind (settled_take .number) fun front => ?_
  split
  · exact settled_pure none
  · exact settled_bind settled fun a => settled_pure (some a)
  · exact settled_throw

/-- A pair is settled when both parts are. -/
theorem pair_settled {first : Format α} {second : Format β} (one : Settled first.read) (other : Settled second.read) :
    Settled (first.pair second).read :=
  settled_bind one fun a => settled_bind other fun b => settled_pure (a, b)

theorem imap_settled {f : Format α} (build : α → β) (parts : β → α) (settled : Settled f.read) :
    Settled (f.imap build parts).read :=
  settled_bind settled fun a => settled_pure (build a)

/-! ### Values that are cut short -/

/-- What is written of a value is refused for its shortage wherever it is cut: any other answer would stay as it is when
the rest comes, and then the value is read to its end. -/
theorem Restoring.read_take {f : Format α} (restoring : f.Restoring) (settled : Settled f.read) {a : α}
    (small : (f.write a).length < 2 ^ 64) (cut : n < (f.write a).length) :
    ∃ e, e.IsShort ∧ f.read ((f.write a).take n) = .error e := by
  have whole := restoring.read_write a [] small
  rw [List.append_nil] at whole
  cases answer : f.read ((f.write a).take n) with
  | error e =>
    by_cases short : e.IsShort
    · exact ⟨e, short, rfl⟩
    have still := settled.refusal answer short ((f.write a).drop n)
    rw [List.take_append_drop, whole] at still
    cases still
  | ok found =>
    obtain ⟨b, rest⟩ := found
    have still := settled.value answer ((f.write a).drop n)
    rw [List.take_append_drop, whole] at still
    -- Nothing is left behind the value, and so nothing was cut off.
    obtain ⟨-, nothing⟩ := Prod.mk.inj (Except.ok.inj still)
    have empty := (List.append_eq_nil_iff.mp nothing.symm).2
    exact absurd (List.drop_eq_nil_iff.mp empty) (Nat.not_le.mpr cut)

end Format
end Linkage.Wire
