import Linkage.Interface.Encoding
import Linkage.Proofs.Wire.Laws

/-!
# Encoded interfaces are read back

An interface is read from its encoding, whatever comes after it, and from nothing that does not begin with it. Types
nest, so both directions are proved for a type and the lists of types inside it at once; each level of nesting takes a
variant number, which is why the depth that the reader allows is always enough.
-/
namespace Linkage

open Wire Format

theorem MemberKind.tag_lt (kind : MemberKind) : kind.tag < 4 := by
  cases kind <;> decide

theorem MemberKind.ofTag_tag (kind : MemberKind) : ofTag kind.tag = kind := by
  cases kind <;> rfl

theorem MemberKind.tag_ofTag {tag : Nat} (known : tag < 4) : (ofTag tag).tag = tag := by
  match tag with
  | 0 | 1 | 2 | 3 => rfl

theorem MemberKind.format_restoring : MemberKind.format.Restoring where
  positive kind := by
    rw [MemberKind.format, length_variant]
    decide
  read_write kind rest _ := by
    refine bind_eq_ok.mpr ⟨kind.tag, rest, ?_, pure_eq_ok.mpr ⟨kind.ofTag_tag, rfl⟩⟩
    exact (readVariant_eq_ok (by decide)).mpr ⟨kind.tag_lt, rfl⟩

theorem MemberKind.format_canonical : MemberKind.format.Canonical := by
  intro data kind rest read
  obtain ⟨tag, middle, tagged, found⟩ := bind_eq_ok.mp read
  obtain ⟨known, rfl⟩ := (readVariant_eq_ok (by decide)).mp tagged
  obtain ⟨rfl, rfl⟩ := pure_eq_ok.mp found
  simp only [MemberKind.format, tag_ofTag known]

namespace TypeExpr

/-- A type takes at least one byte, so its length bounds its depth. -/
theorem length_write_pos (t : TypeExpr) : 0 < t.write.length := by
  cases t <;> simp only [write, List.length_append, length_variant] <;> omega

theorem writeAll_eq (ts : List TypeExpr) : writeAll ts = ts.flatMap write := by
  induction ts with
  | nil => rfl
  | cons t rest ih => rw [writeAll, ih, List.flatMap_cons]

/-- The format of types that nest at most `depth` deep. -/
def formatWithin (depth : Nat) : Format TypeExpr := ⟨write, readWithin depth⟩

theorem list_write (depth : Nat) (ts : List TypeExpr) :
    (formatWithin depth).list.write ts = count.write ts.length ++ writeAll ts := by
  rw [writeAll_eq]
  rfl

/-- Reads what follows the number of a variant. -/
def readFields (depth tag : Nat) : Reader TypeExpr :=
  match tag with
  | 0 => do return .basic (← text.read)
  | 1 => do
    let package ← text.read
    return .named package (← text.read)
  | 2 => do return .pointer (← readWithin depth)
  | 3 => do return .slice (← readWithin depth)
  | 4 => do
    let key ← readWithin depth
    return .map key (← readWithin depth)
  | _ => do
    let params ← (formatWithin depth).list.read
    return .func params (← (formatWithin depth).list.read)

theorem readWithin_succ (depth : Nat) : readWithin (depth + 1) = readVariant 6 >>= readFields depth := by
  rfl

/-- A type begins with its tag, which decides how the fields are read. -/
theorem readWithin_succ_eq_ok {depth : Nat} {data rest : Bytes} {t : TypeExpr} :
    readWithin (depth + 1) data = .ok (t, rest) ↔
      ∃ tag < 6, ∃ fields, data = writeVariant tag ++ fields ∧ readFields depth tag fields = .ok (t, rest) := by
  rw [readWithin_succ, bind_eq_ok]
  constructor
  · rintro ⟨tag, fields, tagged, found⟩
    obtain ⟨known, rfl⟩ := (readVariant_eq_ok (by decide)).mp tagged
    exact ⟨tag, known, fields, rfl, found⟩
  · rintro ⟨tag, known, fields, rfl, found⟩
    exact ⟨tag, fields, (readVariant_eq_ok (by decide)).mpr ⟨known, rfl⟩, found⟩

/-- Fields that can be read are the fields that are written, if the types inside of them are. -/
theorem readFields_canonical {depth tag : Nat} (known : tag < 6) (canonical : (formatWithin depth).Canonical)
    {fields rest : Bytes} {t : TypeExpr} (found : readFields depth tag fields = .ok (t, rest)) :
    writeVariant tag ++ fields = t.write ++ rest := by
  have element : ∀ {data t rest}, readWithin depth data = .ok (t, rest) → data = write t ++ rest :=
    fun inner => canonical inner
  have variants : tag = 0 ∨ tag = 1 ∨ tag = 2 ∨ tag = 3 ∨ tag = 4 ∨ tag = 5 := by omega
  rcases variants with rfl | rfl | rfl | rfl | rfl | rfl <;>
    simp only [readFields, bind_eq_ok, pure_eq_ok] at found
  · obtain ⟨name, _, named, rfl, rfl⟩ := found
    simp only [text_canonical named, write, List.append_assoc]
  · obtain ⟨package, _, qualified, name, _, named, rfl, rfl⟩ := found
    simp only [text_canonical qualified, text_canonical named, write, List.append_assoc]
  · obtain ⟨inner, _, read, rfl, rfl⟩ := found
    simp only [element read, write, List.append_assoc]
  · obtain ⟨inner, _, read, rfl, rfl⟩ := found
    simp only [element read, write, List.append_assoc]
  · obtain ⟨key, _, left, value, _, right, rfl, rfl⟩ := found
    simp only [element left, element right, write, List.append_assoc]
  · obtain ⟨params, _, left, results, _, right, rfl, rfl⟩ := found
    simp only [list_canonical canonical left, list_canonical canonical right, list_write, write, List.append_assoc]

/-- By induction on the depth, what is read as a type is what would be written of it. -/
theorem formatWithin_canonical (depth : Nat) : (formatWithin depth).Canonical := by
  induction depth with
  | zero =>
    intro data t rest read
    cases read
  | succ depth nested =>
    intro data t rest read
    obtain ⟨tag, known, fields, rfl, found⟩ := readWithin_succ_eq_ok.mp read
    exact readFields_canonical known nested found

/-- What is written of the type is read as it, within any depth that exceeds the bytes of it. -/
def Reads (t : TypeExpr) : Prop :=
  ∀ depth rest, t.write.length < depth → t.write.length < 2 ^ 64 →
    (formatWithin depth).read (t.write ++ rest) = .ok (t, rest)

/-- A type can be read back if its fields can, at any depth that its length allows. -/
theorem reads_of_fields {t : TypeExpr} {tag : Nat} {fields : Bytes} (known : tag < 6)
    (written : t.write = writeVariant tag ++ fields)
    (reads : ∀ depth rest, fields.length < depth → fields.length < 2 ^ 64 →
      readFields depth tag (fields ++ rest) = .ok (t, rest)) : t.Reads := by
  intro depth rest deep small
  rw [written, List.length_append, length_variant] at deep small
  cases depth with
  | zero => exact absurd deep (Nat.not_lt_zero _)
  | succ depth =>
    refine readWithin_succ_eq_ok.mpr ⟨tag, known, fields ++ rest, ?_, reads depth rest (by omega) (by omega)⟩
    rw [written, List.append_assoc]

/-- A list of types is read back at the depth that one of them needs. -/
theorem read_list_within (depth : Nat) {ts : List TypeExpr} (rest : Bytes) (reads : ∀ t ∈ ts, t.Reads)
    (deep : ((formatWithin depth).list.write ts).length < depth)
    (small : ((formatWithin depth).list.write ts).length < 2 ^ 64) :
    (formatWithin depth).list.read ((formatWithin depth).list.write ts ++ rest) = .ok (ts, rest) := by
  refine read_list length_write_pos rest (fun t member rest => ?_) small
  have short : t.write.length ≤ (ts.flatMap write).length := length_write_le_flatMap (formatWithin depth) member
  simp only [list_write, writeAll_eq, List.length_append] at deep small
  exact reads t member depth rest (by omega) (by omega)

mutual

/-- By recursion on the type: it is read back whatever follows it. -/
theorem reads : (t : TypeExpr) → t.Reads
  | .basic name => by
    refine reads_of_fields (by decide) rfl fun depth rest _ small => ?_
    simp only [readFields, bind_eq_ok, pure_eq_ok]
    exact ⟨name, rest, text_restoring.read_write name rest small, rfl, rfl⟩
  | .named package name => by
    refine reads_of_fields (by decide) rfl fun depth rest _ small => ?_
    rw [List.length_append] at small
    have qualified := text_restoring.read_write package (text.write name ++ rest) (by omega)
    have named := text_restoring.read_write name rest (by omega)
    simp only [readFields, bind_eq_ok, pure_eq_ok, List.append_assoc]
    exact ⟨package, _, qualified, name, rest, named, rfl, rfl⟩
  | .pointer element => by
    refine reads_of_fields (by decide) rfl fun depth rest deep small => ?_
    simp only [readFields, bind_eq_ok, pure_eq_ok]
    exact ⟨element, rest, reads element depth rest deep small, rfl, rfl⟩
  | .slice element => by
    refine reads_of_fields (by decide) rfl fun depth rest deep small => ?_
    simp only [readFields, bind_eq_ok, pure_eq_ok]
    exact ⟨element, rest, reads element depth rest deep small, rfl, rfl⟩
  | .map key value => by
    refine reads_of_fields (by decide) rfl fun depth rest deep small => ?_
    rw [List.length_append] at deep small
    have left := reads key depth (value.write ++ rest) (by omega) (by omega)
    have right := reads value depth rest (by omega) (by omega)
    simp only [readFields, bind_eq_ok, pure_eq_ok, List.append_assoc]
    exact ⟨key, _, left, value, rest, right, rfl, rfl⟩
  | .func params results => by
    refine reads_of_fields (by decide) rfl fun depth rest deep small => ?_
    simp only [← list_write depth, List.length_append] at deep small
    have left := read_list_within depth ((formatWithin depth).list.write results ++ rest) (readsAll params) (by omega)
      (by omega)
    have right := read_list_within depth rest (readsAll results) (by omega) (by omega)
    simp only [readFields, bind_eq_ok, pure_eq_ok]
    rw [← list_write depth, ← list_write depth, List.append_assoc]
    exact ⟨params, _, left, results, rest, right, rfl, rfl⟩

theorem readsAll : (ts : List TypeExpr) → ∀ t ∈ ts, t.Reads
  | [] => fun _ member => absurd member List.not_mem_nil
  | t :: rest => List.forall_mem_cons.mpr ⟨reads t, readsAll rest⟩

end

theorem format_restoring : format.Restoring where
  positive := length_write_pos
  read_write t rest small := by
    have deep : t.write.length < (t.write ++ rest).length + 1 := by
      rw [List.length_append]
      omega
    exact reads t _ rest deep small

theorem format_canonical : format.Canonical := fun data _ _ found => formatWithin_canonical (data.length + 1) found

end TypeExpr

theorem Member.format_restoring : Member.format.Restoring :=
  imap_restoring
    (pair_restoring text_restoring <| pair_restoring MemberKind.format_restoring TypeExpr.format_restoring)
    fun _ => rfl

theorem Member.format_canonical : Member.format.Canonical :=
  imap_canonical
    (pair_canonical text_canonical <| pair_canonical MemberKind.format_canonical TypeExpr.format_canonical)
    fun _ => rfl

namespace Interface

theorem format_restoring : format.Restoring :=
  imap_restoring
    (pair_restoring text_restoring <| pair_restoring text_restoring <|
      pair_restoring (list_restoring text_restoring) (list_restoring Member.format_restoring))
    fun _ => rfl

theorem format_canonical : format.Canonical :=
  imap_canonical
    (pair_canonical text_canonical <| pair_canonical text_canonical <|
      pair_canonical (list_canonical text_canonical) (list_canonical Member.format_canonical))
    fun _ => rfl

variable {data : Bytes} {i : Interface}

/-- Data is an interface if it begins with one. -/
theorem decode_eq_ok_iff : decode data = .ok i ↔ ∃ rest, format.read data = .ok (i, rest) := by
  unfold decode
  cases format.read data with
  | error cause => simp [Functor.map, Except.map]
  | ok found => simp [Functor.map, Except.map, Prod.ext_iff]

/-- An interface that fits into memory is decoded from its own encoding. -/
theorem decode_encode (small : i.encode.length < 2 ^ 64) : decode i.encode = .ok i := by
  have read := format_restoring.read_write i [] small
  rw [List.append_nil] at read
  exact decode_eq_ok_iff.mpr ⟨[], read⟩

theorem decode_eq_error {cause : Wire.Error} (refused : format.read data = .error cause) :
    decode data = .error cause := by
  rw [decode, refused]
  rfl

end Interface

/-- An interface is read from its encoding, whatever comes after it, and from no part of the encoding. Data that an
interface is read from begins with the encoding. An encoding of `2 ^ 64` bytes does not fit into memory. -/
theorem interface_roundTrip :
    (∀ (i : Interface) rest, i.encode.length < 2 ^ 64 → Interface.decode (i.encode ++ rest) = .ok i) ∧
    (∀ data i, Interface.decode data = .ok i → i.encode <+: data) ∧
    ∀ (i : Interface) short, i.encode.length < 2 ^ 64 → short <+: i.encode → short ≠ i.encode →
      ∃ cause, Interface.decode short = .error cause := by
  refine ⟨fun i rest small => ?_, fun data i found => ?_, fun i short small begins proper => ?_⟩
  · exact Interface.decode_eq_ok_iff.mpr ⟨rest, Interface.format_restoring.read_write i rest small⟩
  · obtain ⟨rest, read⟩ := Interface.decode_eq_ok_iff.mp found
    exact ⟨rest, (Interface.format_canonical read).symm⟩
  · obtain ⟨cause, refused⟩ :=
      Interface.format_restoring.read_of_isPrefix Interface.format_canonical small begins proper
    exact ⟨cause, Interface.decode_eq_error refused⟩

/-- A function from a list of maps to pointers to a type of another package. -/
def Interface.nested : Interface where
  path := "lib"
  name := "lib"
  imports := ["rt"]
  members := [⟨"F", .func, .func [.slice (.map (.basic "string") (.func [] [.basic "int"]))]
    [.pointer (.named "rt" "T"), .basic "error"]⟩]

/-- Types stand in types here, a byte follows the data, and then the last byte is missing. -/
theorem interface_roundTrip_nested :
    Interface.nested.encode.length < 2 ^ 64 ∧
    Interface.decode (Interface.nested.encode ++ [0xFF]) = .ok Interface.nested ∧
    Interface.nested.encode <+: Interface.nested.encode ++ [0xFF] ∧
    ∃ cause, Interface.decode Interface.nested.encode.dropLast = .error cause := by
  have small : Interface.nested.encode.length < 2 ^ 64 := by decide +kernel
  have found := interface_roundTrip.1 Interface.nested [0xFF] small
  refine ⟨small, found, interface_roundTrip.2.1 _ _ found, ?_⟩
  refine interface_roundTrip.2.2 Interface.nested _ small (List.dropLast_prefix _) fun whole => ?_
  have length := congrArg List.length whole
  revert length
  decide +kernel

end Linkage
