import Linkage.Cache
import Linkage.Proofs.Archive.RoundTrip
import Linkage.Proofs.Disk.Contents
import Mathlib.Data.List.Nodup
import Mathlib.Data.List.Perm.Subperm

/-!
# Entries of a cache

What is stored for an import path is found by name in one directory, and an entry that holds an archive of the path
holds one of no other path. So there are no more paths with an archive than names in the directory.
-/
namespace Linkage

namespace Archive

/-- The path is for the faults only. -/
theorem read_anyPath {path path' : String} {s : Stream} {a : Archive} (found : read path s = .ok a) :
    read path' s = .ok a := by
  obtain ⟨data, failure⟩ := s
  obtain ⟨split, fields⟩ := eq_header_of_read found
  have again : readFields path' ⟨data, failure⟩ = .ok a := readFields_eq_ok.mpr (readFields_eq_ok.mp fields)
  generalize data.drop 12 = body at split
  subst split
  exact (read_header body).trans again

end Archive

namespace Cache

variable {c : Cache} {d : Disk} {path : String} {s : Stream} {a : Archive}

theorem digitChar_ne_slash : ∀ n < 16, Nat.digitChar n ≠ '/' := by decide

/-- Digits and letters only: no import path can break out of the directory. -/
theorem toHex_noSlash (bytes : Bytes) : '/' ∉ (Bytes.toHex bytes).toList := by
  rw [Bytes.toList_toHex, List.mem_flatMap]
  rintro ⟨b, -, digit⟩
  have byte := b.toNat_lt
  simp only [List.mem_cons, List.not_mem_nil, or_false] at digit
  rcases digit with high | low
  · exact digitChar_ne_slash _ (by omega) high.symm
  · exact digitChar_ne_slash _ (by omega) low.symm

/-- The name of the file for an import path. -/
def fileName (importPath : String) : String :=
  Bytes.toHex (Digest.sha256 (Text.Utf8.encode importPath)) ++ ".a"

/-- Each byte is two digits, so the text can be read from its front. -/
theorem toHex_cons (b : UInt8) (rest : Bytes) :
    (Bytes.toHex (b :: rest)).toList =
      Nat.digitChar (b.toNat / 16) :: Nat.digitChar (b.toNat % 16) :: (Bytes.toHex rest).toList := by
  simp only [Bytes.toList_toHex, List.flatMap_cons, List.cons_append, List.nil_append]

theorem length_toHex (bytes : Bytes) : (Bytes.toHex bytes).toList.length = 2 * bytes.length := by
  induction bytes with
  | nil => rfl
  | cons b rest ih =>
    rw [toHex_cons, List.length_cons, List.length_cons, ih, List.length_cons]
    omega

theorem digitChar_inj : ∀ m < 16, ∀ n < 16, Nat.digitChar m = Nat.digitChar n → m = n := by decide

/-- Different bytes are written differently. -/
theorem toHex_injective {bytes bytes' : Bytes} (same : Bytes.toHex bytes = Bytes.toHex bytes') : bytes = bytes' := by
  induction bytes generalizing bytes' with
  | nil =>
    have none := length_toHex bytes'
    rw [← same, length_toHex, List.length_nil] at none
    exact (List.length_eq_zero_iff.mp (by omega)).symm
  | cons b rest ih =>
    cases bytes' with
    | nil =>
      have none := length_toHex (b :: rest)
      rw [same, length_toHex, List.length_nil, List.length_cons] at none
      omega
    | cons b' rest' =>
      have chars := congrArg String.toList same
      rw [toHex_cons, toHex_cons, List.cons.injEq, List.cons.injEq] at chars
      obtain ⟨high, low, others⟩ := chars
      have byte := b.toNat_lt
      have byte' := b'.toNat_lt
      have high := digitChar_inj _ (by omega) _ (by omega) high
      have low := digitChar_inj _ (by omega) _ (by omega) low
      rw [UInt8.toNat_inj.mp (show b.toNat = b'.toNat by omega), ih (String.toList_inj.mp others)]

theorem length_sha256 (message : Bytes) : (Digest.sha256 message).length = 32 := by
  simp [Digest.sha256, Digest.State.bytes, Bytes.ofNatBE]

theorem utf8ByteSize_ofList {chars : List Char} (narrow : ∀ c ∈ chars, c.utf8Size = 1) :
    (String.ofList chars).utf8ByteSize = chars.length := by
  induction chars with
  | nil => rfl
  | cons c rest ih =>
    rw [List.forall_mem_cons] at narrow
    have split : String.ofList (c :: rest) = String.singleton c ++ String.ofList rest := by
      rw [← String.toList_inj]
      simp
    rw [split, String.utf8ByteSize_append, String.utf8ByteSize_singleton, narrow.1, ih narrow.2, List.length_cons]
    omega

theorem fileOf_eq (c : Cache) (path : String) : c.fileOf path = Path.join c.archives (fileName path) := rfl

/-- The file of any import path has a name that is a single component. -/
theorem fileName_proper (path : String) : Path.ProperName (fileName path) := by
  have last : (fileName path).toList.getLast? = some 'a' := by
    rw [fileName, String.toList_append, List.getLast?_append]
    rfl
  refine ⟨?_, ?_, ?_, ?_⟩
  · rw [fileName, String.toList_append, List.mem_append, not_or]
    exact ⟨toHex_noSlash _, by decide⟩
  all_goals
    intro same
    rw [same] at last
    exact absurd last (by decide)

theorem toList_fileName (path : String) :
    (fileName path).toList = (Bytes.toHex (Digest.sha256 (Text.Utf8.encode path))).toList ++ ['.', 'a'] := by
  rw [fileName, String.toList_append]
  rfl

/-- The digest has 32 bytes, two digits each, and the extension has two characters. -/
theorem length_fileName (path : String) : (fileName path).toList.length = 66 := by
  rw [toList_fileName, List.length_append, length_toHex, length_sha256]
  rfl

theorem digitChar_narrow : ∀ n < 16, (Nat.digitChar n).utf8Size = 1 := by decide

theorem utf8ByteSize_fileName (path : String) : (fileName path).utf8ByteSize = 66 := by
  rw [← length_fileName path, ← utf8ByteSize_ofList, String.ofList_toList]
  intro c member
  rw [toList_fileName, List.mem_append, Bytes.toList_toHex, List.mem_flatMap] at member
  rcases member with ⟨b, -, digit⟩ | ending
  · have byte := b.toNat_lt
    simp only [List.mem_cons, List.not_mem_nil, or_false] at digit
    rcases digit with rfl | rfl
    · exact digitChar_narrow _ (by omega)
    · exact digitChar_narrow _ (by omega)
  · simp only [List.mem_cons, List.not_mem_nil, or_false] at ending
    rcases ending with rfl | rfl <;> decide

/-- Two paths share a file only if their digests collide. -/
theorem sha256_eq_of_fileName {path path' : String} (same : fileName path = fileName path') :
    Digest.sha256 (Text.Utf8.encode path) = Digest.sha256 (Text.Utf8.encode path') := by
  have chars := congrArg String.toList same
  rw [toList_fileName, toList_fileName] at chars
  exact toHex_injective (String.toList_inj.mp (List.append_cancel_right chars))

theorem hasExtension_fileName (path : String) : Path.hasExtension (fileName path) "a" = true := by
  have long : (fileName path).length = 66 := length_fileName path
  rw [Path.hasExtension, long, toList_fileName, List.reverse_append]
  rfl

theorem archives_ne_empty (c : Cache) : c.archives ≠ "" := Disk.join_ne_empty (by decide)

/-- An entry is missing for a load exactly if `has` says so. -/
theorem stream?_eq_none_iff : c.stream? d path = none ↔ c.has d path = false := by
  unfold stream? has Disk.has
  cases d.lookup (c.fileOf path) with
  | error cause => simp [Except.toBool]
  | ok e => cases e <;> simp [Except.toBool]

/-- The entry for a path holds an archive of that path. -/
def Holds (c : Cache) (d : Disk) (path : String) (a : Archive) : Prop :=
  ∃ s, c.stream? d path = some s ∧ decode path s = .ok a

/-- An entry is decoded if its archive can be read and is that of the path. -/
theorem decode_eq_ok_iff : decode path s = .ok a ↔ Archive.read path s = .ok a ∧ a.importPath = path := by
  unfold decode
  cases Archive.read path s with
  | error fault => simp
  | ok b =>
    by_cases own : b.importPath = path
    · simp only [own, if_true, Except.ok.injEq]
      exact ⟨fun same => ⟨same, same ▸ own⟩, And.left⟩
    · simp only [own, if_false, Except.ok.injEq, reduceCtorEq, false_iff]
      rintro ⟨rfl, same⟩
      exact own same

namespace Holds

/-- An archive is held under its own import path. -/
theorem importPath (holds : c.Holds d path a) : a.importPath = path := by
  obtain ⟨s, -, decoded⟩ := holds
  exact (decode_eq_ok_iff.mp decoded).2

/-- Two paths whose archives are in one file are the same. -/
theorem path_eq {path' : String} {a' : Archive} (holds : c.Holds d path a) (holds' : c.Holds d path' a')
    (file : fileName path = fileName path') : path = path' := by
  obtain ⟨s, stored, decoded⟩ := holds
  obtain ⟨s', stored', decoded'⟩ := holds'
  have files : c.fileOf path = c.fileOf path' := congrArg (Path.join c.archives) file
  have same : c.stream? d path = c.stream? d path' := by
    unfold stream?
    rw [files]
  cases stored.symm.trans (same.trans stored')
  obtain ⟨read, own⟩ := decode_eq_ok_iff.mp decoded
  obtain ⟨read', own'⟩ := decode_eq_ok_iff.mp decoded'
  cases (Archive.read_anyPath read).symm.trans read'
  exact own.symm.trans own'

/-- What holds an archive is listed in the directory. -/
theorem listed (holds : c.Holds d path a) : ∃ names, d.list c.archives = .ok names ∧ fileName path ∈ names := by
  obtain ⟨s, stored, -⟩ := holds
  unfold stream? at stored
  cases found : d.lookup (c.fileOf path) with
  | error cause => simp [found] at stored
  | ok e =>
    obtain ⟨around, located, directory, entry⟩ :=
      Disk.lookup_join_eq_ok (fileName_proper path) (archives_ne_empty c) found
    exact ⟨_, Disk.list_eq located directory, List.mem_map_of_mem (Disk.mem_inside_of_entryAt entry)⟩

end Holds

/-- There are no more paths with an archive than entries where archives are stored. -/
theorem length_le_capacity {paths : List String} (distinct : paths.Nodup)
    (holds : ∀ path ∈ paths, ∃ a, c.Holds d path a) : paths.length ≤ c.capacity d := by
  cases paths with
  | nil => exact Nat.zero_le _
  | cons first rest =>
    obtain ⟨a, held⟩ := holds first List.mem_cons_self
    obtain ⟨names, listed, -⟩ := held.listed
    have files : ((first :: rest).map fileName).Nodup := by
      refine List.Nodup.map_on (fun path member path' member' same => ?_) distinct
      obtain ⟨a, held⟩ := holds path member
      obtain ⟨a', held'⟩ := holds path' member'
      exact held.path_eq held' same
    have inside : (first :: rest).map fileName ⊆ names := by
      intro name member
      obtain ⟨path, inList, rfl⟩ := List.mem_map.mp member
      obtain ⟨a, held⟩ := holds path inList
      obtain ⟨names', listed', found⟩ := held.listed
      cases listed.symm.trans listed'
      exact found
    have count := (List.subperm_of_subset files inside).length_le
    rwa [List.length_map, ← show c.capacity d = names.length by rw [capacity, listed]; rfl] at count

end Cache
end Linkage
