import Linkage.Bytes

/-!
# Digests

SHA-256. A digest names a cache entry, so it must be the same in every build of the linker.

The message is padded to whole blocks of 64 bytes. Each block is spread over a schedule of 64 words, which
64 rounds mix into the chaining state.
-/
namespace Linkage.Digest

/-- The chaining state: eight words. -/
structure State where
  a : UInt32
  b : UInt32
  c : UInt32
  d : UInt32
  e : UInt32
  f : UInt32
  g : UInt32
  h : UInt32

def State.initial : State :=
  ⟨0x6a09e667, 0xbb67ae85, 0x3c6ef372, 0xa54ff53a, 0x510e527f, 0x9b05688c, 0x1f83d9ab, 0x5be0cd19⟩

def State.add (s t : State) : State :=
  ⟨s.a + t.a, s.b + t.b, s.c + t.c, s.d + t.d, s.e + t.e, s.f + t.f, s.g + t.g, s.h + t.h⟩

def State.bytes (s : State) : Bytes :=
  [s.a, s.b, s.c, s.d, s.e, s.f, s.g, s.h].flatMap fun word => Bytes.ofNatBE 4 word.toNat

def roundConstants : List UInt32 := [
  0x428a2f98, 0x71374491, 0xb5c0fbcf, 0xe9b5dba5, 0x3956c25b, 0x59f111f1, 0x923f82a4, 0xab1c5ed5,
  0xd807aa98, 0x12835b01, 0x243185be, 0x550c7dc3, 0x72be5d74, 0x80deb1fe, 0x9bdc06a7, 0xc19bf174,
  0xe49b69c1, 0xefbe4786, 0x0fc19dc6, 0x240ca1cc, 0x2de92c6f, 0x4a7484aa, 0x5cb0a9dc, 0x76f988da,
  0x983e5152, 0xa831c66d, 0xb00327c8, 0xbf597fc7, 0xc6e00bf3, 0xd5a79147, 0x06ca6351, 0x14292967,
  0x27b70a85, 0x2e1b2138, 0x4d2c6dfc, 0x53380d13, 0x650a7354, 0x766a0abb, 0x81c2c92e, 0x92722c85,
  0xa2bfe8a1, 0xa81a664b, 0xc24b8b70, 0xc76c51a3, 0xd192e819, 0xd6990624, 0xf40e3585, 0x106aa070,
  0x19a4c116, 0x1e376c08, 0x2748774c, 0x34b0bcb5, 0x391c0cb3, 0x4ed8aa4a, 0x5b9cca4f, 0x682e6ff3,
  0x748f82ee, 0x78a5636f, 0x84c87814, 0x8cc70208, 0x90befffa, 0xa4506ceb, 0xbef9a3f7, 0xc67178f2]

private def rotateRight (x n : UInt32) : UInt32 := (x >>> n) ||| (x <<< (32 - n))

private def spread0 (x : UInt32) : UInt32 := rotateRight x 7 ^^^ rotateRight x 18 ^^^ (x >>> 3)

private def spread1 (x : UInt32) : UInt32 := rotateRight x 17 ^^^ rotateRight x 19 ^^^ (x >>> 10)

private def mix0 (x : UInt32) : UInt32 := rotateRight x 2 ^^^ rotateRight x 13 ^^^ rotateRight x 22

private def mix1 (x : UInt32) : UInt32 := rotateRight x 6 ^^^ rotateRight x 11 ^^^ rotateRight x 25

/-- One round, with the sum of its schedule word and its constant. -/
def round (s : State) (key : UInt32) : State :=
  let choice := (s.e &&& s.f) ^^^ (~~~s.e &&& s.g)
  let majority := (s.a &&& s.b) ^^^ (s.a &&& s.c) ^^^ (s.b &&& s.c)
  let t1 := s.h + mix1 s.e + choice + key
  let t2 := mix0 s.a + majority
  ⟨t1 + t2, s.a, s.b, s.c, s.d + t1, s.e, s.f, s.g⟩

/-- The big-endian word that begins at byte `4 * i`. -/
def wordAt (block : Bytes) (i : Nat) : UInt32 :=
  UInt32.ofNat (Bytes.toNatBE ((block.drop (4 * i)).take 4))

/-- The first `n` words of a block's schedule: sixteen from the block, the others from those before them. -/
def schedule (block : Bytes) : (n : Nat) → Vector UInt32 n
  | 0 => #v[]
  | n + 1 =>
    let before := schedule block n
    before.push <|
      if h : n < 16 then wordAt block n
      else before[n - 16] + spread0 before[n - 15] + before[n - 7] + spread1 before[n - 2]

def compress (s : State) (block : Bytes) : State :=
  let keys := List.zipWith (· + ·) (schedule block 64).toList roundConstants
  s.add (keys.foldl round s)

/-- A one bit, zeros up to the last eight bytes of a block, and the length in bits. -/
def pad (message : Bytes) : Bytes :=
  let zeros := (119 - message.length % 64) % 64
  message ++ 0x80 :: (List.replicate zeros 0 ++ Bytes.ofNatBE 8 (8 * message.length))

/-- Feed `count` blocks to the chaining state. -/
def absorb (s : State) : (count : Nat) → Bytes → State
  | 0, _ => s
  | count + 1, bytes => absorb (compress s (bytes.take 64)) count (bytes.drop 64)

def sha256 (message : Bytes) : Bytes :=
  let padded := pad message
  (absorb .initial (padded.length / 64) padded).bytes

end Linkage.Digest
