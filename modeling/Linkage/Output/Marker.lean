import Linkage.Bytes

/-!
# Position markers

A marker is a fixed byte and a handle, most significant byte first. Code generators put markers into the code they
produce, wherever they know the place in the source that the following code comes from.
-/
namespace Linkage.Marker

/-- The first byte of every marker. -/
@[match_pattern] def sentinel : UInt8 := 0x08

def length : Nat := 5

def encode (handle : UInt32) : Bytes := sentinel :: Bytes.ofNatBE 4 handle.toNat

/-- The handle in the four bytes after a sentinel. -/
def handle (a b c d : UInt8) : UInt32 := UInt32.ofNat (Bytes.toNatBE [a, b, c, d])

end Linkage.Marker
