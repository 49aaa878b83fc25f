import Ipfrs.Core.Cid

/-!
# FNV-1a

The 64-bit FNV-1a hash, which `ipfrs-core/src/merkle_batch.rs` and `ipfrs-core/src/manifest.rs` both
bring along. It is not a cryptographic hash: preimages are easy to find, and `fnv1a_zeroPreimage`
is one of zero.
-/

namespace Ipfrs

/-- `FNV_OFFSET`. -/
def fnvOffset : UInt64 := 14695981039346656037

/-- `FNV_PRIME`. -/
def fnvPrime : UInt64 := 1099511628211

def fnv1a (data : Bytes) : UInt64 :=
  data.foldl (fun hash byte => (hash ^^^ byte.toUInt64) * fnvPrime) fnvOffset

/-- `u64::to_le_bytes`. -/
def toLeBytes (x : UInt64) : Bytes :=
  (List.range 8).map fun i => (x >>> UInt64.ofNat (8 * i)).toUInt8

/-- Eight bytes with the hash zero. -/
def zeroPreimage : Bytes := [0xd5, 0x6b, 0xb9, 0x53, 0x42, 0x87, 0x08, 0x36]

theorem fnv1a_zeroPreimage : fnv1a zeroPreimage = 0 := by decide +kernel

end Ipfrs
