import Mathlib.Data.UInt

/-!
# Errors and content identifiers

The error type of the crates (`ipfrs-core/src/error.rs`), and content identifiers with their builder
(`ipfrs-core/src/cid.rs`).

A CID is a version, a codec and a multihash. Its binary form, its string form and the hash functions
are code of the `cid`, `multihash` and `multihash-codetable` crates, so they are parameters here:
`CidCrate` is the binary form, `CidText` the string form and `HashCrate` the hash functions. What is
assumed of the binary form is `LawfulCidCrate`. Nothing at all is assumed of a hash function but the
length of its digest, which its type carries; that two byte strings do not collide is always a
hypothesis about the byte strings at hand (`HashCrate.CollisionFree`), since no function onto 32
bytes is injective on all of them.
-/

namespace Ipfrs

/-- A byte string (`Vec<u8>`, `Bytes` or `&[u8]`). -/
abbrev Bytes := List UInt8

/-- `ipfrs_core::Error`. -/
inductive Error where
  | io (msg : String)
  | blockNotFound (msg : String)
  | cid (msg : String)
  | serialization (msg : String)
  | deserialization (msg : String)
  | network (msg : String)
  | storage (msg : String)
  | encryption (msg : String)
  | invalidData (msg : String)
  | invalidInput (msg : String)
  | notFound (msg : String)
  | protocol (msg : String)
  | notImplemented (msg : String)
  | internal (msg : String)
  | initialization (msg : String)
  | verification (msg : String)
  deriving DecidableEq, Repr

/-- `to_string` of an `Error`. -/
def Error.display : Error → String
  | io msg => "IO error: " ++ msg
  | blockNotFound msg => "Block not found: " ++ msg
  | cid msg => "CID error: " ++ msg
  | serialization msg => "Serialization error: " ++ msg
  | deserialization msg => "Deserialization error: " ++ msg
  | network msg => "Network error: " ++ msg
  | storage msg => "Storage error: " ++ msg
  | encryption msg => "Encryption error: " ++ msg
  | invalidData msg => "Invalid data: " ++ msg
  | invalidInput msg => "Invalid input: " ++ msg
  | notFound msg => "Not found: " ++ msg
  | protocol msg => "Protocol error: " ++ msg
  | notImplemented msg => "Not implemented: " ++ msg
  | internal msg => "Internal error: " ++ msg
  | initialization msg => "Initialization error: " ++ msg
  | verification msg => "Verification error: " ++ msg

/-- How a call can end without a value: with an `Error`, or with a panic. -/
inductive Fault where
  | error (e : Error)
  | panic (msg : String)
  deriving DecidableEq, Repr

/-- A `Result` read as an outcome that did not panic. -/
def liftResult {α : Type} : Except Error α → Except Fault α
  | .ok a => .ok a
  | .error e => .error (.error e)

variable {α : Type}

@[simp] theorem liftResult_eq_ok {r : Except Error α} {a : α} :
    liftResult r = .ok a ↔ r = .ok a := by
  cases r <;> simp [liftResult]

theorem liftResult_ne_panic (r : Except Error α) (msg : String) :
    liftResult r ≠ .error (.panic msg) := by
  cases r <;> simp [liftResult]

/-! ### Hash algorithms -/

inductive HashAlgorithm where
  | sha256
  | sha512
  | sha3_256
  | sha3_512
  | blake2b256
  | blake2b512
  | blake2s256
  | blake3
  deriving DecidableEq, Repr

namespace HashAlgorithm

/-- The multihash code of `HashAlgorithm::code`. -/
def code : HashAlgorithm → UInt64
  | sha256 => 0x12
  | sha512 => 0x13
  | sha3_256 => 0x16
  | sha3_512 => 0x14
  | blake2b256 => 0xb220
  | blake2b512 => 0xb240
  | blake2s256 => 0xb260
  | blake3 => 0x1e

/-- The length of a digest in bytes. -/
def hashSize : HashAlgorithm → ℕ
  | sha256 => 32
  | sha512 => 64
  | sha3_256 => 32
  | sha3_512 => 64
  | blake2b256 => 32
  | blake2b512 => 64
  | blake2s256 => 32
  | blake3 => 32

theorem code_injective : Function.Injective code := by
  intro a b h
  cases a <;> cases b <;> first | rfl | exact absurd h (by decide)

theorem hashSize_le (a : HashAlgorithm) : a.hashSize ≤ 64 := by
  cases a <;> decide

end HashAlgorithm

/-! ### CIDs -/

/-- `cid::Version`. -/
inductive Version where
  | v0
  | v1
  deriving DecidableEq, Repr

/-- `Multihash<64>`: a hash code and a digest of at most 64 bytes. -/
structure Multihash where
  code : UInt64
  digest : Bytes
  size_le : digest.length ≤ 64
  deriving DecidableEq

/-- The DAG-PB codec. -/
def Codec.dagPb : UInt64 := 0x70

/-- The raw codec. -/
def Codec.raw : UInt64 := 0x55

/-- The DAG-CBOR codec. -/
def Codec.dagCbor : UInt64 := 0x71

/-- `cid::Cid`. A version 0 identifier is always DAG-PB with a SHA2-256 multihash. -/
structure Cid where
  version : Version
  codec : UInt64
  hash : Multihash
  v0_wf : version = .v0 → codec = Codec.dagPb ∧ hash.code = 0x12 ∧ hash.digest.length = 32
  deriving DecidableEq

def Cid.newV0 (hash : Multihash) : Except String Cid :=
  if h : hash.code = 0x12 ∧ hash.digest.length = 32 then
    .ok ⟨.v0, Codec.dagPb, hash, fun _ => ⟨rfl, h⟩⟩
  else .error "CIDv0 requires a Sha-256 multihash"

def Cid.newV1 (codec : UInt64) (hash : Multihash) : Cid :=
  ⟨.v1, codec, hash, fun h => absurd h (by decide)⟩

def Cid.new (version : Version) (codec : UInt64) (hash : Multihash) : Except String Cid :=
  match version with
  | .v0 => if codec = Codec.dagPb then Cid.newV0 hash else .error "CIDv0 requires a DagPB codec"
  | .v1 => .ok (Cid.newV1 codec hash)

/-- The binary form of CIDs, as the `cid` crate has it: `to_bytes`, `try_from(&[u8])` and
`read_bytes`, which also returns the bytes it leaves unread. -/
class CidCrate where
  toBytes : Cid → Bytes
  tryFrom : Bytes → Except String Cid
  readBytes : Bytes → Except String (Cid × Bytes)

/-- The documented behaviour of the binary form: it reads back, it is self-delimiting, and it is a
`Vec<u8>`, of at most `isize::MAX` bytes. -/
class LawfulCidCrate [CidCrate] : Prop where
  tryFrom_toBytes : ∀ c, CidCrate.tryFrom (CidCrate.toBytes c) = .ok c
  readBytes_toBytes : ∀ c rest, CidCrate.readBytes (CidCrate.toBytes c ++ rest) = .ok (c, rest)
  length_toBytes : ∀ c, (CidCrate.toBytes c).length < 2 ^ 63

/-- The string form of CIDs: `to_string` and `from_str`. -/
class CidText where
  toString : Cid → String
  fromStr : String → Except String Cid

/-- The documented behaviour of the string form: it stands for one CID. -/
class LawfulCidText [CidText] : Prop where
  toString_injective : Function.Injective CidText.toString

/-- The hash functions, with digests of the length the algorithm has. -/
class HashCrate where
  digest : (a : HashAlgorithm) → Bytes → { d : Bytes // d.length = a.hashSize }

/-- No two of the byte strings in `S` collide under `a`. -/
def HashCrate.CollisionFree [HashCrate] (a : HashAlgorithm) (S : Set Bytes) : Prop :=
  Set.InjOn (HashCrate.digest a) S

/-- The multihash of `data` (`Code::digest`). -/
def HashAlgorithm.multihash [HashCrate] (a : HashAlgorithm) (data : Bytes) : Multihash where
  code := a.code
  digest := (HashCrate.digest a data).1
  size_le := by rw [(HashCrate.digest a data).2]; exact a.hashSize_le

/-! ### The CID builder -/

structure CidBuilder where
  version : Version := .v1
  codec : UInt64 := Codec.raw
  hashAlgorithm : HashAlgorithm := .sha256
  deriving DecidableEq, Repr

/-- `CidBuilder::new`: CIDv1, raw codec, SHA2-256. -/
def CidBuilder.new : CidBuilder := {}

section Build

variable [HashCrate]

def CidBuilder.build (b : CidBuilder) (data : Bytes) : Except Error Cid :=
  let hash := b.hashAlgorithm.multihash data
  if b.version = .v0 then
    if b.hashAlgorithm ≠ .sha256 then
      .error (.invalidInput "CIDv0 requires SHA2-256 hash algorithm")
    else
      -- CIDv0 always uses the DAG-PB codec implicitly
      (Cid.newV0 hash).mapError fun e => .cid ("Failed to create CIDv0: " ++ e)
  else
    (Cid.new b.version b.codec hash).mapError fun e => .cid ("Failed to create CID: " ++ e)

/-- The CID of `data` under a hash algorithm and a codec, version 1. -/
def Cid.ofData (codec : UInt64) (a : HashAlgorithm) (data : Bytes) : Cid :=
  Cid.newV1 codec (a.multihash data)

@[simp] theorem Cid.ofData_codec (codec : UInt64) (a : HashAlgorithm) (data : Bytes) :
    (Cid.ofData codec a data).codec = codec := rfl

@[simp] theorem Cid.ofData_version (codec : UInt64) (a : HashAlgorithm) (data : Bytes) :
    (Cid.ofData codec a data).version = .v1 := rfl

variable {b : CidBuilder} {c c' : UInt64} {a : HashAlgorithm} {d d' : Bytes}

theorem CidBuilder.build_v1 (h : b.version = .v1) (data : Bytes) :
    b.build data = .ok (Cid.ofData b.codec b.hashAlgorithm data) := by
  simp [CidBuilder.build, h, Cid.new, Cid.ofData, Except.mapError]

@[simp] theorem CidBuilder.build_new (data : Bytes) :
    CidBuilder.new.build data = .ok (Cid.ofData Codec.raw .sha256 data) :=
  CidBuilder.build_v1 rfl data

/-- The codec, the hash code and the digest can be read off a version 1 CID. -/
theorem Cid.ofData_eq_iff {a' : HashAlgorithm} :
    Cid.ofData c a d = Cid.ofData c' a' d' ↔
      c = c' ∧ a = a' ∧ (a.multihash d).digest = (a'.multihash d').digest := by
  simp only [Cid.ofData, Cid.newV1, Cid.mk.injEq, true_and, HashAlgorithm.multihash,
    Multihash.mk.injEq]
  exact and_congr_right fun _ => and_congr_left fun _ => HashAlgorithm.code_injective.eq_iff

theorem HashCrate.CollisionFree.eq_of_ofData {S : Set Bytes} (h : HashCrate.CollisionFree a S)
    (hd : d ∈ S) (hd' : d' ∈ S) (heq : Cid.ofData c a d = Cid.ofData c' a d') :
    c = c' ∧ d = d' := by
  obtain ⟨hc, -, hdig⟩ := Cid.ofData_eq_iff.mp heq
  exact ⟨hc, h hd hd' (Subtype.ext hdig)⟩

/-- What a successful build says: a version 0 CID needs SHA2-256 and ignores the codec, a version 1
CID is `Cid.ofData`. -/
theorem CidBuilder.build_eq_ok {data : Bytes} {c : Cid} (h : b.build data = .ok c) :
    c.hash = b.hashAlgorithm.multihash data ∧ c.version = b.version ∧
      (b.version = .v1 → c.codec = b.codec) := by
  obtain ⟨version, codec, alg⟩ := b
  cases version with
  | v0 =>
    simp only [CidBuilder.build, if_true] at h
    split at h
    · exact absurd h (by simp)
    · simp only [Cid.newV0] at h
      split at h
      · simp only [Except.mapError, Except.ok.injEq] at h
        subst h
        exact ⟨rfl, rfl, Version.noConfusion⟩
      · exact absurd h (by simp [Except.mapError])
  | v1 =>
    rw [CidBuilder.build_v1 rfl, Except.ok.injEq] at h
    subst h
    exact ⟨rfl, rfl, fun _ => rfl⟩

end Build

end Ipfrs
