import Ipfrs.Lib.Leb128
import Ipfrs.Lib.WhileLoop
import Ipfrs.Core.Block
import Ipfrs.Core.DagCbor

/-!
# CAR archives

Content addressable archives (`ipfrs-core/src/car.rs`): a header with the root CIDs, then one
section for each block. A section is a varint length, the CID, one byte that says whether the data
is compressed, and the data.

The writer is modelled on an output that never fails and the reader on a byte stream; a buffer of
any length can be had. The `zstd` and `lz4` codecs are a parameter (`CompressionCrate`).

The reader does not trust the CID of a section: it makes a new block from the data and compares.
`Block::new` always makes a raw SHA2-256 block, so this is a check of the data only for the CIDs
that such blocks have.
-/

namespace Ipfrs

/-! ### Varints -/

def writeVarint (value : UInt64) : Bytes :=
  let byte := (value &&& 0x7f).toUInt8
  let value' := value >>> 7
  if h : value' ≠ 0 then
    have : value'.toNat < value.toNat := by
      have hdiv : value'.toNat = value.toNat / 128 := by
        simp [value', UInt64.toNat_shiftRight, Nat.shiftRight_eq_div_pow]
      have hpos : value'.toNat ≠ 0 := fun h0 => h (UInt64.toNat_inj.mp h0)
      omega
    (byte ||| 0x80) :: writeVarint value'
  else [byte]
termination_by value.toNat

/-- The error of a `read_exact` that reaches the end of the stream. -/
def unexpectedEof : Error := .io "failed to fill whole buffer"

/-- The loop of `read_varint_opt`, with the number of rounds that are left. -/
def readVarintLoop : ℕ → UInt64 → ℕ → Bytes → Except Error (Option UInt64 × Bytes)
  | 0, _, _, _ => .error (.deserialization "Varint exceeds maximum size")
  -- the end of the stream is an error only in the middle of a varint
  | _ + 1, _, shift, [] => if shift = 0 then .ok (none, []) else .error unexpectedEof
  | rounds + 1, result, shift, byte :: rest =>
    let result := result ||| (byte &&& 0x7f).toUInt64 <<< UInt64.ofNat shift
    if byte &&& 0x80 = 0 then .ok (some result, rest)
    else
      -- the tenth group starts at bit 63, and none may follow it
      let shift := shift + 7
      if shift ≥ 64 then .error (.deserialization "Varint too large")
      else readVarintLoop rounds result shift rest

/-- `MAX_VARINT_SIZE`. -/
def maxVarintSize : ℕ := 10

def readVarintOpt (input : Bytes) : Except Error (Option UInt64 × Bytes) :=
  readVarintLoop maxVarintSize 0 0 input

def readVarint (input : Bytes) : Except Error (UInt64 × Bytes) := do
  match ← readVarintOpt input with
  | (some v, rest) => return (v, rest)
  | (none, _) => .error (.deserialization "Unexpected EOF reading varint")

/-- `Read::read_exact` into a new buffer of `n` bytes. -/
def readBuffer (n : ℕ) (input : Bytes) : Except Error (Bytes × Bytes) :=
  match ByteStream.readExact n input with
  | some r => .ok r
  | none => .error unexpectedEof

/-! ### Compression -/

inductive CompressionAlgorithm where
  | none
  | zstd
  | lz4
  deriving DecidableEq, Repr

/-- The compression libraries. -/
class CompressionCrate where
  compressZstd : Bytes → UInt8 → Except Error Bytes
  decompressZstd : Bytes → Except Error Bytes
  compressLz4 : Bytes → UInt8 → Except Error Bytes
  decompressLz4 : Bytes → Except Error Bytes

section Compression

variable [CompressionCrate]

/-- `compression::compress`. -/
def compress (data : Bytes) (algorithm : CompressionAlgorithm) (level : UInt8) :
    Except Error Bytes :=
  if level > 9 then
    .error (.invalidInput ("Invalid compression level " ++ toString level.toNat
      ++ ", must be 0-9"))
  else
    match algorithm with
    | .none => .ok data
    | .zstd => CompressionCrate.compressZstd data level
    | .lz4 => CompressionCrate.compressLz4 data level

/-- `compression::decompress`. -/
def decompress (data : Bytes) (algorithm : CompressionAlgorithm) : Except Error Bytes :=
  match algorithm with
  | .none => .ok data
  | .zstd => CompressionCrate.decompressZstd data
  | .lz4 => CompressionCrate.decompressLz4 data

end Compression

/-! ### The header -/

/-- `CAR_VERSION`. -/
def carVersion : UInt64 := 1

structure CarHeader where
  version : UInt64
  roots : List Cid
  deriving DecidableEq

namespace CarHeader

def new (roots : List Cid) : CarHeader := ⟨carVersion, roots⟩

/-- The map that `CarHeader::encode` writes. -/
def toIpld (h : CarHeader) : Ipld :=
  let map := SortedMap.insert "version" (Ipld.integer h.version.toNat) []
  .map (SortedMap.insert "roots" (.list (h.roots.map .link)) map)

/-- The roots of a header, as `CarHeader::decode` collects them. -/
def collectRoots : List Ipld → Except Error (List Cid)
  | [] => .ok []
  | .link cid :: items => do
    let roots ← collectRoots items
    return cid :: roots
  | _ :: _ => .error (.deserialization "Invalid root CID in header")

variable [CidCrate]

def encode (h : CarHeader) : Except Error Bytes := h.toIpld.toDagCbor

def decode (data : Bytes) : Except Error CarHeader := do
  match ← Ipld.fromDagCbor data with
  | .map map =>
    match SortedMap.get? "version" map with
    | some (.integer v) =>
      -- the cast wraps: `2 ^ 64 + 1` is version 1 too
      let version := asU64 v
      if version ≠ carVersion then
        .error (.deserialization ("Unsupported CAR version: " ++ toString version.toNat))
      else
        match SortedMap.get? "roots" map with
        | some (.list items) =>
          let roots ← collectRoots items
          return ⟨version, roots⟩
        | _ => .error (.deserialization "CAR header missing roots")
    | _ => .error (.deserialization "CAR header missing version")
  | _ => .error (.deserialization "CAR header must be a map")

end CarHeader

/-! ### The writer -/

structure CarCompressionStats where
  blocksProcessed : ℕ := 0
  uncompressedBytes : ℕ := 0
  compressedBytes : ℕ := 0
  blocksCompressed : ℕ := 0
  deriving DecidableEq, Repr

/-- `CarWriter`, with the bytes that have been written. A compression level is an `i32`. -/
structure CarWriter where
  writer : Bytes
  headerWritten : Bool := false
  compression : Option (CompressionAlgorithm × ℤ)
  stats : CarCompressionStats := {}

namespace CarWriter

variable [CidCrate]

def writeHeader (w : CarWriter) (header : CarHeader) : Except Error CarWriter := do
  let headerBytes ← header.encode
  return { w with
    writer := w.writer ++ writeVarint (UInt64.ofNat headerBytes.length) ++ headerBytes
    headerWritten := true }

def newWithOptions (roots : List Cid) (compression : Option (CompressionAlgorithm × ℤ)) :
    Except Error CarWriter :=
  writeHeader { writer := [], compression } (CarHeader.new roots)

def new (roots : List Cid) : Except Error CarWriter := newWithOptions roots none

variable [CompressionCrate]

omit [CidCrate] in
/-- The data that `write_block` writes for a block, with whether it is compressed and the new
statistics. -/
def finalData (w : CarWriter) (data : Bytes) :
    Except Error (Bytes × Bool × CarCompressionStats) := do
  let stats := { w.stats with
    blocksProcessed := w.stats.blocksProcessed + 1
    uncompressedBytes := w.stats.uncompressedBytes + data.length }
  match w.compression with
  | some (algorithm, level) =>
    -- `level as u8` keeps the low byte of the level
    let compressed ← compress data algorithm (UInt8.ofNat (level % 256).toNat)
    let isCompressed := algorithm != .none
    return (compressed, isCompressed, { stats with
      blocksCompressed := stats.blocksCompressed + (if isCompressed then 1 else 0)
      compressedBytes := stats.compressedBytes + compressed.length })
  | none =>
    return (data, false, { stats with compressedBytes := stats.compressedBytes + data.length })

def writeBlock (w : CarWriter) (block : Block) : Except Error CarWriter := do
  if w.headerWritten = false then .error (.invalidData "CAR header not written")
  else
    let cidBytes := CidCrate.toBytes block.cid
    let (finalData, wasCompressed, stats) ← w.finalData block.data
    -- the CID, the flag and the data; the varint itself is not counted
    let totalLen := cidBytes.length + 1 + finalData.length
    return { w with
      writer := w.writer ++ writeVarint (UInt64.ofNat totalLen) ++ cidBytes
        ++ [if wasCompressed then 1 else 0] ++ finalData
      stats }

end CarWriter

/-! ### The reader -/

/-- `CarReader`, with the bytes that have not been read yet. -/
structure CarReader where
  reader : Bytes
  header : CarHeader
  deriving DecidableEq

namespace CarReader

section Model

variable [CidCrate]

def new (input : Bytes) : Except Error CarReader := do
  let (headerLen, input) ← readVarint input
  let (headerBytes, input) ← readBuffer headerLen.toNat input
  let header ← CarHeader.decode headerBytes
  return ⟨input, header⟩

def roots (r : CarReader) : List Cid := r.header.roots

variable [CompressionCrate] [HashCrate] [CidText]

/-- What `read_block` makes of a section: the CID, an optional flag, and the data. -/
def parseSection (blockBytes : Bytes) : Except Error Block := do
  let (cid, cursor) ← (CidCrate.readBytes blockBytes).mapError fun e =>
    Error.cid ("Failed to parse CID: " ++ e)
  match cursor with
  | [] => .error (.deserialization "Empty block data")
  | flag :: rest =>
    -- without a flag, the first byte is the first byte of the data
    let rawData := if flag = 0 ∨ flag = 1 then rest else flag :: rest
    let finalData ←
      if flag = 1 then
        -- the flag does not say which codec was used, so both are tried
        match decompress rawData .zstd with
        | .ok data => .ok data
        | .error _ => decompress rawData .lz4
      else .ok rawData
    -- the CID of the section is compared, but not used
    let block ← Block.new finalData
    if block.cid ≠ cid then
      .error (.invalidData ("Block CID mismatch: expected " ++ CidText.toString cid ++ ", got "
        ++ CidText.toString block.cid))
    else return block

def readBlock (r : CarReader) : Except Error (Option Block × CarReader) := do
  match ← readVarintOpt r.reader with
  | (none, input) => return (none, { r with reader := input })
  | (some totalLen, input) =>
    let (blockBytes, input) ← readBuffer totalLen.toNat input
    let block ← parseSection blockBytes
    return (some block, { r with reader := input })

/-- One round of the loop of `read_all_blocks`, on the blocks read so far and the reader. -/
def readAllStep : List Block × CarReader →
    (List Block × CarReader) ⊕ Except Error (List Block × CarReader)
  | (blocks, r) =>
    match r.readBlock with
    | .ok (some block, r') => .inl (blocks ++ [block], r')
    | .ok (none, r') => .inr (.ok (blocks, r'))
    | .error e => .inr (.error e)

/-- `CarReader::read_all_blocks`, with at most `fuel` rounds of its loop. -/
def readAllBlocks (fuel : ℕ) (r : CarReader) : Option (Except Error (List Block × CarReader)) :=
  WhileLoop.run readAllStep fuel ([], r)

end Model

end CarReader

end Ipfrs
