import Ipfrs.Lib.WhileLoop
import Ipfrs.Core.Block
import Ipfrs.Core.DagCbor

/-!
# CAR files of the storage crate

The second CAR format of the repository (`ipfrs-storage/src/car.rs`): a varint length and a header,
then one record for each block, which is a varint length, the CID and the data. The header is CBOR
that is written and read by hand.

Unlike the reader of `ipfrs-core`, this one takes the CID of a record as it is. It finds the length
of the CID by writing the parsed CID again.

The writer is modelled on a file that takes every byte, the reader on the bytes of a file; a buffer
of any length can be had. Counters are numbers without a bound: they count the bytes of one file.
A slice beyond the end of its array is a panic (`Fault.panic`).
-/

namespace Ipfrs.Storage

/-! ### The header as CBOR -/

/-- `CAR_VERSION`. -/
def carVersion : UInt64 := 1

structure CarHeader where
  version : UInt64
  roots : List Cid
  deriving DecidableEq

def CarHeader.new (roots : List Cid) : CarHeader := ⟨carVersion, roots⟩

/-- The bytes of the key `"version"`. -/
def versionKey : Bytes := [0x76, 0x65, 0x72, 0x73, 0x69, 0x6f, 0x6e]

/-- The bytes of the key `"roots"`. -/
def rootsKey : Bytes := [0x72, 0x6f, 0x6f, 0x74, 0x73]

/-- What `to_cbor` pushes for the length of a byte string. -/
def cborBytesHeader (len : ℕ) : Bytes :=
  if len < 24 then [0x40 ||| UInt8.ofNat len]
  else if len < 256 then [0x58, UInt8.ofNat len]
  -- the cast to `u16` keeps the two low bytes
  else 0x59 :: BigEndian.encode 2 len

section Writing

variable [CidCrate]

/-- What `to_cbor` pushes for a root: tag 42 and the CID as a byte string. -/
def cborRoot (root : Cid) : Bytes :=
  let cidBytes := CidCrate.toBytes root
  0xd8 :: 0x2a :: (cborBytesHeader cidBytes.length ++ cidBytes)

/-- `CarHeader::to_cbor`. The version that is written is always 1. -/
def CarHeader.toCbor (h : CarHeader) : Except Error Bytes :=
  let start := 0xa2 :: 0x67 :: (versionKey ++ 0x01 :: 0x65 :: rootsKey)
  let rootsLen := h.roots.length
  let items := (h.roots.map cborRoot).flatten
  if rootsLen < 24 then .ok (start ++ (0x80 ||| UInt8.ofNat rootsLen) :: items)
  else if rootsLen < 256 then .ok (start ++ 0x98 :: UInt8.ofNat rootsLen :: items)
  else .error (.invalidData "Too many roots")

end Writing

/-! ### Reading CBOR -/

/-- The number in the `k` bytes after the first one, with the length of the whole prefix. -/
def readCborLenBytes (k : ℕ) (rest : Bytes) : Except Error (ℕ × ℕ) :=
  match ByteStream.readExact k rest with
  | some (bytes, _) => .ok (BigEndian.decode bytes, k + 1)
  | none => .error (.invalidData "Length too short")

/-- `read_cbor_len`: the number of a CBOR head, and the length of the head. -/
def readCborLen : Bytes → Except Error (ℕ × ℕ)
  | [] => .error (.invalidData "Unexpected end")
  | b :: rest =>
    let additional := b &&& 0x1f
    if additional ≤ 23 then .ok (additional.toNat, 1)
    else if additional = 24 then readCborLenBytes 1 rest
    else if additional = 25 then readCborLenBytes 2 rest
    else if additional = 26 then readCborLenBytes 4 rest
    else .error (.invalidData "Unsupported length encoding")

variable (data : Bytes)

def readCborText : Except Error (String × ℕ) :=
  match data with
  | [] => .error (.invalidData "Unexpected end")
  | b :: _ =>
    if b >>> 5 ≠ 3 then .error (.invalidData "Expected text string")
    else do
      let (len, headerLen) ← readCborLen data
      let totalLen := headerLen + len
      if data.length < totalLen then .error (.invalidData "Text string too short")
      else
        match fromUtf8 ((data.drop headerLen).take len) with
        | some text => return (text, totalLen)
        | none => .error (.invalidData "Invalid UTF-8")

def readCborUint : Except Error (UInt64 × ℕ) :=
  match data with
  | [] => .error (.invalidData "Unexpected end")
  | b :: _ =>
    if b >>> 5 ≠ 0 then .error (.invalidData "Expected unsigned int")
    else do
      let (val, len) ← readCborLen data
      return (UInt64.ofNat val, len)

/-- The slice `&data[pos..]`. -/
def sliceFrom (pos : ℕ) : Except Fault Bytes :=
  if pos ≤ data.length then .ok (data.drop pos)
  else .error (.panic ("range start index " ++ toString pos ++ " out of range for slice of length "
    ++ toString data.length))

mutual

/-- `skip_cbor_value`: the length of a value. Every nested value starts at least one byte later, so
`fuel` is a bound on the nesting; `from_cbor` gives the length of the data. -/
def skipCborValue : ℕ → Bytes → Except Fault ℕ
  | 0, _ => .error (.panic "stack overflow")
  | _ + 1, [] => .error (.error (.invalidData "Unexpected end"))
  | fuel + 1, b :: rest => do
    let data := b :: rest
    let major := b >>> 5
    let (len, headerLen) ← liftResult (readCborLen data)
    if major = 0 ∨ major = 1 ∨ major = 7 then return headerLen
    -- the end of a string is not compared with the end of the data
    else if major = 2 ∨ major = 3 then return headerLen + len
    else if major = 4 then skipCborValues fuel len data headerLen
    else if major = 5 then skipCborValues fuel (2 * len) data headerLen
    else skipCborValues fuel 1 data headerLen
termination_by fuel => (fuel, 0)

/-- `count` values in a row: the items of an array, the keys and values of a map, or what is tagged.
The position behind them. -/
def skipCborValues : ℕ → ℕ → Bytes → ℕ → Except Fault ℕ
  | _, 0, _, pos => return pos
  | fuel, count + 1, data, pos => do
    let slice ← sliceFrom data pos
    let len ← skipCborValue fuel slice
    skipCborValues fuel count data (pos + len)
termination_by fuel count => (fuel, count + 1)

end

section Reading

variable [CidCrate]

/-- One round of the loop of `read_cbor_roots`: the root at `pos`, and the position behind it. -/
def readCborRoot (data : Bytes) (pos : ℕ) : Except Error (Cid × ℕ) :=
  -- the tag is skipped, whatever its number
  let pos := if data[pos]? = some 0xd8 then pos + 2 else pos
  match data.drop pos with
  | [] => .error (.invalidData "Unexpected end in roots")
  | b :: _ =>
    if b >>> 5 ≠ 2 then .error (.invalidData "Expected byte string for CID")
    else do
      let (len, header) ← readCborLen (data.drop pos)
      let pos := pos + header
      if pos + len > data.length then .error (.invalidData "CID bytes too short")
      else
        match CidCrate.tryFrom ((data.drop pos).take len) with
        | .ok cid => return (cid, pos + len)
        | .error e => .error (.cid ("Invalid CID: " ++ e))

/-- The loop of `read_cbor_roots`, with `count` rounds left. -/
def readCborRootsLoop (data : Bytes) : ℕ → ℕ → List Cid → Except Error (List Cid × ℕ)
  | 0, pos, roots => .ok (roots, pos)
  | count + 1, pos, roots => do
    let (cid, pos) ← readCborRoot data pos
    readCborRootsLoop data count pos (roots ++ [cid])

def readCborRoots (data : Bytes) : Except Error (List Cid × ℕ) :=
  match data with
  | [] => .error (.invalidData "Unexpected end")
  | b :: _ =>
    if b >>> 5 ≠ 4 then .error (.invalidData "Expected array")
    else do
      let (arrLen, headerLen) ← readCborLen data
      readCborRootsLoop data arrLen headerLen []

namespace CarHeader

/-- The loop of `from_cbor` over the entries of the map, with `count` rounds left. -/
def fromCborLoop (data : Bytes) : ℕ → ℕ → CarHeader → Except Fault CarHeader
  | 0, _, h => .ok h
  | count + 1, pos, h => do
    let slice ← sliceFrom data pos
    let (key, keyLen) ← liftResult (readCborText slice)
    let pos := pos + keyLen
    if key = "version" then
      if pos ≥ data.length then .error (.error (.invalidData "Unexpected end"))
      else
        let (v, len) ← liftResult (readCborUint (data.drop pos))
        fromCborLoop data count (pos + len) { h with version := v }
    else if key = "roots" then
      let slice ← sliceFrom data pos
      let (r, len) ← liftResult (readCborRoots slice)
      fromCborLoop data count (pos + len) { h with roots := r }
    else
      let slice ← sliceFrom data pos
      let len ← skipCborValue (data.length + 1) slice
      fromCborLoop data count (pos + len) h

def fromCbor (data : Bytes) : Except Fault CarHeader :=
  match data with
  | [] => .error (.error (.invalidData "Expected CBOR map"))
  | b :: _ =>
    if b &&& 0xe0 ≠ 0xa0 then .error (.error (.invalidData "Expected CBOR map"))
    else if b = 0xa2 then fromCborLoop data 2 1 ⟨1, []⟩
    else .error (.error (.invalidData "Expected map(2)"))

end CarHeader

end Reading

/-! ### Varints -/

def encodeVarint (value : UInt64) : Bytes :=
  if h : value ≥ 0x80 then
    have : (value >>> 7).toNat < value.toNat := by
      have hdiv : (value >>> 7).toNat = value.toNat / 128 := by
        simp [UInt64.toNat_shiftRight, Nat.shiftRight_eq_div_pow]
      have hge : 128 ≤ value.toNat := UInt64.le_iff_toNat_le.mp h
      omega
    (value.toUInt8 ||| 0x80) :: encodeVarint (value >>> 7)
  else [value.toUInt8]
termination_by value.toNat

/-- The loop of `decode_varint`, at the byte with the index `i`. -/
def decodeVarintLoop : UInt64 → ℕ → ℕ → Bytes → Except Error (UInt64 × ℕ)
  | _, _, _, [] => .error (.invalidData "Incomplete varint")
  | result, shift, i, byte :: data =>
    let result := result ||| (byte &&& 0x7f).toUInt64 <<< UInt64.ofNat shift
    if byte &&& 0x80 = 0 then .ok (result, i + 1)
    else
      let shift := shift + 7
      if shift ≥ 64 then .error (.invalidData "Varint too long")
      else decodeVarintLoop result shift (i + 1) data

def decodeVarint : Except Error (UInt64 × ℕ) := decodeVarintLoop 0 0 0 data

/-! ### The writer -/

structure CarWriteStats where
  blocksWritten : ℕ
  bytesWritten : ℕ
  deriving DecidableEq, Repr

/-- `CarWriter`, with the bytes that have been written. -/
structure CarWriter where
  writer : Bytes
  blocksWritten : ℕ
  bytesWritten : ℕ

namespace CarWriter

variable [CidCrate]

def create (roots : List Cid) : Except Error CarWriter := do
  let headerBytes ← (CarHeader.new roots).toCbor
  let headerLen := encodeVarint (UInt64.ofNat headerBytes.length)
  return ⟨headerLen ++ headerBytes, 0, headerLen.length + headerBytes.length⟩

def writeBlock (w : CarWriter) (block : Block) : CarWriter :=
  let cidBytes := CidCrate.toBytes block.cid
  let blockLen := cidBytes.length + block.data.length
  let lenBytes := encodeVarint (UInt64.ofNat blockLen)
  { writer := w.writer ++ lenBytes ++ cidBytes ++ block.data
    blocksWritten := w.blocksWritten + 1
    bytesWritten := w.bytesWritten + (lenBytes.length + blockLen) }

omit [CidCrate] in
def stats (w : CarWriter) : CarWriteStats := ⟨w.blocksWritten, w.bytesWritten⟩

omit [CidCrate] in
/-- `CarWriter::finish`: the bytes of the file, and the statistics. -/
def finish (w : CarWriter) : Bytes × CarWriteStats := (w.writer, w.stats)

end CarWriter

/-! ### The reader -/

structure CarReadStats where
  blocksRead : ℕ
  bytesRead : ℕ
  deriving DecidableEq, Repr

/-- `CarReader`, with the bytes of the file that have not been read yet. -/
structure CarReader where
  reader : Bytes
  header : CarHeader
  blocksRead : ℕ
  bytesRead : ℕ
  deriving DecidableEq

namespace CarReader

/-- The loop of `open` that fills `header_len_buf`, with the number of rounds that are left: the
bytes of the length, and the rest of the file. -/
def readHeaderLen : ℕ → Bytes → Except Error (Bytes × Bytes)
  | 0, input => .ok ([], input)
  | _ + 1, [] => .error (.storage "Failed to read header length: early eof")
  | rounds + 1, b :: input =>
    if b &&& 0x80 = 0 then .ok ([b], input)
    else do
      let (buf, input) ← readHeaderLen rounds input
      return (b :: buf, input)

/-- The loop of `read_block` that fills `len_buf`, from the round `10 - rounds` on. `none` is the
end of the file, where a record would start. -/
def readBlockLen : ℕ → Bytes → Except Error (Option (Bytes × Bytes))
  | 0, input => .ok (some ([], input))
  | rounds + 1, [] =>
    if rounds + 1 = 10 then .ok none else .error (.storage "Incomplete block length")
  | rounds + 1, b :: input =>
    if b &&& 0x80 = 0 then .ok (some ([b], input))
    else do
      match ← readBlockLen rounds input with
      | some (buf, input) => return some (b :: buf, input)
      | none => return none

/-- `AsyncReadExt::read_exact` into a new buffer of `n` bytes, with what was to be read. -/
def readBuffer (what : String) (n : ℕ) (input : Bytes) : Except Error (Bytes × Bytes) :=
  match ByteStream.readExact n input with
  | some r => .ok r
  | none => .error (.storage ("Failed to read " ++ what ++ ": early eof"))

variable [CidCrate]

/-- `CarReader::open`. -/
def «open» (file : Bytes) : Except Fault CarReader := do
  let (headerLenBuf, input) ← liftResult (readHeaderLen 10 file)
  let (headerLen, _) ← liftResult (decodeVarint headerLenBuf)
  let (headerBytes, input) ← liftResult (readBuffer "header" headerLen.toNat input)
  let header ← CarHeader.fromCbor headerBytes
  return ⟨input, header, 0, headerLenBuf.length + headerLen.toNat⟩

omit [CidCrate] in
/-- `CarReader::roots`. -/
def roots (r : CarReader) : List Cid := r.header.roots

omit [CidCrate] in
/-- `CarReader::stats`. -/
def stats (r : CarReader) : CarReadStats := ⟨r.blocksRead, r.bytesRead⟩

/-- What `read_block` makes of the bytes of a record. -/
def parseRecord (blockData : Bytes) : Except Fault Block := do
  let cid ← liftResult ((CidCrate.tryFrom blockData).mapError fun e =>
    Error.cid ("Invalid CID in CAR: " ++ e))
  let data ← sliceFrom blockData (CidCrate.toBytes cid).length
  return ⟨cid, data⟩

/-- `CarReader::read_block`. -/
def readBlock (r : CarReader) : Except Fault (Option Block × CarReader) := do
  match ← liftResult (readBlockLen 10 r.reader) with
  | none => return (none, r)
  | some (lenBuf, input) =>
    let (blockLen, _) ← liftResult (decodeVarint lenBuf)
    let (blockData, input) ← liftResult (readBuffer "block data" blockLen.toNat input)
    let block ← parseRecord blockData
    return (some block, { r with
      reader := input
      blocksRead := r.blocksRead + 1
      bytesRead := r.bytesRead + (lenBuf.length + blockLen.toNat) })

/-- One round of the loop `while let Some(block) = reader.read_block()` of `import_from_car`, on the
blocks read so far and the reader. -/
def readAllStep : List Block × CarReader →
    (List Block × CarReader) ⊕ Except Fault (List Block × CarReader)
  | (blocks, r) =>
    match r.readBlock with
    | .ok (some block, r') => .inl (blocks ++ [block], r')
    | .ok (none, r') => .inr (.ok (blocks, r'))
    | .error e => .inr (.error e)

end CarReader

end Ipfrs.Storage
