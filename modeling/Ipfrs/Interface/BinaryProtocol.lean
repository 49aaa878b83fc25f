import Ipfrs.Core.Base64

/-!
# The binary protocol

`BinaryMessage`, `BatchGetRequest` and `ErrorResponse` (`ipfrs-interface/src/binary_protocol.rs`):
a header with the payload behind it, a counted list of records with a length of two bytes each, and
a text with a length of two bytes.

* `BinaryMessage.decode_encode` — a message of a known version reads back;
* `BatchGetRequest.decode_encode` — a request reads back, record by record;
* `ErrorResponse.decode_encode` — of a text, as many bytes read back as the low two bytes of its
  length say;
* `roundTrip_iff` — so a text of `2 ^ 16` bytes or more does not read back.
-/

namespace Ipfrs.Interface

/-- `PROTOCOL_VERSION`. -/
def protocolVersion : UInt8 := 1

/-- `MAGIC`. -/
def magic : Bytes := [0x49, 0x50, 0x46, 0x53]

/-- `MAX_MESSAGE_SIZE`. -/
def maxMessageSize : ℕ := 16 * 1024 * 1024

/-- `ProtocolError`. For `InvalidUtf8`, the bytes that its text is about. -/
inductive ProtocolError where
  | invalidMagic (magic : Bytes)
  | unsupportedVersion (version : UInt8)
  | invalidMessageType (value : UInt8)
  | invalidMessageSize (size : ℕ)
  | messageTooLarge (size : ℕ)
  | invalidCid (text : String)
  | invalidUtf8 (bytes : Bytes)
  deriving DecidableEq, Repr

inductive MessageType where
  | getBlock
  | putBlock
  | hasBlock
  | deleteBlock
  | batchGet
  | batchPut
  | batchHas
  | success
  | error
  deriving DecidableEq, Repr

def MessageType.toU8 : MessageType → UInt8
  | getBlock => 0x01
  | putBlock => 0x02
  | hasBlock => 0x03
  | deleteBlock => 0x04
  | batchGet => 0x05
  | batchPut => 0x06
  | batchHas => 0x07
  | success => 0x80
  | error => 0x81

def MessageType.fromU8 (value : UInt8) : Except ProtocolError MessageType :=
  match value with
  | 0x01 => .ok getBlock
  | 0x02 => .ok putBlock
  | 0x03 => .ok hasBlock
  | 0x04 => .ok deleteBlock
  | 0x05 => .ok batchGet
  | 0x06 => .ok batchPut
  | 0x07 => .ok batchHas
  | 0x80 => .ok success
  | 0x81 => .ok error
  | _ => .error (.invalidMessageType value)

@[simp] theorem MessageType.fromU8_toU8 (t : MessageType) : fromU8 t.toU8 = .ok t := by
  cases t <;> rfl

/-! ### Messages -/

structure BinaryMessage where
  version : UInt8
  msgType : MessageType
  messageId : UInt32
  payload : Bytes
  deriving DecidableEq, Repr

namespace BinaryMessage

def encode (m : BinaryMessage) : Except ProtocolError Bytes :=
  let totalSize := 4 + 1 + 1 + 4 + m.payload.length
  if totalSize > maxMessageSize then .error (.messageTooLarge totalSize)
  else .ok (magic ++ (m.version :: m.msgType.toU8 ::
    (BigEndian.encode 4 m.messageId.toNat ++ m.payload)))

def decode (data : Bytes) : Except ProtocolError BinaryMessage :=
  if data.length < 10 then .error (.invalidMessageSize data.length)
  else if data.length > maxMessageSize then .error (.messageTooLarge data.length)
  else if data.take 4 ≠ magic then .error (.invalidMagic (data.take 4))
  else
    let version := data.getD 4 0
    if version > protocolVersion then .error (.unsupportedVersion version)
    else do
      let msgType ← MessageType.fromU8 (data.getD 5 0)
      let messageId := UInt32.ofNat (BigEndian.decode ((data.drop 6).take 4))
      return ⟨version, msgType, messageId, data.drop 10⟩

/-- **A message of a known version** reads back. -/
theorem decode_encode {m : BinaryMessage} {data : Bytes} (hversion : m.version ≤ protocolVersion)
    (h : m.encode = .ok data) : decode data = .ok m := by
  unfold encode at h
  dsimp only at h
  split at h
  · exact absurd h (by simp)
  next hsize =>
  obtain rfl := Except.ok.inj h
  have hid : (BigEndian.encode 4 m.messageId.toNat).length = 4 := BigEndian.length_encode _ _
  have hnum : UInt32.ofNat (BigEndian.decode (BigEndian.encode 4 m.messageId.toNat))
      = m.messageId := by
    rw [BigEndian.decode_encode_of_lt m.messageId.toNat_lt]
    exact UInt32.ofNat_toNat
  generalize BigEndian.encode 4 m.messageId.toNat = id at hid hnum
  have hlen : (magic ++ (m.version :: m.msgType.toU8 :: (id ++ m.payload))).length
      = 10 + m.payload.length := by
    simp only [magic, List.length_append, List.length_cons, List.length_nil, hid]
    omega
  have hfield : ((magic ++ (m.version :: m.msgType.toU8 :: (id ++ m.payload))).drop 6).take 4
      = id := List.take_left' hid
  have hrest : (magic ++ (m.version :: m.msgType.toU8 :: (id ++ m.payload))).drop 10
      = m.payload := by
    show (id ++ m.payload).drop 4 = m.payload
    exact List.drop_left' hid
  have htype : (magic ++ (m.version :: m.msgType.toU8 :: (id ++ m.payload))).getD 5 0
      = m.msgType.toU8 := rfl
  have hver : (magic ++ (m.version :: m.msgType.toU8 :: (id ++ m.payload))).getD 4 0
      = m.version := rfl
  have hmagic : (magic ++ (m.version :: m.msgType.toU8 :: (id ++ m.payload))).take 4 = magic := rfl
  rw [decode, hlen, if_neg (by omega), if_neg (by omega), hmagic, if_neg (not_not.mpr rfl), hver,
    if_neg (UInt8.not_lt.mpr hversion), htype, MessageType.fromU8_toU8, hfield, hnum, hrest]
  rfl

end BinaryMessage

/-! ### Requests for many blocks -/

structure BatchGetRequest where
  cids : List Cid
  deriving DecidableEq

namespace BatchGetRequest

variable [CidCrate]

/-- One round of the loop of `BatchGetRequest::encode`. -/
def record (cid : Cid) : Bytes :=
  let cidBytes := CidCrate.toBytes cid
  -- of the length, the low 16 bits
  BigEndian.encode 2 cidBytes.length ++ cidBytes

def encode (r : BatchGetRequest) : Except ProtocolError Bytes :=
  .ok (BigEndian.encode 4 r.cids.length ++ r.cids.flatMap record)

/-- The loop of `BatchGetRequest::decode`, with the number of rounds that are left. -/
def readCids : ℕ → Bytes → List Cid → Except ProtocolError (List Cid)
  | 0, _, cids => .ok cids
  | count + 1, input, cids =>
    if input.length < 2 then .error (.invalidMessageSize input.length)
    else
      let len := BigEndian.decode (input.take 2)
      let input := input.drop 2
      if input.length < len then .error (.invalidMessageSize input.length)
      else do
        let cid ← (CidCrate.tryFrom (input.take len)).mapError .invalidCid
        readCids count (input.drop len) (cids ++ [cid])

def decode (data : Bytes) : Except ProtocolError BatchGetRequest :=
  if data.length < 4 then .error (.invalidMessageSize data.length)
  else do
    let cids ← readCids (BigEndian.decode (data.take 4)) (data.drop 4) []
    return ⟨cids⟩

theorem readCids_record {cid : Cid} (hcid : CidCrate.tryFrom (CidCrate.toBytes cid) = .ok cid)
    (hlen : (CidCrate.toBytes cid).length < 2 ^ 16) (count : ℕ) (rest : Bytes) (cids : List Cid) :
    readCids (count + 1) (record cid ++ rest) cids = readCids count rest (cids ++ [cid]) := by
  have htwo : (BigEndian.encode 2 (CidCrate.toBytes cid).length).length = 2 :=
    BigEndian.length_encode _ _
  have hnum : BigEndian.decode (BigEndian.encode 2 (CidCrate.toBytes cid).length)
      = (CidCrate.toBytes cid).length := BigEndian.decode_encode_of_lt hlen
  generalize hhead : BigEndian.encode 2 (CidCrate.toBytes cid).length = head at htwo hnum
  have hrecord : record cid ++ rest = head ++ (CidCrate.toBytes cid ++ rest) := by
    rw [record, hhead, List.append_assoc]
  have hlong : ¬ (head ++ (CidCrate.toBytes cid ++ rest)).length < 2 := by
    rw [List.length_append, htwo]
    omega
  have hfits : ¬ (CidCrate.toBytes cid ++ rest).length < (CidCrate.toBytes cid).length := by
    rw [List.length_append]
    omega
  rw [hrecord, readCids, if_neg hlong, List.take_left' htwo, List.drop_left' htwo, hnum,
    if_neg hfits, List.take_left, List.drop_left, hcid]
  rfl

theorem readCids_flatMap (hcid : ∀ c, CidCrate.tryFrom (CidCrate.toBytes c) = .ok c)
    {cids : List Cid} (hlen : ∀ c ∈ cids, (CidCrate.toBytes c).length < 2 ^ 16) (done : List Cid) :
    readCids cids.length (cids.flatMap record) done = .ok (done ++ cids) := by
  induction cids generalizing done with
  | nil => rw [List.append_nil]; rfl
  | cons c cids ih =>
    rw [List.flatMap_cons, List.length_cons,
      readCids_record (hcid c) (hlen c List.mem_cons_self),
      ih (fun d hd => hlen d (List.mem_cons_of_mem _ hd)), List.append_assoc]
    rfl

/-- **A request** reads back. -/
theorem decode_encode (hcid : ∀ c, CidCrate.tryFrom (CidCrate.toBytes c) = .ok c)
    {r : BatchGetRequest} {data : Bytes} (hcount : r.cids.length < 2 ^ 32)
    (hlen : ∀ c ∈ r.cids, (CidCrate.toBytes c).length < 2 ^ 16) (h : r.encode = .ok data) :
    decode data = .ok r := by
  obtain rfl := Except.ok.inj h
  have hfour : (BigEndian.encode 4 r.cids.length).length = 4 := BigEndian.length_encode _ _
  have hnum : BigEndian.decode (BigEndian.encode 4 r.cids.length) = r.cids.length :=
    BigEndian.decode_encode_of_lt hcount
  have hlong : ¬ (BigEndian.encode 4 r.cids.length ++ r.cids.flatMap record).length < 4 := by
    rw [List.length_append, hfour]
    omega
  rw [decode, if_neg hlong, List.take_left' hfour, List.drop_left' hfour, hnum,
    readCids_flatMap hcid hlen]
  rfl

end BatchGetRequest

/-! ### Errors -/

structure ErrorResponse where
  errorCode : UInt16
  message : String
  deriving DecidableEq, Repr

namespace ErrorResponse

def encode (r : ErrorResponse) : Except ProtocolError Bytes :=
  let messageBytes := utf8 r.message
  -- of the length, the low 16 bits
  .ok (BigEndian.encode 2 r.errorCode.toNat ++ (BigEndian.encode 2 messageBytes.length
    ++ messageBytes))

def decode (data : Bytes) : Except ProtocolError ErrorResponse :=
  if data.length < 4 then .error (.invalidMessageSize data.length)
  else
    let errorCode := UInt16.ofNat (BigEndian.decode (data.take 2))
    let messageLen := BigEndian.decode ((data.drop 2).take 2)
    let rest := data.drop 4
    if rest.length < messageLen then .error (.invalidMessageSize rest.length)
    else
      let messageBytes := rest.take messageLen
      match fromUtf8 messageBytes with
      | some message => .ok ⟨errorCode, message⟩
      | none => .error (.invalidUtf8 messageBytes)

theorem exists_encode (r : ErrorResponse) : ∃ data, r.encode = .ok data := ⟨_, rfl⟩

/-- **What reads back** is as much of the text as the low two bytes of its length say. -/
theorem decode_encode {r : ErrorResponse} {data : Bytes} (h : r.encode = .ok data) :
    decode data =
      let messageBytes := (utf8 r.message).take ((utf8 r.message).length % 2 ^ 16)
      match fromUtf8 messageBytes with
      | some message => .ok ⟨r.errorCode, message⟩
      | none => .error (.invalidUtf8 messageBytes) := by
  obtain rfl := Except.ok.inj h
  have hcode : UInt16.ofNat (BigEndian.decode (BigEndian.encode 2 r.errorCode.toNat))
      = r.errorCode := by
    rw [BigEndian.decode_encode_of_lt r.errorCode.toNat_lt]
    exact UInt16.ofNat_toNat
  have hnum : BigEndian.decode (BigEndian.encode 2 (utf8 r.message).length)
      = (utf8 r.message).length % 2 ^ 16 := BigEndian.decode_encode _ _
  have hfst : (BigEndian.encode 2 r.errorCode.toNat).length = 2 := BigEndian.length_encode _ _
  have hsnd : (BigEndian.encode 2 (utf8 r.message).length).length = 2 :=
    BigEndian.length_encode _ _
  have hle : (utf8 r.message).length % 2 ^ 16 ≤ (utf8 r.message).length := Nat.mod_le _ _
  -- of the two fields only their lengths and numbers matter
  generalize BigEndian.encode 2 r.errorCode.toNat = code at hcode hfst
  generalize BigEndian.encode 2 (utf8 r.message).length = len at hnum hsnd
  have hlong : ¬ (code ++ (len ++ utf8 r.message)).length < 4 := by
    rw [List.length_append, List.length_append]
    omega
  have hrest : (code ++ (len ++ utf8 r.message)).drop 4 = utf8 r.message := by
    rw [← List.append_assoc]
    exact List.drop_left' (by rw [List.length_append, hfst, hsnd])
  rw [decode, if_neg hlong, List.take_left' hfst, List.drop_left' hfst, List.take_left' hsnd, hcode,
    hnum, hrest]
  dsimp only
  rw [if_neg (by omega)]

/-- **A text shorter than `2 ^ 16` bytes** reads back, and no other. -/
theorem decode_encode_iff {r : ErrorResponse} {data : Bytes} (h : r.encode = .ok data) :
    decode data = .ok r ↔ (utf8 r.message).length < 2 ^ 16 := by
  rw [decode_encode h]
  dsimp only
  constructor
  · intro hok
    split at hok
    · next message htext =>
      have hmessage : message = r.message := congrArg ErrorResponse.message (Except.ok.inj hok)
      -- a text is as long as the bytes that it was read from, and these are below `2 ^ 16`
      have hbytes := congrArg List.length (utf8_of_fromUtf8 htext)
      rw [hmessage, List.length_take, Nat.min_eq_left (Nat.mod_le _ _)] at hbytes
      omega
    · exact absurd hok (by simp)
  · intro hlt
    rw [Nat.mod_eq_of_lt hlt, List.take_length, fromUtf8_utf8]

end ErrorResponse

/-! ### The protocol -/

/-- **What is encoded reads back**, but for the texts that are too long for their length field. -/
theorem roundTrip_iff [CidCrate]
    (hcid : ∀ c : Cid, CidCrate.tryFrom (CidCrate.toBytes c) = .ok c) :
    (∀ m : BinaryMessage, m.version ≤ protocolVersion →
      ∀ data, m.encode = .ok data → BinaryMessage.decode data = .ok m) ∧
    (∀ r : BatchGetRequest, r.cids.length < 2 ^ 32 →
      (∀ c ∈ r.cids, (CidCrate.toBytes c).length < 65536) →
      ∀ data, r.encode = .ok data → BatchGetRequest.decode data = .ok r) ∧
    ∀ r : ErrorResponse,
      (∀ data, r.encode = .ok data → ErrorResponse.decode data = .ok r) ↔
        (utf8 r.message).length < 65536 := by
  refine ⟨fun m hversion data h => BinaryMessage.decode_encode hversion h,
    fun r hcount hlen data h => BatchGetRequest.decode_encode hcid hcount hlen h, fun r => ?_⟩
  constructor
  · intro h
    obtain ⟨data, hdata⟩ := r.exists_encode
    exact (ErrorResponse.decode_encode_iff hdata).mp (h data hdata)
  · intro hlt data h
    exact (ErrorResponse.decode_encode_iff h).mpr hlt

/-- The CIDs of a request for two blocks. -/
def sampleCids : List Cid :=
  [Cid.newV1 Codec.raw ⟨0x12, [1, 2], by decide⟩, Cid.newV1 Codec.dagCbor ⟨0x12, [], by decide⟩]

open scoped CidReference in
theorem roundTrip_sampleCids :
    (∃ data, (⟨sampleCids⟩ : BatchGetRequest).encode = .ok data ∧
      BatchGetRequest.decode data = .ok ⟨sampleCids⟩) ∧
    ∃ data, (⟨404, "Block not found"⟩ : ErrorResponse).encode = .ok data ∧
      ErrorResponse.decode data = .ok ⟨404, "Block not found"⟩ := by
  obtain ⟨-, hrequest, hresponse⟩ := roundTrip_iff LawfulCidCrate.tryFrom_toBytes
  have htext := (hresponse ⟨404, "Block not found"⟩).mpr (by rw [length_utf8]; decide)
  refine ⟨⟨_, rfl, hrequest ⟨sampleCids⟩ (by decide) ?_ _ rfl⟩, ⟨_, rfl, htext _ rfl⟩⟩
  decide +kernel

/-- A text of `n` letters. -/
def sampleText (n : ℕ) : String := String.ofList (List.replicate n 'a')

theorem length_utf8_sampleText (n : ℕ) : (utf8 (sampleText n)).length = n := by
  have hsize : ∀ c ∈ List.replicate n 'a', c.utf8Size = 1 := by
    intro c hc
    obtain rfl := List.eq_of_mem_replicate hc
    decide
  rw [sampleText, utf8_ofList hsize, List.length_map, List.length_replicate]

/-- The length field of a text of `2 ^ 16` letters, or of a multiple of them, is zero. -/
theorem decode_sampleText {n : ℕ} (hn : n % 2 ^ 16 = 0) {code : UInt16} {data : Bytes}
    (h : (⟨code, sampleText n⟩ : ErrorResponse).encode = .ok data) :
    ErrorResponse.decode data = .ok ⟨code, ""⟩ := by
  rw [ErrorResponse.decode_encode h]
  dsimp only
  rw [length_utf8_sampleText, hn, List.take_zero]
  rfl

theorem not_roundTrip_sampleText :
    ∃ data, (⟨500, sampleText 65536⟩ : ErrorResponse).encode = .ok data ∧
      ErrorResponse.decode data = .ok ⟨500, ""⟩ ∧
      ErrorResponse.decode data ≠ .ok ⟨500, sampleText 65536⟩ := by
  obtain ⟨data, hdata⟩ := ErrorResponse.exists_encode ⟨500, sampleText 65536⟩
  refine ⟨data, hdata, decode_sampleText (by norm_num) hdata, ?_⟩
  rw [Ne, ErrorResponse.decode_encode_iff hdata, length_utf8_sampleText]
  exact lt_irrefl _

end Ipfrs.Interface
