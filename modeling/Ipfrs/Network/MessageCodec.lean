import Ipfrs.Core.Cid
import Ipfrs.Lib.ByteStream
import Ipfrs.Lib.Crc
import Ipfrs.Lib.Fallible

/-!
# Frames with a checksum

`PeerMessageCodec` (`ipfrs-network/src/message_codec.rs`): the length of the payload, the payload,
and the CRC-32 of the payload if checksums are enabled. What the codec counts is left out.

* `toBitVec_crc32Step` — a step of the table-driven CRC is eight shifts of the register;
* `crc32_ne_of_corrupts` — four bytes in a row are as long as the register, so no change of them is
  missed;
* `frame_integrity` — frames read back, and what is changed in them is noticed.
-/

namespace Ipfrs.Network

/-! ### CRC-32 -/

variable (crc : UInt32)

/-- One round of the inner loop that fills `CRC32_TABLE`. -/
def crc32Bit : UInt32 :=
  if crc &&& 1 ≠ 0 then (crc >>> 1) ^^^ 0xEDB88320 else crc >>> 1

/-- The inner loop that fills `CRC32_TABLE`, with the number of rounds that are left. -/
def crc32Entry : ℕ → UInt32 → UInt32
  | 0, crc => crc
  | rounds + 1, crc => crc32Entry rounds (crc32Bit crc)

/-- `CRC32_TABLE`. -/
def crc32Table : List UInt32 := (List.range 256).map fun i => crc32Entry 8 (UInt32.ofNat i)

/-- One round of the loop of `PeerMessageCodec::crc32`. -/
def crc32Step (byte : UInt8) : UInt32 :=
  let index := ((crc ^^^ byte.toUInt32) &&& 0xff).toNat
  (crc >>> 8) ^^^ crc32Table.getD index 0

/-- `PeerMessageCodec::crc32`. -/
def crc32 (data : Bytes) : UInt32 := data.foldl crc32Step 0xffffffff ^^^ 0xffffffff

/-! ### The codec -/

inductive CodecError where
  | bufferTooSmall
  | messageTooLarge
  | invalidLength
  | checksumMismatch
  deriving DecidableEq, Repr

/-- `CodecConfig`, with the values of its `Default`. -/
structure CodecConfig where
  maxMessageSize : ℕ := 16777216
  useChecksum : Bool := true
  deriving DecidableEq, Repr

namespace PeerMessageCodec

def encode (config : CodecConfig) (payload : Bytes) : Except CodecError Bytes :=
  if payload.length > config.maxMessageSize then .error .messageTooLarge
  else
    -- of the length, the low 32 bits
    let buf := BigEndian.encode 4 payload.length ++ payload
    if config.useChecksum then .ok (buf ++ BigEndian.encode 4 (crc32 payload).toNat)
    else .ok buf

def decodeLength (data : Bytes) : Except CodecError ℕ :=
  if data.length < 4 then .error .bufferTooSmall else .ok (BigEndian.decode (data.take 4))

def decode (config : CodecConfig) (data : Bytes) : Except CodecError Bytes :=
  if data.length < 4 then .error .bufferTooSmall
  else do
    let payloadLen ← decodeLength data
    if payloadLen > config.maxMessageSize then .error .messageTooLarge
    else
      let checksumSize := if config.useChecksum then 4 else 0
      if data.length < 4 + payloadLen + checksumSize then .error .invalidLength
      else
        let payload := (data.drop 4).take payloadLen
        let storedCrc := UInt32.ofNat (BigEndian.decode ((data.drop (4 + payloadLen)).take 4))
        if config.useChecksum ∧ storedCrc ≠ crc32 payload then .error .checksumMismatch
        else .ok payload

end PeerMessageCodec

/-! ### The register -/

/-- The polynomial, reflected. -/
def crc32Poly : BitVec 32 := 0xEDB88320

theorem toBitVec_crc32Bit : (crc32Bit crc).toBitVec = Crc.shift crc32Poly crc.toBitVec := by
  have hbit : crc &&& 1 ≠ 0 ↔ crc.toBitVec.getLsbD 0 = true := by
    rw [Ne, ← UInt32.toBitVec_inj, UInt32.toBitVec_and]
    show ¬ crc.toBitVec &&& 1#32 = 0#32 ↔ _
    rw [BitVec.and_one_eq_setWidth_ofBool_getLsbD]
    cases crc.toBitVec.getLsbD 0 <;> decide
  rw [crc32Bit, Crc.shift]
  by_cases h : crc.toBitVec.getLsbD 0 = true
  · rw [if_pos (hbit.mpr h), if_pos h]
    rfl
  · rw [if_neg (fun h' => h (hbit.mp h')), if_neg h]
    exact BitVec.xor_zero.symm

theorem toBitVec_crc32Entry (rounds : ℕ) (crc : UInt32) :
    (crc32Entry rounds crc).toBitVec = Crc.shifts crc32Poly rounds crc.toBitVec := by
  induction rounds generalizing crc with
  | zero => rfl
  | succ rounds ih => rw [crc32Entry, ih, toBitVec_crc32Bit, Crc.shifts_succ]

theorem getD_crc32Table {index : ℕ} (h : index < 256) :
    crc32Table.getD index 0 = crc32Entry 8 (UInt32.ofNat index) := by
  rw [crc32Table, List.getD_eq_getElem?_getD, List.getElem?_map, List.getElem?_range h]
  rfl

/-- **A step of the table** is eight shifts: the table has what the low eight bits bring in. -/
theorem toBitVec_crc32Step (byte : UInt8) :
    (crc32Step crc byte).toBitVec = Crc.feed crc32Poly crc.toBitVec byte.toBitVec := by
  have hindex : ((crc ^^^ byte.toUInt32) &&& 0xff).toNat
      = ((crc ^^^ byte.toUInt32).toBitVec.setWidth 8).toNat := by
    rw [UInt32.toNat_and, BitVec.toNat_setWidth]
    exact Nat.and_two_pow_sub_one_eq_mod _ 8
  have hlt := ((crc ^^^ byte.toUInt32).toBitVec.setWidth 8).isLt
  have hword : (UInt32.ofNat ((crc ^^^ byte.toUInt32).toBitVec.setWidth 8).toNat).toBitVec
      = ((crc.toBitVec ^^^ byte.toBitVec.setWidth 32).setWidth 8).setWidth 32 :=
    BitVec.ofNat_toNat _ _
  -- the byte does not reach the bits that move down
  have hhigh : (crc.toBitVec ^^^ byte.toBitVec.setWidth 32) >>> 8 = crc.toBitVec >>> 8 := by
    rw [BitVec.ushiftRight_xor_distrib]
    have hzero : byte.toBitVec.setWidth 32 >>> 8 = 0#32 := by
      apply BitVec.eq_of_getLsbD_eq
      intro i hi
      simp
    rw [hzero, BitVec.xor_zero]
  rw [crc32Step, Crc.feed, Crc.shifts_split, hhigh, hindex, getD_crc32Table hlt,
    UInt32.toBitVec_xor, toBitVec_crc32Entry, hword]
  rfl

theorem toBitVec_foldl_crc32Step (data : Bytes) (crc : UInt32) :
    (data.foldl crc32Step crc).toBitVec
      = Crc.feedAll crc32Poly crc.toBitVec (data.map UInt8.toBitVec) := by
  induction data generalizing crc with
  | nil => rfl
  | cons byte data ih =>
    rw [List.foldl_cons, ih, toBitVec_crc32Step]
    rfl

/-! ### Corrupted bytes -/

/-- The bytes differ, and only between two positions. -/
structure Corrupts (bytes bytes' : Bytes) (start count : ℕ) : Prop where
  length_eq : bytes'.length = bytes.length
  ne : bytes' ≠ bytes
  same : ∀ i, i < start ∨ start + count ≤ i → bytes'[i]? = bytes[i]?

namespace Corrupts

variable {a b c bytes' : Bytes} {start count : ℕ}

theorem within (h : Corrupts (a ++ b ++ c) bytes' start count) (hstart : a.length ≤ start)
    (hstop : start + count ≤ a.length + b.length) :
    ∃ b', bytes' = a ++ b' ++ c ∧ Corrupts b b' (start - a.length) count := by
  have hlength := h.length_eq
  rw [List.length_append, List.length_append] at hlength
  have hfront : bytes'.take a.length = a := by
    apply List.ext_getElem?
    intro i
    rw [List.getElem?_take]
    split
    · next hi => rw [h.same i (.inl (by omega)), List.append_assoc, List.getElem?_append_left hi]
    · next hi => rw [List.getElem?_eq_none (by omega)]
  have hback : bytes'.drop (a.length + b.length) = c := by
    apply List.ext_getElem?
    intro i
    rw [List.getElem?_drop, h.same _ (.inr (by omega)),
      List.getElem?_append_right (by rw [List.length_append]; omega), List.length_append,
      Nat.add_sub_cancel_left]
  let b' := (bytes'.drop a.length).take b.length
  have hbytes : bytes' = a ++ b' ++ c := by
    rw [← List.take_append_drop a.length bytes', hfront,
      ← List.take_append_drop b.length (bytes'.drop a.length), List.drop_drop, hback,
      List.append_assoc]
  have hlength' : b'.length = b.length := by
    rw [List.length_take, List.length_drop, hlength]
    omega
  refine ⟨b', hbytes, hlength', fun heq => h.ne (by rw [hbytes, heq]), fun i hi => ?_⟩
  by_cases hib : i < b.length
  · have hget : ∀ x : Bytes, i < x.length → (a ++ x ++ c)[a.length + i]? = x[i]? := by
      intro x hx
      rw [List.append_assoc, List.getElem?_append_right (Nat.le_add_right _ _),
        Nat.add_sub_cancel_left, List.getElem?_append_left hx]
    have hsame := h.same (a.length + i) (by omega)
    rw [hbytes, hget b hib, hget b' (by omega)] at hsame
    exact hsame
  · rw [List.getElem?_eq_none (by omega), List.getElem?_eq_none (by omega)]

theorem exists_burst (h : Corrupts b bytes' start count) (hstop : start + count ≤ b.length) :
    ∃ pre old new post, b = pre ++ old ++ post ∧ bytes' = pre ++ new ++ post ∧
      old.length = count ∧ new.length = count ∧ old ≠ new := by
  have hsplit : b = b.take start ++ (b.drop start).take count ++ b.drop (start + count) := by
    rw [List.append_assoc, ← List.drop_drop, List.take_append_drop, List.take_append_drop]
  have hpre : (b.take start).length = start := by
    rw [List.length_take]
    omega
  have hold : ((b.drop start).take count).length = count := by
    rw [List.length_take, List.length_drop]
    omega
  rw [hsplit] at h
  obtain ⟨new, hbytes, hnew⟩ := h.within (by omega) (by omega)
  exact ⟨_, _, new, _, hsplit, hbytes, hold, hnew.length_eq.trans hold, hnew.ne.symm⟩

end Corrupts

/-- **Four bytes in a row** are as long as the register, so no change of them is missed. -/
theorem crc32_ne_of_corrupts {payload payload' : Bytes} {start count : ℕ}
    (h : Corrupts payload payload' start count) (hcount : count ≤ 4)
    (hstop : start + count ≤ payload.length) : crc32 payload' ≠ crc32 payload := by
  obtain ⟨pre, old, new, post, rfl, rfl, hold, hnew, hne⟩ := h.exists_burst hstop
  intro heq
  -- the last inversion is undone, and what is left is the register
  have hfold := congrArg UInt32.toBitVec ((UInt32.xor_left_inj _).mp heq)
  rw [toBitVec_foldl_crc32Step, toBitVec_foldl_crc32Step] at hfold
  simp only [List.map_append] at hfold
  have hpoly : crc32Poly.msb = true := by decide
  refine Crc.feedAll_burst hpoly ?_ ?_ ?_ _ hfold.symm
  · rw [List.length_map, List.length_map, hold, hnew]
  · rw [List.length_map, hold]
    omega
  · exact fun hmap => hne (List.map_injective_iff.mpr (fun _ _ => UInt8.toBitVec_inj.mp) hmap)

/-! ### Frames -/

namespace PeerMessageCodec

variable {config : CodecConfig} {payload : Bytes}

/-- **A frame**, with any checksum, and whatever follows. -/
theorem decode_frame (hchecksum : config.useChecksum = true)
    (hmax : payload.length ≤ config.maxMessageSize) (hlength : payload.length < 2 ^ 32)
    {stored : Bytes} (hstored : stored.length = 4) (rest : Bytes) :
    decode config (BigEndian.encode 4 payload.length ++ payload ++ stored ++ rest) =
      if UInt32.ofNat (BigEndian.decode stored) = crc32 payload then .ok payload
      else .error .checksumMismatch := by
  have hhead : (BigEndian.encode 4 payload.length).length = 4 := BigEndian.length_encode _ _
  -- the prefix is any four bytes with this number, so that it is not evaluated
  generalize hprefix : BigEndian.encode 4 payload.length = lengthPrefix at hhead
  have hdecode : BigEndian.decode lengthPrefix = payload.length := by
    rw [← hprefix]
    exact BigEndian.decode_encode_of_lt hlength
  let data := lengthPrefix ++ payload ++ stored ++ rest
  have hsize : data.length = 4 + payload.length + 4 + rest.length := by
    simp only [data, List.length_append, hhead, hstored]
  have hpayload : (data.drop 4).take payload.length = payload := by
    show ((lengthPrefix ++ payload ++ stored ++ rest).drop 4).take payload.length = payload
    rw [List.append_assoc, List.append_assoc, List.drop_left' hhead, List.take_left]
  have hfield : (data.drop (4 + payload.length)).take 4 = stored := by
    have hfront : (lengthPrefix ++ payload).length = 4 + payload.length := by simp [hhead]
    show ((lengthPrefix ++ payload ++ stored ++ rest).drop (4 + payload.length)).take 4 = stored
    rw [List.append_assoc, List.drop_left' hfront, List.take_left' hstored]
  have hlen : decodeLength data = .ok payload.length := by
    rw [decodeLength, if_neg (by omega)]
    show Except.ok (BigEndian.decode ((lengthPrefix ++ payload ++ stored ++ rest).take 4)) = _
    rw [List.append_assoc, List.append_assoc, List.take_left' hhead, hdecode]
  show decode config data = _
  rw [decode, if_neg (by omega), hlen, Except.ok_bind, if_neg (by omega)]
  simp only [hchecksum, if_true, true_and, hpayload, hfield, ite_not]
  rw [if_neg (by omega)]

/-- **Frame integrity.** With checksums, a frame reads back whatever follows it. When up to four
payload bytes in a row are changed, or the checksum is, the decoder says so. -/
theorem frame_integrity (hchecksum : config.useChecksum = true)
    (hlength : payload.length ≤ min config.maxMessageSize (2 ^ 32 - 1)) :
    ∃ wire, encode config payload = .ok wire ∧
      (∀ rest, decode config (wire ++ rest) = .ok payload) ∧
      (∀ wire' start count, Corrupts wire wire' start count → count ≤ 4 → 4 ≤ start →
        start + count ≤ 4 + payload.length →
        ∀ rest, decode config (wire' ++ rest) = .error .checksumMismatch) ∧
      ∀ wire', Corrupts wire wire' (4 + payload.length) 4 →
        ∀ rest, decode config (wire' ++ rest) = .error .checksumMismatch := by
  obtain ⟨hmax, hbound⟩ := le_min_iff.mp hlength
  have hhead : (BigEndian.encode 4 payload.length).length = 4 := BigEndian.length_encode _ _
  have htail : (BigEndian.encode 4 (crc32 payload).toNat).length = 4 := BigEndian.length_encode _ _
  have hcrc : BigEndian.decode (BigEndian.encode 4 (crc32 payload).toNat) = (crc32 payload).toNat :=
    BigEndian.decode_encode_of_lt (crc32 payload).toNat_lt
  have hstored : UInt32.ofNat (BigEndian.decode (BigEndian.encode 4 (crc32 payload).toNat))
      = crc32 payload := by
    rw [hcrc, UInt32.ofNat_toNat]
  refine ⟨BigEndian.encode 4 payload.length ++ payload ++ BigEndian.encode 4 (crc32 payload).toNat,
    ?_, fun rest => ?_, ?_, ?_⟩
  · rw [encode, if_neg (by omega), if_pos hchecksum]
  · rw [decode_frame hchecksum hmax (by omega) htail, if_pos hstored]
  · intro wire' start count h hcount hstart hstop rest
    obtain ⟨payload', rfl, h'⟩ := h.within (by omega) (by omega)
    -- the checksum is still that of the payload before
    have hne := crc32_ne_of_corrupts h' hcount (by omega)
    rw [← h'.length_eq, decode_frame hchecksum (by rw [h'.length_eq]; exact hmax)
      (by rw [h'.length_eq]; omega) htail, hstored, if_neg hne.symm]
  · intro wire' h rest
    have hfront : (BigEndian.encode 4 payload.length ++ payload).length = 4 + payload.length := by
      rw [List.length_append, hhead]
    -- the change is at the end of the frame
    rw [← List.append_nil (BigEndian.encode 4 payload.length ++ payload ++ _)] at h
    obtain ⟨stored, rfl, h'⟩ := h.within (by omega) (by omega)
    have hlen : stored.length = 4 := h'.length_eq.trans htail
    rw [List.append_nil, decode_frame hchecksum hmax (by omega) hlen, if_neg]
    -- two numbers of four bytes are different
    intro heq
    have hlt := BigEndian.decode_lt stored
    rw [hlen] at hlt
    have hdecode := congrArg UInt32.toNat heq
    rw [UInt32.toNat_ofNat_of_lt' hlt] at hdecode
    refine h'.ne (BigEndian.decode_inj h'.length_eq ?_)
    rw [hdecode, hcrc]

theorem frame_integrity_threeBytes :
    ∃ wire, encode {} [1, 2, 3] = .ok wire ∧ ∀ rest, decode {} (wire ++ rest) = .ok [1, 2, 3] := by
  obtain ⟨wire, hencode, hdecode, -⟩ := @frame_integrity {} [1, 2, 3] rfl (by decide)
  exact ⟨wire, hencode, hdecode⟩

example : crc32 [0x31, 0x32, 0x33, 0x34, 0x35, 0x36, 0x37, 0x38, 0x39] = 0xCBF43926 := by
  decide +kernel

end PeerMessageCodec

end Ipfrs.Network
