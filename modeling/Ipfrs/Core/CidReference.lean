import Ipfrs.Lib.ByteStream
import Ipfrs.Lib.Fallible
import Ipfrs.Lib.Leb128
import Ipfrs.Core.Cid

/-!
# A reference for the forms of CIDs

The binary form of the CID specification, as an instance of `CidCrate`: a version 0 CID is its bare
multihash, a version 1 CID is the version, the codec, the hash code and the digest length as
varints, and the digest. It satisfies `LawfulCidCrate`, so the results that assume these laws are
about something. The string form, an instance of `CidText`, is base58 for version 0 and base32 with
its multibase letter for version 1. The instances are scoped: nothing depends on this file but the
cases of those results at fixed inputs.
-/

namespace Ipfrs.CidReference

/-- The bytes of a CID. -/
def toBytes (c : Cid) : Bytes :=
  match c.version with
  | .v0 => 0x12 :: 0x20 :: c.hash.digest
  | .v1 =>
    Leb128.encode 1 ++ Leb128.encode c.codec.toNat ++ Leb128.encode c.hash.code.toNat
      ++ Leb128.encode c.hash.digest.length ++ c.hash.digest

/-- A varint that fits in 64 bits. -/
def readVarint (input : Bytes) : Except String (UInt64 × Bytes) :=
  match Leb128.decode input with
  | some (v, rest) => if v < 2 ^ 64 then .ok (UInt64.ofNat v, rest) else .error "varint overflow"
  | none => .error "unexpected end of varint"

/-- A multihash with a digest of `size` bytes. -/
def readDigest (code : UInt64) (size : ℕ) (input : Bytes) : Except String (Multihash × Bytes) :=
  match ByteStream.readExact size input with
  | some (digest, rest) =>
    if h : digest.length ≤ 64 then .ok (⟨code, digest, h⟩, rest) else .error "digest too long"
  | none => .error "failed to fill whole buffer"

/-- The CID at the head of a stream. -/
def readBytes (input : Bytes) : Except String (Cid × Bytes) := do
  let (version, input) ← readVarint input
  let (codec, input) ← readVarint input
  if version = 0x12 ∧ codec = 0x20 then
    let (hash, input) ← readDigest 0x12 32 input
    let cid ← Cid.newV0 hash
    return (cid, input)
  else if version = 1 then
    let (code, input) ← readVarint input
    let (size, input) ← readVarint input
    let (hash, input) ← readDigest code size.toNat input
    return (Cid.newV1 codec hash, input)
  else .error "Unrecognized CID version"

/-- The binary form of the CID specification. -/
scoped instance : CidCrate where
  toBytes := toBytes
  tryFrom b := (readBytes b).map Prod.fst
  readBytes := readBytes

theorem readVarint_encode (v : UInt64) (rest : Bytes) :
    readVarint (Leb128.encode v.toNat ++ rest) = .ok (v, rest) := by
  rw [readVarint, Leb128.decode_encode_append]
  simp [v.toNat_lt]

theorem readDigest_append (h : Multihash) (rest : Bytes) :
    readDigest h.code h.digest.length (h.digest ++ rest) = .ok (h, rest) := by
  rw [readDigest, ByteStream.readExact_append rfl]
  simp [h.size_le]

theorem readBytes_toBytes (c : Cid) (rest : Bytes) :
    readBytes (toBytes c ++ rest) = .ok (c, rest) := by
  obtain ⟨version, codec, hash, hwf⟩ := c
  cases version with
  | v0 =>
    -- the two bytes of the multihash header take the places of version and codec
    obtain ⟨rfl, hcode, hsize⟩ := hwf rfl
    have h₁ := readVarint_encode 0x12 (0x20 :: hash.digest ++ rest)
    have h₂ := readVarint_encode 0x20 (hash.digest ++ rest)
    rw [Leb128.encode_of_lt (by decide)] at h₁ h₂
    have hdig : readDigest 0x12 32 (hash.digest ++ rest) = .ok (hash, rest) := by
      rw [← hcode, ← hsize]
      exact readDigest_append hash rest
    change readBytes ([0x12] ++ ([0x20] ++ (hash.digest ++ rest))) = _
    rw [readBytes]
    have hone : readVarint ([0x12] ++ ([0x20] ++ (hash.digest ++ rest)))
        = .ok (0x12, [0x20] ++ (hash.digest ++ rest)) := h₁
    have htwo : readVarint ([0x20] ++ (hash.digest ++ rest)) = .ok (0x20, hash.digest ++ rest) := h₂
    simp only [hone, htwo, Except.ok_bind, and_self, if_true, hdig, Cid.newV0, hcode, hsize,
      dif_pos, Except.pure_def]
  | v1 =>
    -- four varints, each followed by the rest
    have hlen : hash.digest.length < 2 ^ 64 := lt_of_le_of_lt hash.size_le (by omega)
    have h₁ := readVarint_encode 1 (Leb128.encode codec.toNat ++ (Leb128.encode hash.code.toNat
      ++ (Leb128.encode hash.digest.length ++ (hash.digest ++ rest))))
    have h₂ := readVarint_encode codec (Leb128.encode hash.code.toNat
      ++ (Leb128.encode hash.digest.length ++ (hash.digest ++ rest)))
    have h₃ := readVarint_encode hash.code (Leb128.encode hash.digest.length
      ++ (hash.digest ++ rest))
    have h₄ := readVarint_encode (UInt64.ofNat hash.digest.length) (hash.digest ++ rest)
    rw [UInt64.toNat_ofNat_of_lt' hlen] at h₄
    have hassoc : toBytes ⟨.v1, codec, hash, hwf⟩ ++ rest
        = Leb128.encode (1 : UInt64).toNat ++ (Leb128.encode codec.toNat
          ++ (Leb128.encode hash.code.toNat ++ (Leb128.encode hash.digest.length
            ++ (hash.digest ++ rest)))) := by
      simp [toBytes]
    rw [hassoc, readBytes, h₁]
    simp only [h₂, h₃, h₄, Except.ok_bind]
    simp [readDigest_append, UInt64.toNat_ofNat_of_lt' hlen, Cid.newV1]

variable {input rest : Bytes} {c : Cid} {b k n : ℕ}

theorem readVarint_length {v : UInt64} (h : readVarint input = .ok (v, rest)) :
    (Leb128.encode v.toNat).length + rest.length ≤ input.length := by
  unfold readVarint at h
  split at h
  · next n rest' hdecode =>
    split at h
    · next hlt =>
      obtain ⟨rfl, rfl⟩ := Prod.mk.inj (Except.ok.inj h)
      rw [UInt64.toNat_ofNat_of_lt' hlt]
      exact Leb128.length_encode_le_of_decode hdecode
    · exact absurd h (by simp)
  · exact absurd h (by simp)

theorem readDigest_length {code : UInt64} {size : ℕ} {hash : Multihash}
    (h : readDigest code size input = .ok (hash, rest)) :
    hash.code = code ∧ hash.digest.length = size ∧
      hash.digest.length + rest.length = input.length := by
  unfold readDigest at h
  split at h
  · next digest rest' hread =>
    obtain ⟨hsize, rfl⟩ := ByteStream.readExact_eq_some hread
    split at h
    · obtain ⟨rfl, rfl⟩ := Prod.mk.inj (Except.ok.inj h)
      exact ⟨rfl, hsize, (List.length_append).symm⟩
    · exact absurd h (by simp)
  · exact absurd h (by simp)

theorem length_toBytes_le_of_readBytes (h : readBytes input = .ok (c, rest)) :
    (toBytes c).length + rest.length ≤ input.length := by
  unfold readBytes at h
  obtain ⟨⟨version, input₁⟩, hversion, h⟩ := Except.bind_eq_ok_iff.mp h
  obtain ⟨⟨codec, input₂⟩, hcodec, h⟩ := Except.bind_eq_ok_iff.mp h
  have h₁ := readVarint_length hversion
  have h₂ := readVarint_length hcodec
  dsimp only at h
  by_cases hv0 : version = 0x12 ∧ codec = 0x20
  · rw [if_pos hv0] at h
    obtain ⟨⟨hash, rest'⟩, hdigest, h⟩ := Except.bind_eq_ok_iff.mp h
    obtain ⟨cid, hcid, h⟩ := Except.bind_eq_ok_iff.mp h
    obtain ⟨rfl, rfl⟩ := Prod.mk.inj (Except.ok.inj h)
    obtain ⟨-, -, hlen⟩ := readDigest_length hdigest
    -- the two bytes in front were read as varints, and are the head of the hash
    have hpos := Leb128.length_encode_pos version.toNat
    have hpos' := Leb128.length_encode_pos codec.toNat
    unfold Cid.newV0 at hcid
    split at hcid
    · obtain rfl := Except.ok.inj hcid
      show hash.digest.length + 2 + rest'.length ≤ input.length
      omega
    · exact absurd hcid (by simp)
  rw [if_neg hv0] at h
  by_cases hv1 : version = 1
  · rw [if_pos hv1] at h
    obtain ⟨⟨code, input₃⟩, hcode, h⟩ := Except.bind_eq_ok_iff.mp h
    obtain ⟨⟨size, input₄⟩, hsize, h⟩ := Except.bind_eq_ok_iff.mp h
    obtain ⟨⟨hash, rest'⟩, hdigest, h⟩ := Except.bind_eq_ok_iff.mp h
    obtain ⟨rfl, rfl⟩ := Prod.mk.inj (Except.ok.inj h)
    -- every varint is written in no more bytes than it was read from
    have h₃ := readVarint_length hcode
    have h₄ := readVarint_length hsize
    obtain ⟨rfl, hdigestSize, hlen⟩ := readDigest_length hdigest
    show (Leb128.encode 1 ++ Leb128.encode codec.toNat ++ Leb128.encode hash.code.toNat
      ++ Leb128.encode hash.digest.length ++ hash.digest).length + _ ≤ _
    have hone : version.toNat = 1 := congrArg UInt64.toNat hv1
    rw [hone] at h₁
    rw [hdigestSize]
    simp only [List.length_append] at h₁ h₂ h₃ h₄ hlen ⊢
    omega
  · rw [if_neg hv1] at h
    exact absurd h (by simp)

theorem length_toBytes_le (c : Cid) : (toBytes c).length ≤ 86 := by
  have hdig := c.hash.size_le
  unfold toBytes
  split
  · simp only [List.length_cons]
    omega
  · have h₁ : (Leb128.encode 1).length ≤ 1 := Leb128.length_encode_le (k := 1) (by omega)
    have h₂ := Leb128.length_encode_le (k := 10) (n := c.codec.toNat)
      (lt_trans c.codec.toNat_lt (by omega))
    have h₃ := Leb128.length_encode_le (k := 10) (n := c.hash.code.toNat)
      (lt_trans c.hash.code.toNat_lt (by omega))
    have h₄ := Leb128.length_encode_le (k := 1) (n := c.hash.digest.length) (by omega)
    simp only [List.length_append]
    omega

theorem length_toBytes (c : Cid) : (toBytes c).length < 2 ^ 63 :=
  lt_of_le_of_lt (length_toBytes_le c) (by omega)

scoped instance : LawfulCidCrate where
  tryFrom_toBytes c := by
    have h := readBytes_toBytes c []
    rw [List.append_nil] at h
    change (readBytes (toBytes c)).map Prod.fst = .ok c
    rw [h]
    rfl
  readBytes_toBytes := readBytes_toBytes
  length_toBytes := length_toBytes

/-! ### The string form -/

/-- The alphabet of base32, lower case. -/
def base32 : List Char := "abcdefghijklmnopqrstuvwxyz234567".toList

/-- The alphabet of base58. -/
def base58 : List Char := "123456789ABCDEFGHJKLMNPQRSTUVWXYZabcdefghijkmnopqrstuvwxyz".toList

/-- The `k` lowest digits of `n` in base `b`, the most significant one first. -/
def digits (b : ℕ) : ℕ → ℕ → List ℕ
  | 0, _ => []
  | k + 1, n => digits b k (n / b) ++ [n % b]

/-- The number that digits in base `b` stand for. -/
def ofDigits (b : ℕ) (ds : List ℕ) : ℕ := ds.foldl (fun acc d => acc * b + d) 0

/-- Letters of an alphabet as digits. -/
def letters (alphabet : List Char) (cs : List Char) : Option (List ℕ) :=
  cs.mapM fun c => alphabet.findIdx? (· == c)

/-- `to_string`. -/
def toText (c : Cid) : String :=
  let bytes := toBytes c
  match c.version with
  | .v0 =>
    -- 34 bytes that start with `0x12` take 46 letters
    String.ofList ((digits 58 46 (BigEndian.decode bytes)).map fun d => base58.getD d '1')
  | .v1 =>
    let groups := (8 * bytes.length + 4) / 5
    let padded := BigEndian.decode bytes * 2 ^ (5 * groups - 8 * bytes.length)
    String.ofList ('b' :: (digits 32 groups padded).map fun d => base32.getD d 'a')

/-- `from_str`, for the two bases that `to_string` writes. -/
def fromText (s : String) : Except String Cid :=
  let cs := s.toList
  if cs.length = 46 ∧ cs.take 2 = ['Q', 'm'] then
    match letters base58 cs with
    | some ds => CidCrate.tryFrom (BigEndian.encode 34 (ofDigits 58 ds))
    | none => .error "Failed to parse multihash"
  else
    match cs with
    | 'b' :: cs =>
      match letters base32 cs with
      | some ds =>
        let len := 5 * ds.length / 8
        CidCrate.tryFrom (BigEndian.encode len (ofDigits 32 ds / 2 ^ (5 * ds.length - 8 * len)))
      | none => .error "Failed to parse multihash"
    | _ => .error "Failed to parse multihash"

scoped instance : CidText := ⟨toText, fromText⟩

theorem length_digits (b k n : ℕ) : (digits b k n).length = k := by
  induction k generalizing n with
  | zero => rfl
  | succ k ih => rw [digits, List.length_append, ih, List.length_singleton]

theorem lt_of_mem_digits (hb : 0 < b) {d : ℕ} (h : d ∈ digits b k n) : d < b := by
  induction k generalizing n with
  | zero => exact absurd h List.not_mem_nil
  | succ k ih =>
    rcases List.mem_append.mp h with h | h
    · exact ih h
    · rw [List.mem_singleton.mp h]
      exact Nat.mod_lt n hb

theorem digits_succ (b k n : ℕ) : digits b (k + 1) n = n / b ^ k % b :: digits b k n := by
  induction k generalizing n with
  | zero => simp [digits]
  | succ k ih =>
    rw [digits, ih, pow_succ', ← Nat.div_div_eq_div_mul]
    rfl

theorem digits_inj {m : ℕ} (hn : n < b ^ k) (hm : m < b ^ k) (h : digits b k n = digits b k m) :
    n = m := by
  induction k generalizing n m with
  | zero =>
    rw [pow_zero] at hn hm
    omega
  | succ k ih =>
    obtain ⟨hinit, hlast⟩ := List.append_inj' h rfl
    rw [pow_succ] at hn hm
    have hdiv := ih (Nat.div_lt_of_lt_mul (by rwa [Nat.mul_comm])) (Nat.div_lt_of_lt_mul
      (by rwa [Nat.mul_comm])) hinit
    have hmod : n % b = m % b := by simpa using hlast
    rw [← Nat.div_add_mod n b, hdiv, hmod, Nat.div_add_mod]

theorem map_letter_inj {letter : ℕ → Char}
    (hletter : ∀ d < b, ∀ d' < b, letter d = letter d' → d = d') {ds ds' : List ℕ}
    (hds : ∀ d ∈ ds, d < b) (hds' : ∀ d ∈ ds', d < b) (h : ds.map letter = ds'.map letter) :
    ds = ds' := by
  induction ds generalizing ds' with
  | nil => exact (List.map_eq_nil_iff.mp h.symm).symm
  | cons d ds ih =>
    cases ds' with
    | nil => exact absurd h (by simp)
    | cons d' ds' =>
      obtain ⟨hhead, htail⟩ := List.cons.inj h
      obtain ⟨hd, hds⟩ := List.forall_mem_cons.mp hds
      obtain ⟨hd', hds'⟩ := List.forall_mem_cons.mp hds'
      rw [hletter d hd d' hd' hhead, ih hds hds' htail]

theorem toBytes_injective : Function.Injective toBytes := by
  intro c c' h
  have hread := readBytes_toBytes c []
  rw [h, readBytes_toBytes c' []] at hread
  exact (Prod.mk.inj (Except.ok.inj hread)).1.symm

/-- The number of a version 0 CID has the leading base58 digit of the letter `Q`. -/
theorem decode_toBytes_v0 (h : c.version = .v0) :
    (toBytes c).length = 34 ∧ BigEndian.decode (toBytes c) < 24 * 58 ^ 45 := by
  obtain ⟨version, codec, hash, hwf⟩ := c
  obtain rfl : version = .v0 := h
  obtain ⟨rfl, hcode, hsize⟩ := hwf rfl
  have hlt := BigEndian.decode_lt hash.digest
  rw [hsize] at hlt
  refine ⟨congrArg (· + 2) hsize, ?_⟩
  change BigEndian.decode (0x12 :: 0x20 :: hash.digest) < _
  rw [BigEndian.decode_cons, BigEndian.decode_cons, List.length_cons, hsize]
  have hbyte : (0x12 : UInt8).toNat = 18 ∧ (0x20 : UInt8).toNat = 32 := ⟨rfl, rfl⟩
  rw [hbyte.1, hbyte.2]
  omega

theorem toText_v0 (h : c.version = .v0) :
    (toText c).toList =
      (digits 58 46 (BigEndian.decode (toBytes c))).map fun d => base58.getD d '1' := by
  unfold toText
  rw [h]
  exact String.toList_ofList

theorem toText_v1 (h : c.version = .v1) :
    (toText c).toList = 'b' :: (digits 32 ((8 * (toBytes c).length + 4) / 5)
      (BigEndian.decode (toBytes c) *
        2 ^ (5 * ((8 * (toBytes c).length + 4) / 5) - 8 * (toBytes c).length))).map
      fun d => base32.getD d 'a' := by
  unfold toText
  rw [h]
  exact String.toList_ofList

/-- The letter `b` of version 1 is none that version 0 starts with. -/
theorem toText_ne {c' : Cid} (h : c.version = .v0) (h' : c'.version = .v1) :
    toText c ≠ toText c' := by
  intro heq
  have hletters := congrArg String.toList heq
  rw [toText_v0 h, toText_v1 h', digits_succ, List.map_cons] at hletters
  have hhead := (List.cons.inj hletters).1
  have hdigit : BigEndian.decode (toBytes c) / 58 ^ 45 % 58 < 24 :=
    lt_of_le_of_lt (Nat.mod_le _ _)
      (Nat.div_lt_of_lt_mul (by rw [Nat.mul_comm]; exact (decode_toBytes_v0 h).2))
  have hnot : ∀ d < 24, base58.getD d '1' ≠ 'b' := by decide
  exact hnot _ hdigit hhead

/-- The bytes of a version 1 CID, padded to whole letters, fit in their letters. -/
theorem padded_lt (bytes : Bytes) :
    BigEndian.decode bytes * 2 ^ (5 * ((8 * bytes.length + 4) / 5) - 8 * bytes.length) <
      32 ^ ((8 * bytes.length + 4) / 5) := by
  have hlt := BigEndian.decode_lt bytes
  have hsplit : 8 * bytes.length + (5 * ((8 * bytes.length + 4) / 5) - 8 * bytes.length) =
      5 * ((8 * bytes.length + 4) / 5) := by
    omega
  calc BigEndian.decode bytes * 2 ^ (5 * ((8 * bytes.length + 4) / 5) - 8 * bytes.length)
      < 256 ^ bytes.length * 2 ^ (5 * ((8 * bytes.length + 4) / 5) - 8 * bytes.length) :=
        Nat.mul_lt_mul_of_pos_right hlt (Nat.pow_pos (by decide))
    _ = 2 ^ (8 * bytes.length) *
          2 ^ (5 * ((8 * bytes.length + 4) / 5) - 8 * bytes.length) := by
        rw [show (256 : ℕ) = 2 ^ 8 from rfl, ← pow_mul]
    _ = 32 ^ ((8 * bytes.length + 4) / 5) := by
        rw [← pow_add, hsplit, show (32 : ℕ) = 2 ^ 5 from rfl, ← pow_mul]

theorem base58_inj : ∀ d < 58, ∀ d' < 58, base58.getD d '1' = base58.getD d' '1' → d = d' := by
  decide +kernel

theorem base32_inj : ∀ d < 32, ∀ d' < 32, base32.getD d 'a' = base32.getD d' 'a' → d = d' := by
  decide +kernel

theorem toText_injective : Function.Injective toText := by
  intro c c' h
  have hletters := congrArg String.toList h
  cases hversion : c.version with
  | v0 =>
    cases hversion' : c'.version with
    | v1 => exact absurd h (toText_ne hversion hversion')
    | v0 =>
      obtain ⟨hlen, hlt⟩ := decode_toBytes_v0 hversion
      obtain ⟨hlen', hlt'⟩ := decode_toBytes_v0 hversion'
      rw [toText_v0 hversion, toText_v0 hversion'] at hletters
      have hdigits := map_letter_inj base58_inj (fun _ => lt_of_mem_digits (by decide))
        (fun _ => lt_of_mem_digits (by decide)) hletters
      have hdecode := digits_inj (by omega) (by omega) hdigits
      exact toBytes_injective (BigEndian.decode_inj (hlen.trans hlen'.symm) hdecode)
  | v1 =>
    cases hversion' : c'.version with
    | v0 => exact absurd h.symm (toText_ne hversion' hversion)
    | v1 =>
      rw [toText_v1 hversion, toText_v1 hversion'] at hletters
      have htail := (List.cons.inj hletters).2
      -- as many letters, so as many bytes
      have hlen : (toBytes c).length = (toBytes c').length := by
        have hlength := congrArg List.length htail
        rw [List.length_map, List.length_map, length_digits, length_digits] at hlength
        omega
      have hdigits := map_letter_inj base32_inj (fun _ => lt_of_mem_digits (by decide))
        (fun _ => lt_of_mem_digits (by decide)) htail
      have hpadded := padded_lt (toBytes c)
      rw [hlen] at hdigits hpadded
      have hdecode := digits_inj hpadded (padded_lt (toBytes c')) hdigits
      exact toBytes_injective (BigEndian.decode_inj hlen
        (Nat.eq_of_mul_eq_mul_right (Nat.pow_pos (by decide)) hdecode))

scoped instance : LawfulCidText := ⟨toText_injective⟩

/-- A hash crate given by the digests that SHA2-256 has on the inputs at hand. -/
@[reducible]
def hashOf (sha256 : Bytes → Bytes) (h : ∀ d, (sha256 d).length = 32) : HashCrate where
  digest
    | .sha256, d => ⟨sha256 d, h d⟩
    | a, _ => ⟨List.replicate a.hashSize 0, List.length_replicate ..⟩

theorem length_toBytes_hashOf {sha256 : Bytes → Bytes} (h : ∀ d, (sha256 d).length = 32)
    {codec : UInt64} (hcodec : codec.toNat < 0x80) (d : Bytes) :
    letI := hashOf sha256 h
    (toBytes (Cid.ofData codec .sha256 d)).length = 36 := by
  have hone : ∀ n < 0x80, (Leb128.encode n).length = 1 := by
    intro n hn
    rw [Leb128.encode_of_lt hn, List.length_singleton]
  have hdigest : ((hashOf sha256 h).digest .sha256 d).1.length = 32 := h d
  simp only [toBytes, Cid.ofData, Cid.newV1, HashAlgorithm.multihash, List.length_append, hdigest]
  rw [hone 1 (by decide), hone codec.toNat hcodec,
    hone HashAlgorithm.sha256.code.toNat (by decide), hone 32 (by decide)]

/-- The SHA2-256 digests of the single bytes 0, 1 and 2. -/
def byteDigest (data : Bytes) : Bytes :=
  if data = [0] then
    BigEndian.encode 32 0x6e340b9cffb37a989ca544e6bb780a2c78901d3fb33738768511a30617afa01d
  else if data = [1] then
    BigEndian.encode 32 0x4bf5122f344554c53bde2ebb8cd2b7e3d1600ad631c385a5d7cce23c7785459a
  else
    BigEndian.encode 32 0xdbc1b4c900ffe48d575b5da5c638040125f65db0fe3e24494b76ea986457d986

theorem length_byteDigest (data : Bytes) : (byteDigest data).length = 32 := by
  unfold byteDigest
  split
  · rfl
  · split <;> rfl

/-- The hash crate on these three inputs. -/
@[reducible]
def byteHash : HashCrate := hashOf byteDigest length_byteDigest

end Ipfrs.CidReference
