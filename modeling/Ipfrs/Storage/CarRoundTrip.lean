import Ipfrs.Core.CarRoundTrip
import Ipfrs.Storage.Car

/-!
# Reading back a CAR file of the storage crate

The file that a writer makes is a varint length and the header, followed by one `carRecord` for each
block. The reader takes it apart from the front, and its position is always the end of what it has
taken: every lemma on a reader is about the input as an append, and names what is left of it.

* `readCborRoots_append`, `fromCbor_toCbor` — the header, with its three widths of lengths;
* `readBlock_carRecord` — one record, whatever follows it: the CID is a prefix of the record that
  delimits itself, so its length need not be stored;
* `returns_carRecords` — all records, by induction on them, with the two counters of the reader;
* `car_roundTrip` — the whole file, and the counters of the two sides beside the length of it.
-/

namespace Ipfrs.Storage

/-- What the CID crate documents of its binary form, as far as a CAR file relies on it: a CID is
parsed from the front of longer bytes, and it takes fewer than `65536` of them. -/
class PrefixCidCrate [CidCrate] : Prop where
  tryFrom_append : ∀ c rest, CidCrate.tryFrom (CidCrate.toBytes c ++ rest) = .ok c
  length_toBytes_lt : ∀ c, (CidCrate.toBytes c).length < 65536

/-! ### Varints -/

theorem encodeVarint_eq (v : UInt64) : encodeVarint v = Leb128.encode v.toNat := by
  induction hn : v.toNat using Nat.strongRecOn generalizing v with
  | ind n ih =>
    subst hn
    have hge : v ≥ 0x80 ↔ 128 ≤ v.toNat := UInt64.le_iff_toNat_le
    have hbyte : v.toUInt8.toNat = v.toNat % 256 := UInt64.toNat_toUInt8 v
    rw [encodeVarint]
    by_cases h : 128 ≤ v.toNat
    · have hrest : encodeVarint (v >>> 7) = Leb128.encode (v.toNat / 128) :=
        ih _ (by omega) _ (toNat_shr7 v)
      -- the top bit is set on top of the low seven, whatever it was
      have hset : v.toUInt8 ||| 0x80 = UInt8.ofNat (v.toNat % 128 + 128) := by
        have hor : ∀ n : Fin 256, UInt8.ofNat n.val ||| 0x80 = UInt8.ofNat (n.val % 128 + 128) := by
          decide +kernel
        have hv : UInt8.ofNat v.toUInt8.toNat ||| 0x80 =
            UInt8.ofNat (v.toUInt8.toNat % 128 + 128) :=
          hor ⟨v.toUInt8.toNat, v.toUInt8.toNat_lt⟩
        rw [UInt8.ofNat_toNat, hbyte] at hv
        rw [hv]
        congr 1
        omega
      rw [dif_pos (hge.mpr h), hset, Leb128.encode_of_le h, ← hrest]
    · have hlast : v.toUInt8 = UInt8.ofNat v.toNat := by
        apply UInt8.toNat_inj.mp
        rw [hbyte, UInt8.toNat_ofNat']
      rw [dif_neg (fun h' => h (hge.mp h')), hlast, Leb128.encode_of_lt (by omega)]

variable {rounds n : ℕ}

/-- What the varint reader of the core crate reads from a stream, `decode_varint` reads from the
same bytes. -/
theorem decodeVarintLoop_of_readVarintLoop {shift i : ℕ} {result v : UInt64} {bs : Bytes}
    (h : readVarintLoop rounds result shift bs = .ok (some v, [])) :
    decodeVarintLoop result shift i bs = .ok (v, i + bs.length) := by
  induction bs generalizing rounds shift i result with
  | nil =>
    -- the end of the stream gives no number
    cases rounds with
    | zero => exact absurd h (by simp [readVarintLoop])
    | succ rounds =>
      rw [readVarintLoop] at h
      split at h
      · exact absurd h (by simp)
      · exact absurd h (by simp [unexpectedEof])
  | cons b bs ih =>
    cases rounds with
    | zero => exact absurd h (by simp [readVarintLoop])
    | succ rounds =>
      rw [readVarintLoop] at h
      rw [decodeVarintLoop]
      dsimp only at h ⊢
      split at h
      · next hlast =>
        obtain ⟨hv, rfl⟩ := Prod.mk.inj (Except.ok.inj h)
        rw [if_pos hlast, Option.some.inj hv]
        rfl
      · next hmore =>
        rw [if_neg hmore]
        split at h
        · exact absurd h (by simp)
        · next hroom =>
          rw [if_neg hroom, ih h, List.length_cons]
          congr 2
          omega

/-- **A varint decodes to itself**, and all of it is used. -/
theorem decodeVarint_encodeVarint (v : UInt64) :
    decodeVarint (encodeVarint v) = .ok (v, (encodeVarint v).length) := by
  have hread := readVarintOpt_writeVarint v []
  rw [List.append_nil, writeVarint_eq, ← encodeVarint_eq, readVarintOpt] at hread
  rw [decodeVarint, decodeVarintLoop_of_readVarintLoop hread, Nat.zero_add]

theorem length_encodeVarint_le (v : UInt64) : (encodeVarint v).length ≤ 10 := by
  rw [encodeVarint_eq]
  exact Leb128.length_encode_le (k := 10) (lt_trans v.toNat_lt (by decide))

theorem byte_last_iff_of_lt (h : n < 256) : UInt8.ofNat n &&& 0x80 = 0 ↔ n < 128 := by
  rw [byte_last_iff, UInt8.toNat_ofNat_of_lt' h]

/-- The buffer for the header length is filled with the varint, and nothing behind it is read. -/
theorem readHeaderLen_encode (h : (Leb128.encode n).length ≤ rounds) (rest : Bytes) :
    CarReader.readHeaderLen rounds (Leb128.encode n ++ rest) = .ok (Leb128.encode n, rest) := by
  induction rounds generalizing n with
  | zero =>
    have hnil : Leb128.encode n = [] := List.eq_nil_of_length_eq_zero (Nat.le_zero.mp h)
    rw [hnil]
    rfl
  | succ rounds ih =>
    by_cases hn : n < 128
    · rw [Leb128.encode_of_lt hn, List.singleton_append, CarReader.readHeaderLen,
        if_pos ((byte_last_iff_of_lt (by omega)).mpr hn)]
    · rw [Leb128.encode_of_le (Nat.not_lt.mp hn)] at h ⊢
      rw [List.cons_append, CarReader.readHeaderLen,
        if_neg (fun h' => absurd ((byte_last_iff_of_lt (by omega)).mp h') (by omega)),
        ih (Nat.le_of_succ_le_succ h)]
      rfl

theorem readBlockLen_encode (h : (Leb128.encode n).length ≤ rounds) (rest : Bytes) :
    CarReader.readBlockLen rounds (Leb128.encode n ++ rest)
      = .ok (some (Leb128.encode n, rest)) := by
  induction rounds generalizing n with
  | zero =>
    have hnil : Leb128.encode n = [] := List.eq_nil_of_length_eq_zero (Nat.le_zero.mp h)
    rw [hnil]
    rfl
  | succ rounds ih =>
    by_cases hn : n < 128
    · rw [Leb128.encode_of_lt hn, List.singleton_append, CarReader.readBlockLen,
        if_pos ((byte_last_iff_of_lt (by omega)).mpr hn)]
    · rw [Leb128.encode_of_le (Nat.not_lt.mp hn)] at h ⊢
      rw [List.cons_append, CarReader.readBlockLen,
        if_neg (fun h' => absurd ((byte_last_iff_of_lt (by omega)).mp h') (by omega)),
        ih (Nat.le_of_succ_le_succ h)]
      rfl

/-! ### The heads of the header -/

theorem readCborLen_small {m : ℕ} (hm : m < 8) (hn : n < 24) (rest : Bytes) :
    readCborLen (UInt8.ofNat (32 * m + n) :: rest) = .ok (n, 1) ∧
      UInt8.ofNat (32 * m + n) >>> 5 = UInt8.ofNat m := by
  have hbits : ∀ (m : Fin 8) (k : Fin 24),
      UInt8.ofNat (32 * m.val + k.val) &&& 0x1f = UInt8.ofNat k.val ∧
        UInt8.ofNat (32 * m.val + k.val) >>> 5 = UInt8.ofNat m.val := by
    decide +kernel
  obtain ⟨hlow, hhigh⟩ := hbits ⟨m, hm⟩ ⟨n, hn⟩
  have hnat : (UInt8.ofNat n).toNat = n := UInt8.toNat_ofNat_of_lt' (show n < 256 by omega)
  have hle : UInt8.ofNat n ≤ 23 := by
    rw [UInt8.le_iff_toNat_le, hnat]
    exact Nat.le_of_lt_succ hn
  refine ⟨?_, hhigh⟩
  show (let additional := UInt8.ofNat (32 * m + n) &&& 0x1f
    if additional ≤ 23 then Except.ok (additional.toNat, 1) else _) = _
  dsimp only
  rw [show UInt8.ofNat (32 * m + n) &&& 0x1f = UInt8.ofNat n from hlow, if_pos hle, hnat]

theorem readCborLenBytes_append {k : ℕ} {b : Bytes} (h : b.length = k) (rest : Bytes) :
    readCborLenBytes k (b ++ rest) = .ok (BigEndian.decode b, k + 1) := by
  rw [readCborLenBytes, ByteStream.readExact_append h]

/-- **The length of a byte string** reads back in each of the three widths. -/
theorem readCborLen_cborBytesHeader (hn : n < 65536) (rest : Bytes) :
    ∃ b tail, cborBytesHeader n ++ rest = b :: tail ∧ b >>> 5 = 2 ∧
      readCborLen (b :: tail) = .ok (n, (cborBytesHeader n).length) := by
  rw [cborBytesHeader]
  split
  · next h =>
    -- in the first byte
    have hor : ∀ k : Fin 24, 0x40 ||| UInt8.ofNat k.val = UInt8.ofNat (32 * 2 + k.val) := by
      decide +kernel
    obtain ⟨hlen, hmajor⟩ := readCborLen_small (m := 2) (by decide) h rest
    refine ⟨_, _, rfl, ?_, ?_⟩
    · rw [show (0x40 : UInt8) ||| UInt8.ofNat n = _ from hor ⟨n, h⟩]
      exact hmajor
    · rw [show (0x40 : UInt8) ||| UInt8.ofNat n = _ from hor ⟨n, h⟩]
      exact hlen
  · split
    · next h =>
      -- in one more byte
      refine ⟨_, _, rfl, by decide, ?_⟩
      have hread := readCborLenBytes_append (b := [UInt8.ofNat n]) rfl rest
      have hdecode : BigEndian.decode [UInt8.ofNat n] = n := by
        show 0 * 256 + (UInt8.ofNat n).toNat = n
        rw [UInt8.toNat_ofNat_of_lt' h, Nat.zero_mul, Nat.zero_add]
      rw [hdecode] at hread
      exact hread
    · -- in two more bytes
      refine ⟨_, _, rfl, by decide, ?_⟩
      have hread := readCborLenBytes_append (BigEndian.length_encode 2 n) rest
      rw [BigEndian.decode_encode_of_lt (by omega)] at hread
      exact hread

/-! ### The roots -/

/-- What `to_cbor` pushes for the length of the array. -/
def cborArrayHeader (n : ℕ) : Bytes :=
  if n < 24 then [0x80 ||| UInt8.ofNat n] else [0x98, UInt8.ofNat n]

/-- The length of the array reads back in each of the two widths. -/
theorem readCborLen_cborArrayHeader (hn : n < 256) (rest : Bytes) :
    ∃ b tail, cborArrayHeader n ++ rest = b :: tail ∧ b >>> 5 = 4 ∧
      readCborLen (b :: tail) = .ok (n, (cborArrayHeader n).length) := by
  rw [cborArrayHeader]
  split
  · next h =>
    have hor : ∀ k : Fin 24, 0x80 ||| UInt8.ofNat k.val = UInt8.ofNat (32 * 4 + k.val) := by
      decide +kernel
    obtain ⟨hlen, hmajor⟩ := readCborLen_small (m := 4) (by decide) h rest
    refine ⟨_, _, rfl, ?_, ?_⟩
    · rw [show (0x80 : UInt8) ||| UInt8.ofNat n = _ from hor ⟨n, h⟩]
      exact hmajor
    · rw [show (0x80 : UInt8) ||| UInt8.ofNat n = _ from hor ⟨n, h⟩]
      exact hlen
  · refine ⟨_, _, rfl, by decide, ?_⟩
    have hread := readCborLenBytes_append (b := [UInt8.ofNat n]) rfl rest
    have hdecode : BigEndian.decode [UInt8.ofNat n] = n := by
      show 0 * 256 + (UInt8.ofNat n).toNat = n
      rw [UInt8.toNat_ofNat_of_lt' hn, Nat.zero_mul, Nat.zero_add]
    rw [hdecode] at hread
    exact hread

section Header

variable [CidCrate] [PrefixCidCrate]

theorem tryFrom_toBytes (c : Cid) : CidCrate.tryFrom (CidCrate.toBytes c) = .ok c := by
  have h := PrefixCidCrate.tryFrom_append c []
  rwa [List.append_nil] at h

variable {data rest : Bytes} {pos : ℕ} {cids roots : List Cid} {r : CarReader} {blocks : List Block}

/-- **One root**, at any position. -/
theorem readCborRoot_append {c : Cid} (h : data.drop pos = cborRoot c ++ rest) :
    readCborRoot data pos = .ok (c, pos + (cborRoot c).length) := by
  obtain ⟨b, tail, hhead, hmajor, hlen⟩ :=
    readCborLen_cborBytesHeader (PrefixCidCrate.length_toBytes_lt c) (CidCrate.toBytes c ++ rest)
  have htag : data.drop pos = 0xd8 :: 0x2a :: (cborBytesHeader (CidCrate.toBytes c).length
      ++ (CidCrate.toBytes c ++ rest)) := by
    rw [h, cborRoot]
    simp
  -- behind the tag
  have hstring : data.drop (pos + 2) = b :: tail := by
    rw [← List.drop_drop, htag, ← hhead]
    rfl
  -- behind the head of the byte string
  have hbytes : data.drop (pos + 2 + (cborBytesHeader (CidCrate.toBytes c).length).length)
      = CidCrate.toBytes c ++ rest := by
    rw [← List.drop_drop, hstring, ← hhead, List.drop_left]
  have hfirst : data[pos]? = some 0xd8 := by
    rw [← List.head?_drop, htag]
    rfl
  have hfits : ¬ pos + 2 + (cborBytesHeader (CidCrate.toBytes c).length).length
      + (CidCrate.toBytes c).length > data.length := by
    have hcount := congrArg List.length hhead
    have hpos := congrArg List.length hstring
    simp only [List.length_drop, List.length_append, List.length_cons] at hcount hpos
    omega
  rw [readCborRoot]
  dsimp only
  rw [if_pos hfirst, hstring]
  dsimp only
  rw [if_neg (not_not.mpr hmajor), hlen]
  simp only [Except.ok_bind]
  rw [if_neg hfits, hbytes, List.take_left, tryFrom_toBytes]
  show Except.ok _ = Except.ok _
  congr 2
  rw [cborRoot]
  simp only [List.length_cons, List.length_append]
  omega

/-- **All roots**, by induction on them: the position is always the end of the last one. -/
theorem readCborRootsLoop_append {acc : List Cid}
    (h : data.drop pos = (cids.map cborRoot).flatten ++ rest) :
    readCborRootsLoop data cids.length pos acc
      = .ok (acc ++ cids, pos + ((cids.map cborRoot).flatten).length) := by
  induction cids generalizing pos acc with
  | nil =>
    rw [List.append_nil]
    rfl
  | cons c cids ih =>
    rw [List.map_cons, List.flatten_cons, List.append_assoc] at h
    have hrest : data.drop (pos + (cborRoot c).length)
        = (cids.map cborRoot).flatten ++ rest := by
      rw [← List.drop_drop, h, List.drop_left]
    rw [List.length_cons, readCborRootsLoop, readCborRoot_append h, Except.ok_bind]
    dsimp only
    rw [ih hrest, List.append_assoc, List.singleton_append, List.map_cons, List.flatten_cons,
      List.length_append, Nat.add_assoc]

theorem readCborRoots_append (hcount : cids.length < 256) (rest : Bytes) :
    readCborRoots (cborArrayHeader cids.length ++ ((cids.map cborRoot).flatten ++ rest))
      = .ok (cids, (cborArrayHeader cids.length).length
          + ((cids.map cborRoot).flatten).length) := by
  obtain ⟨b, tail, hhead, hmajor, hlen⟩ := readCborLen_cborArrayHeader hcount
    ((cids.map cborRoot).flatten ++ rest)
  have hitems : (b :: tail).drop (cborArrayHeader cids.length).length
      = (cids.map cborRoot).flatten ++ rest := by
    rw [← hhead, List.drop_left]
  rw [hhead, readCborRoots]
  dsimp only
  rw [if_neg (not_not.mpr hmajor), hlen, Except.ok_bind]
  dsimp only
  rw [readCborRootsLoop_append hitems, List.nil_append]

/-! ### The header -/

/-- The bytes of the header in front of the array: the map, the version and the key of the roots. -/
def cborStart : Bytes := 0xa2 :: 0x67 :: (versionKey ++ 0x01 :: 0x65 :: rootsKey)

omit [PrefixCidCrate] in
theorem toCbor_eq (h : roots.length < 256) :
    (CarHeader.new roots).toCbor = .ok (cborStart ++ (cborArrayHeader roots.length
      ++ (roots.map cborRoot).flatten)) := by
  show (if roots.length < 24 then Except.ok (cborStart ++ _) else
    if roots.length < 256 then Except.ok (cborStart ++ _) else _) = _
  rw [cborArrayHeader]
  split
  · rfl
  · rfl

omit [CidCrate] [PrefixCidCrate] in
theorem readCborText_append {n : ℕ} {s : String} (hn : n < 24) (hs : (utf8 s).length = n)
    (rest : Bytes) :
    readCborText (UInt8.ofNat (32 * 3 + n) :: (utf8 s ++ rest)) = .ok (s, n + 1) := by
  obtain ⟨hlen, hmajor⟩ := readCborLen_small (m := 3) (by decide) hn (utf8 s ++ rest)
  have hfits : ¬ (UInt8.ofNat (32 * 3 + n) :: (utf8 s ++ rest)).length < 1 + n := by
    rw [List.length_cons, List.length_append, hs]
    omega
  rw [readCborText]
  dsimp only
  rw [if_neg (not_not.mpr (show UInt8.ofNat (32 * 3 + n) >>> 5 = 3 from hmajor)), hlen,
    Except.ok_bind]
  dsimp only
  rw [if_neg hfits, List.drop_one, List.tail_cons, List.take_left' hs, fromUtf8_utf8]
  dsimp only
  rw [Nat.add_comm]
  rfl

/-- **The header reads back**: the version is skipped over in a fixed place, and the roots are the
array behind it. -/
theorem fromCbor_toCbor (hroots : roots.length < 256) :
    CarHeader.fromCbor (cborStart ++ (cborArrayHeader roots.length
      ++ (roots.map cborRoot).flatten)) = .ok (CarHeader.new roots) := by
  set items := cborArrayHeader roots.length ++ (roots.map cborRoot).flatten with hitems
  have hversionKey := readCborText_append (n := 7) (s := "version") (by decide) rfl
    (0x01 :: 0x65 :: (rootsKey ++ items))
  have hrootsKey := readCborText_append (n := 5) (s := "roots") (by decide) rfl items
  have hone := (readCborLen_small (m := 0) (n := 1) (by decide) (by decide)
    (0x65 :: (rootsKey ++ items))).1
  have huint : readCborUint (0x01 :: 0x65 :: (rootsKey ++ items)) = .ok (1, 1) := by
    rw [readCborUint]
    dsimp only
    rw [if_neg (by decide), show (0x01 : UInt8) = UInt8.ofNat (32 * 0 + 1) from rfl, hone]
    rfl
  have harray := readCborRoots_append hroots []
  rw [List.append_nil] at harray
  -- the three slices are at fixed positions, whatever the roots are
  show CarHeader.fromCborLoop (cborStart ++ items) 2 1 ⟨1, []⟩ = _
  have hslice : ∀ pos ≤ cborStart.length, sliceFrom (cborStart ++ items) pos
      = .ok (cborStart.drop pos ++ items) := by
    intro pos hpos
    have hle : pos ≤ (cborStart ++ items).length := by
      rw [List.length_append]
      exact Nat.le_add_right_of_le hpos
    rw [sliceFrom, if_pos hle, List.drop_append_of_le_length hpos]
  have hslice₁ : cborStart.drop 1 ++ items
      = UInt8.ofNat (32 * 3 + 7) :: (utf8 "version" ++ 0x01 :: 0x65 :: (rootsKey ++ items)) := rfl
  have hslice₁₀ : cborStart.drop 10 ++ items
      = UInt8.ofNat (32 * 3 + 5) :: (utf8 "roots" ++ items) := rfl
  have hdrop : (cborStart ++ items).drop (1 + 8) = 0x01 :: 0x65 :: (rootsKey ++ items) := rfl
  have hmore : ¬ 1 + 8 ≥ (cborStart ++ items).length := by
    rw [List.length_append, show cborStart.length = 16 from rfl]
    omega
  -- the first entry is the version
  rw [CarHeader.fromCborLoop, hslice 1 (by decide), hslice₁, Except.ok_bind, hversionKey]
  simp only [liftResult, Except.ok_bind]
  rw [if_pos trivial, if_neg hmore, hdrop, huint]
  dsimp only [Except.ok_bind]
  -- the second entry is the roots
  rw [CarHeader.fromCborLoop, hslice 10 (by decide), hslice₁₀, Except.ok_bind, hrootsKey]
  simp only [liftResult, Except.ok_bind]
  rw [if_neg (by decide), if_pos trivial, hslice 16 (by decide)]
  dsimp only [Except.ok_bind]
  rw [show cborStart.drop 16 ++ items = items from rfl, harray]
  rfl

/-! ### Records -/

omit [PrefixCidCrate] in
/-- The bytes that the writer adds for a block. -/
def carRecord (b : Block) : Bytes :=
  encodeVarint (UInt64.ofNat ((CidCrate.toBytes b.cid).length + b.data.length))
    ++ (CidCrate.toBytes b.cid ++ b.data)

/-- **One record**, whatever follows it. The reader counts what the writer has counted. -/
theorem readBlock_carRecord {b : Block} (hdata : b.data.length < 2 ^ 63)
    (h : r.reader = carRecord b ++ rest) :
    r.readBlock = .ok (some b, { r with
      reader := rest
      blocksRead := r.blocksRead + 1
      bytesRead := r.bytesRead + (carRecord b).length }) := by
  set body := CidCrate.toBytes b.cid ++ b.data with hbody
  set v := UInt64.ofNat ((CidCrate.toBytes b.cid).length + b.data.length) with hv
  have hlen : v.toNat = body.length := by
    have hcid := PrefixCidCrate.length_toBytes_lt b.cid
    rw [hv, hbody, List.length_append]
    exact UInt64.toNat_ofNat_of_lt' (show _ < 2 ^ 64 by omega)
  have hrecord : carRecord b = encodeVarint v ++ body := rfl
  have hvarint :
      CarReader.readBlockLen 10 r.reader = .ok (some (encodeVarint v, body ++ rest)) := by
    have hle := length_encodeVarint_le v
    rw [h, hrecord, List.append_assoc]
    rw [encodeVarint_eq] at hle ⊢
    exact readBlockLen_encode hle _
  have hbuffer : CarReader.readBuffer "block data" v.toNat (body ++ rest) = .ok (body, rest) := by
    rw [CarReader.readBuffer, hlen, ByteStream.readExact_append rfl]
  -- the CID is parsed from the front, and writing it again says where the data starts
  have hparse : CarReader.parseRecord body = .ok b := by
    have hslice : sliceFrom body (CidCrate.toBytes b.cid).length = .ok b.data := by
      rw [sliceFrom, if_pos (by rw [hbody, List.length_append]; exact Nat.le_add_right _ _), hbody,
        List.drop_left]
    rw [CarReader.parseRecord, hbody, PrefixCidCrate.tryFrom_append, ← hbody]
    simp only [Except.mapError, liftResult, Except.ok_bind, hslice]
    rfl
  rw [CarReader.readBlock, hvarint]
  simp only [liftResult, Except.ok_bind, decodeVarint_encodeVarint, hbuffer, hparse]
  rw [hrecord, List.length_append, hlen]
  rfl

/-- **All records**, up to the end of the file, by induction on them. -/
theorem returns_carRecords (hdata : ∀ b ∈ blocks, b.data.length < 2 ^ 63)
    (h : r.reader = (blocks.map carRecord).flatten) (acc : List Block) :
    WhileLoop.Returns CarReader.readAllStep (acc, r) (.ok (acc ++ blocks, { r with
      reader := []
      blocksRead := r.blocksRead + blocks.length
      bytesRead := r.bytesRead + ((blocks.map carRecord).flatten).length })) := by
  induction blocks generalizing r acc with
  | nil =>
    -- no record is left: the end of the file
    obtain ⟨reader, header, blocksRead, bytesRead⟩ := r
    obtain rfl : reader = [] := h
    apply WhileLoop.Returns.of_done
    rw [List.append_nil]
    rfl
  | cons b blocks ih =>
    have hread := readBlock_carRecord (hdata b List.mem_cons_self) h
    have hrest := ih (r := { r with
      reader := (blocks.map carRecord).flatten
      blocksRead := r.blocksRead + 1
      bytesRead := r.bytesRead + (carRecord b).length })
      (fun b hb => hdata b (List.mem_cons_of_mem _ hb)) rfl (acc ++ [b])
    rw [List.append_assoc, List.singleton_append] at hrest
    refine .of_next (by rw [CarReader.readAllStep, hread]) ?_
    rw [List.map_cons, List.flatten_cons, List.length_append, List.length_cons]
    rw [show r.blocksRead + (blocks.length + 1) = r.blocksRead + 1 + blocks.length by omega,
      ← Nat.add_assoc]
    exact hrest

omit [PrefixCidCrate] in
/-- The writer adds the records one after the other, and counts their bytes. -/
theorem foldl_writeBlock (w : CarWriter) :
    blocks.foldl CarWriter.writeBlock w
      = ⟨w.writer ++ (blocks.map carRecord).flatten, w.blocksWritten + blocks.length,
          w.bytesWritten + ((blocks.map carRecord).flatten).length⟩ := by
  induction blocks generalizing w with
  | nil =>
    show w = ⟨w.writer ++ [], _, _⟩
    rw [List.append_nil]
    rfl
  | cons b blocks ih =>
    rw [List.foldl_cons, ih]
    simp only [CarWriter.writeBlock, List.map_cons, List.flatten_cons, carRecord,
      List.length_append, List.length_cons, List.append_assoc, CarWriter.mk.injEq, true_and]
    omega

/-! ### Whole files -/

/-- A header is not so long that the cast of its length to `u64` could matter. -/
theorem length_cborRoots_le (roots : List Cid) :
    ((roots.map cborRoot).flatten).length ≤ 65541 * roots.length := by
  induction roots with
  | nil => exact Nat.le_refl 0
  | cons c roots ih =>
    have hcid := PrefixCidCrate.length_toBytes_lt c
    have hhead : (cborBytesHeader (CidCrate.toBytes c).length).length ≤ 3 := by
      rw [cborBytesHeader]
      split
      · exact Nat.le_of_ble_eq_true rfl
      · split
        · exact Nat.le_of_ble_eq_true rfl
        · rw [List.length_cons, BigEndian.length_encode]
    rw [List.map_cons, List.flatten_cons, List.length_append, List.length_cons, cborRoot]
    simp only [List.length_cons, List.length_append]
    omega

theorem open_header (hroots : roots.length < 256) {header : Bytes}
    (hheader : (CarHeader.new roots).toCbor = .ok header) (rest : Bytes) :
    CarReader.open (encodeVarint (UInt64.ofNat header.length) ++ (header ++ rest))
      = .ok ⟨rest, CarHeader.new roots, 0,
          (encodeVarint (UInt64.ofNat header.length)).length + header.length⟩ := by
  rw [toCbor_eq hroots] at hheader
  have hdecode := fromCbor_toCbor hroots
  -- the length of the header fits in its varint
  have hshort : header.length < 2 ^ 64 := by
    have hitems := length_cborRoots_le roots
    have harray : (cborArrayHeader roots.length).length ≤ 2 := by
      rw [cborArrayHeader]
      split
      · exact Nat.le_of_ble_eq_true rfl
      · exact Nat.le_refl 2
    rw [← Except.ok.inj hheader, List.length_append, List.length_append,
      show cborStart.length = 16 from rfl]
    omega
  rw [Except.ok.inj hheader] at hdecode
  set v := UInt64.ofNat header.length with hv
  have hlen : v.toNat = header.length := UInt64.toNat_ofNat_of_lt' hshort
  have hvarint : CarReader.readHeaderLen 10 (encodeVarint v ++ (header ++ rest))
      = .ok (encodeVarint v, header ++ rest) := by
    have hle := length_encodeVarint_le v
    rw [encodeVarint_eq] at hle ⊢
    exact readHeaderLen_encode hle _
  have hbuffer : CarReader.readBuffer "header" header.length (header ++ rest)
      = .ok (header, rest) := by
    rw [CarReader.readBuffer, ByteStream.readExact_append rfl]
  rw [CarReader.open, hvarint]
  simp only [liftResult, Except.ok_bind, decodeVarint_encodeVarint, hbuffer, hdecode, hlen]
  rfl

/-- **CAR round trip of the storage crate.** For every list of fewer than 256 roots and every list
of blocks, with any CIDs and any data (a `Bytes` has at most `isize::MAX` bytes): the writer makes a
file, the reader opens it with the same roots, returns the same blocks in order and then the end of
the file, again and again; and both count the blocks and the bytes of the file. -/
theorem car_roundTrip (hroots : roots.length < 256) (hdata : ∀ b ∈ blocks, b.data.length < 2 ^ 63) :
    ∃ w file r r', CarWriter.create roots = .ok w ∧
      (blocks.foldl CarWriter.writeBlock w).finish = (file, ⟨blocks.length, file.length⟩) ∧
      CarReader.open file = .ok r ∧ r.roots = roots ∧
      WhileLoop.Returns CarReader.readAllStep ([], r) (.ok (blocks, r')) ∧
      r'.readBlock = .ok (none, r') ∧ r'.stats = ⟨blocks.length, file.length⟩ := by
  obtain ⟨header, hheader⟩ : ∃ header, (CarHeader.new roots).toCbor = .ok header :=
    ⟨_, toCbor_eq hroots⟩
  set prefixed := encodeVarint (UInt64.ofNat header.length) ++ header with hprefixed
  set records := (blocks.map carRecord).flatten with hrecords
  have hopen := open_header hroots hheader records
  rw [← List.append_assoc, ← List.length_append, ← hprefixed] at hopen
  have hcreate : CarWriter.create roots = .ok ⟨prefixed, 0, prefixed.length⟩ := by
    rw [CarWriter.create, hheader, hprefixed, List.length_append]
    rfl
  have hread := returns_carRecords (r := ⟨records, CarHeader.new roots, 0, prefixed.length⟩) hdata
    rfl []
  have hcount : (prefixed ++ records).length = prefixed.length + records.length :=
    List.length_append
  refine ⟨⟨prefixed, 0, prefixed.length⟩, prefixed ++ records, _, _, hcreate, ?_, hopen, rfl, hread,
    rfl, ?_⟩
  · -- the writer has counted the header and every record
    rw [foldl_writeBlock, CarWriter.finish, CarWriter.stats, hcount]
    show (_, (⟨0 + blocks.length, _⟩ : CarWriteStats)) = _
    rw [Nat.zero_add]
  · -- and so has the reader
    show (⟨0 + blocks.length, prefixed.length + records.length⟩ : CarReadStats) = _
    rw [hcount, Nat.zero_add]

end Header

section Sample

open scoped CidReference

theorem prefixCidCrate_reference : PrefixCidCrate where
  tryFrom_append c rest := by
    show (CidReference.readBytes (CidReference.toBytes c ++ rest)).map Prod.fst = _
    rw [CidReference.readBytes_toBytes]
    rfl
  length_toBytes_lt c := lt_of_le_of_lt (CidReference.length_toBytes_le c) (by omega)

/-- One root, a block whose CID says nothing about its data, and an empty block. -/
theorem car_roundTrip_two :
    letI := CidReference.byteHash
    let c := Cid.ofData Codec.raw .sha256 [1]
    let blocks : List Block := [⟨c, [7, 8, 9]⟩, ⟨c, []⟩]
    ∃ w file r r', CarWriter.create [c] = .ok w ∧
      (blocks.foldl CarWriter.writeBlock w).finish = (file, ⟨2, file.length⟩) ∧
      CarReader.open file = .ok r ∧ r.roots = [c] ∧
      WhileLoop.Returns CarReader.readAllStep ([], r) (.ok (blocks, r')) ∧
      r'.readBlock = .ok (none, r') ∧ r'.stats = ⟨2, file.length⟩ := by
  let := CidReference.byteHash
  have := prefixCidCrate_reference
  intro c blocks
  have hroots : [c].length < 256 := by decide
  have hdata : ∀ b ∈ blocks, b.data.length < 2 ^ 63 := by decide
  exact car_roundTrip hroots hdata

end Sample

end Ipfrs.Storage
