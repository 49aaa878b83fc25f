import Ipfrs.Core.Car
import Ipfrs.Core.DagCborRoundTrip

/-!
# Reading back a CAR archive

An archive written without compression is the header followed by one `carSection` for each block
(`carArchive_eq`), and the reader takes it apart the same way. It then makes every block anew with
`Block::new`, which is the block that was written only when that one was a raw SHA2-256 block too.

* `readVarintOpt_writeVarint` — varints read back and delimit themselves.
* `readBlock_section` — one section, whatever follows it.
* `returns_framed_iff` — all sections of an archive, whatever is in them.
* `car_roundTrip_iff` — an archive reads back exactly when all its blocks are version 1, raw and
  SHA2-256.
-/

namespace Ipfrs

/-! ### Varints -/

variable (v : UInt64)

theorem toNat_low7 : ((v &&& 0x7f).toUInt8).toNat = v.toNat % 128 := by
  have h : (v &&& 0x7f).toNat = v.toNat % 128 := by
    rw [UInt64.toNat_and]
    exact Nat.and_two_pow_sub_one_eq_mod v.toNat 7
  rw [UInt64.toNat_toUInt8, h]
  omega

theorem toNat_shr7 : (v >>> 7).toNat = v.toNat / 128 := by
  simp [UInt64.toNat_shiftRight, Nat.shiftRight_eq_div_pow]

theorem byte_halves : ∀ n : Fin 256, let b := UInt8.ofNat n.val
    (b &&& 0x7f).toNat = n.val % 128 ∧ (b &&& 0x80 = 0 ↔ n.val < 128) ∧
      (n.val < 128 → b ||| 0x80 = UInt8.ofNat (n.val + 128)) := by
  decide +kernel

theorem byte_payload (b : UInt8) : (b &&& 0x7f).toUInt64.toNat = b.toNat % 128 := by
  have h := (byte_halves ⟨b.toNat, b.toNat_lt⟩).1
  simpa using h

theorem byte_last_iff (b : UInt8) : b &&& 0x80 = 0 ↔ b.toNat < 128 := by
  have h := (byte_halves ⟨b.toNat, b.toNat_lt⟩).2.1
  simpa using h

theorem byte_continue {b : UInt8} (h : b.toNat < 128) :
    b ||| 0x80 = UInt8.ofNat (b.toNat + 128) := by
  have h' := (byte_halves ⟨b.toNat, b.toNat_lt⟩).2.2
  simpa using h' h

theorem writeVarint_eq : writeVarint v = Leb128.encode v.toNat := by
  induction hn : v.toNat using Nat.strongRecOn generalizing v with
  | ind n ih =>
    subst hn
    have hbyte : (v &&& 0x7f).toUInt8 = UInt8.ofNat (v.toNat % 128) := by
      rw [← toNat_low7, UInt8.ofNat_toNat]
    have hshr : v >>> 7 ≠ 0 ↔ 128 ≤ v.toNat := by
      rw [Ne, ← UInt64.toNat_inj, toNat_shr7]
      simp
    rw [writeVarint]
    by_cases h : 128 ≤ v.toNat
    · have hlow : (v &&& 0x7f).toUInt8.toNat < 128 := by
        rw [toNat_low7]
        omega
      have hrest : writeVarint (v >>> 7) = Leb128.encode (v.toNat / 128) :=
        ih _ (by omega) _ (toNat_shr7 v)
      rw [dif_pos (hshr.mpr h), byte_continue hlow, toNat_low7, Leb128.encode_of_le h, ← hrest]
    · rw [dif_neg (fun h' => h (hshr.mp h')), hbyte, Leb128.encode_of_lt (by omega),
        Nat.mod_eq_of_lt (by omega)]

theorem toNat_or_shiftLeft {result x : UInt64} {shift : ℕ} (hshift : shift < 64)
    (hresult : result.toNat < 2 ^ shift) (hx : x.toNat * 2 ^ shift < 2 ^ 64) :
    (result ||| x <<< UInt64.ofNat shift).toNat = result.toNat + x.toNat * 2 ^ shift := by
  have hs : (UInt64.ofNat shift).toNat % 64 = shift := by
    rw [UInt64.toNat_ofNat_of_lt' (show shift < 2 ^ 64 by omega)]
    omega
  rw [UInt64.toNat_or, UInt64.toNat_shiftLeft, hs, Nat.shiftLeft_eq, Nat.mod_eq_of_lt hx,
    Nat.or_comm, Nat.mul_comm x.toNat, ← Nat.two_pow_add_eq_or_of_lt hresult, Nat.add_comm]

/-- The reader undoes the base-128 form, from any round on. In round `k` it has read `7 * k` bits,
and what is left of the number fits in the others. -/
theorem readVarintLoop_encode {k rounds n : ℕ} {result : UInt64} (hrounds : k + rounds = 10)
    (hresult : result.toNat < 2 ^ (7 * k)) (hn : n * 2 ^ (7 * k) < 2 ^ 64) (hk : k < 10)
    (rest : Bytes) :
    readVarintLoop rounds result (7 * k) (Leb128.encode n ++ rest)
      = .ok (some (UInt64.ofNat (result.toNat + n * 2 ^ (7 * k))), rest) := by
  induction rounds generalizing k n result with
  | zero => omega
  | succ rounds ih =>
    -- what the low seven bits of the next byte add is new bits, so `|||` is `+`
    by_cases h : n < 128
    · -- the last byte
      have hb : (UInt8.ofNat n).toNat = n := UInt8.toNat_ofNat_of_lt' (show n < 256 by omega)
      have hpay := byte_payload (UInt8.ofNat n)
      rw [hb, Nat.mod_eq_of_lt h] at hpay
      rw [Leb128.encode_of_lt h, List.singleton_append, readVarintLoop,
        if_pos ((byte_last_iff _).mpr (by rw [hb]; exact h))]
      have hsum := @toNat_or_shiftLeft result (UInt8.ofNat n &&& 0x7f).toUInt64 (7 * k) (by omega)
        hresult (by rw [hpay]; exact hn)
      rw [hpay] at hsum
      rw [← hsum, UInt64.ofNat_toNat]
    · have hb : (UInt8.ofNat (n % 128 + 128)).toNat = n % 128 + 128 :=
        UInt8.toNat_ofNat_of_lt' (show n % 128 + 128 < 256 by omega)
      have hpay := byte_payload (UInt8.ofNat (n % 128 + 128))
      rw [hb, Nat.add_mod_right, Nat.mod_mod] at hpay
      -- seven more bits are needed, so there is room for them
      have hpow : 2 ^ (7 * (k + 1)) = 128 * 2 ^ (7 * k) := by rw [Nat.mul_succ, Nat.pow_add]; ring
      have hroom : 7 * (k + 1) < 64 := by
        refine (Nat.pow_lt_pow_iff_right (show 1 < 2 by omega)).mp ?_
        calc 2 ^ (7 * (k + 1)) = 128 * 2 ^ (7 * k) := hpow
          _ ≤ n * 2 ^ (7 * k) := Nat.mul_le_mul_right _ (Nat.not_lt.mp h)
          _ < 2 ^ 64 := hn
      have hsplit : n * 2 ^ (7 * k) = n % 128 * 2 ^ (7 * k) + n / 128 * 2 ^ (7 * (k + 1)) :=
        calc n * 2 ^ (7 * k) = (n % 128 + 128 * (n / 128)) * 2 ^ (7 * k) := by
              rw [Nat.mod_add_div]
          _ = n % 128 * 2 ^ (7 * k) + n / 128 * (128 * 2 ^ (7 * k)) := by ring
          _ = n % 128 * 2 ^ (7 * k) + n / 128 * 2 ^ (7 * (k + 1)) := by rw [hpow]
      have hsum := @toNat_or_shiftLeft result (UInt8.ofNat (n % 128 + 128) &&& 0x7f).toUInt64
        (7 * k) (by omega) hresult (by rw [hpay]; omega)
      rw [hpay] at hsum
      -- so far `7 * (k + 1)` bits have been read
      have hnext : result.toNat + n % 128 * 2 ^ (7 * k) < 2 ^ (7 * (k + 1)) :=
        calc result.toNat + n % 128 * 2 ^ (7 * k)
            < 2 ^ (7 * k) + n % 128 * 2 ^ (7 * k) := Nat.add_lt_add_right hresult _
          _ ≤ 2 ^ (7 * k) + 127 * 2 ^ (7 * k) :=
            Nat.add_le_add_left (Nat.mul_le_mul_right _ (by omega)) _
          _ = 2 ^ (7 * (k + 1)) := by rw [hpow]; ring
      rw [Leb128.encode_of_le (Nat.not_lt.mp h), List.cons_append, readVarintLoop,
        if_neg (by rw [byte_last_iff, hb]; omega)]
      dsimp only
      rw [if_neg (by omega), show 7 * k + 7 = 7 * (k + 1) by omega,
        ih (by omega) (by rw [hsum]; exact hnext) (by omega) (by omega), hsum, hsplit]
      rw [Nat.add_assoc]

/-- **A varint reads back**, and says where it ends. -/
theorem readVarintOpt_writeVarint (rest : Bytes) :
    readVarintOpt (writeVarint v ++ rest) = .ok (some v, rest) := by
  have hv := v.toNat_lt
  rw [writeVarint_eq, readVarintOpt]
  have h := @readVarintLoop_encode 0 maxVarintSize v.toNat 0 rfl (by simp) (by simpa using hv)
    (by omega) rest
  simpa using h

/-! ### The header -/

theorem CarHeader.toIpld_new (roots : List Cid) :
    (CarHeader.new roots).toIpld
      = .map [("roots", .list (roots.map .link)), ("version", .integer 1)] := rfl

theorem CarHeader.collectRoots_links (roots : List Cid) :
    CarHeader.collectRoots (roots.map .link) = .ok roots := by
  induction roots with
  | nil => rfl
  | cons c roots ih =>
    rw [List.map_cons, CarHeader.collectRoots, ih]
    rfl

section Header

variable [CidCrate] [LawfulCidCrate]

theorem CarHeader.decode_encode {roots : List Cid}
    (hlen : (encodeDagCbor (CarHeader.new roots).toIpld).length < 2 ^ 64) :
    CarHeader.decode (encodeDagCbor (CarHeader.new roots).toIpld) = .ok (CarHeader.new roots) := by
  -- every root takes a byte of the header
  have hcount : roots.length < 2 ^ 64 := by
    have hitems := length_le_encodeItems (roots.map Ipld.link)
    simp only [CarHeader.toIpld_new, encodeDagCbor, encodeEntries, List.length_append,
      List.length_map] at hlen hitems
    omega
  -- links carry no number, and the version is a small one
  have hlinks : (Ipld.list (roots.map .link)).Valid :=
    ⟨by simpa using hcount, Ipld.validList_iff.mpr (List.forall_mem_map.mpr fun _ _ => trivial)⟩
  have hfits : Ipld.IntsFitList (roots.map .link) :=
    Ipld.intsFitList_iff.mpr (List.forall_mem_map.mpr fun _ _ => trivial)
  have hdecode := fromDagCbor_encodeDagCbor (x := (CarHeader.new roots).toIpld)
    (Ipld.valid_pair (by decide) (by decide) (by decide) hlinks (Ipld.valid_u64 _).1)
    ⟨hfits, (Ipld.valid_u64 _).2, trivial⟩
  rw [CarHeader.decode, hdecode, Except.ok_bind, CarHeader.toIpld_new]
  change (do
    let roots ← CarHeader.collectRoots (roots.map .link)
    return (⟨1, roots⟩ : CarHeader)) = _
  rw [CarHeader.collectRoots_links]
  rfl

end Header

/-! ### Sections -/

section Sections

variable [CidCrate]

/-- The bytes that an uncompressed writer adds for a block. -/
def carSection (b : Block) : Bytes :=
  writeVarint (UInt64.ofNat ((CidCrate.toBytes b.cid).length + 1 + b.data.length))
    ++ (CidCrate.toBytes b.cid ++ 0 :: b.data)

/-- `CarWriter::new`, `write_block` for every block in turn, and `finish`. -/
def carArchive [CompressionCrate] (roots : List Cid) (blocks : List Block) :
    Except Error Bytes := do
  let w ← CarWriter.new roots
  let w ← blocks.foldlM CarWriter.writeBlock w
  return w.writer

variable [CompressionCrate]

theorem foldlM_writeBlock {w : CarWriter} (hheader : w.headerWritten = true)
    (hcomp : w.compression = none) (blocks : List Block) :
    ∃ w', blocks.foldlM CarWriter.writeBlock w = .ok w' ∧
      w'.writer = w.writer ++ (blocks.map carSection).flatten := by
  induction blocks generalizing w with
  | nil => exact ⟨w, rfl, by simp⟩
  | cons b blocks ih =>
    -- the header is there already, and nothing is compressed
    obtain ⟨w₁, hw₁, hheader₁, hcomp₁, hwriter⟩ : ∃ w₁, w.writeBlock b = .ok w₁ ∧
        w₁.headerWritten = true ∧ w₁.compression = none ∧
          w₁.writer = w.writer ++ carSection b := by
      rw [CarWriter.writeBlock, if_neg (by simp [hheader]), CarWriter.finalData, hcomp]
      exact ⟨_, rfl, hheader, rfl, by simp [carSection]⟩
    obtain ⟨w', hw', hwriter'⟩ := ih hheader₁ hcomp₁
    refine ⟨w', ?_, ?_⟩
    · rw [List.foldlM_cons, hw₁, Except.ok_bind, hw']
    · rw [hwriter', hwriter, List.map_cons, List.flatten_cons, List.append_assoc]

theorem carArchive_eq (roots : List Cid) (blocks : List Block) :
    carArchive roots blocks = .ok (writeVarint
        (UInt64.ofNat (encodeDagCbor (CarHeader.new roots).toIpld).length)
      ++ (encodeDagCbor (CarHeader.new roots).toIpld ++ (blocks.map carSection).flatten)) := by
  obtain ⟨w', hw', hwriter⟩ := foldlM_writeBlock (w := ⟨[] ++ writeVarint
    (UInt64.ofNat (encodeDagCbor (CarHeader.new roots).toIpld).length)
      ++ encodeDagCbor (CarHeader.new roots).toIpld, true, none, {}⟩) rfl rfl blocks
  rw [carArchive, CarWriter.new, CarWriter.newWithOptions, CarWriter.writeHeader]
  change (do
    let w ← blocks.foldlM CarWriter.writeBlock ⟨_, true, none, {}⟩
    return w.writer) = _
  rw [hw', Except.ok_bind, Except.pure_def, hwriter]
  simp

end Sections

/-! ### Reading the sections -/

section Reading

variable [CidCrate] [LawfulCidCrate] [CompressionCrate] [HashCrate] [CidText]

/-- The block is what `Block::new` makes of its data. -/
def IsDefault (b : Block) : Prop := b.cid = Cid.ofData Codec.raw .sha256 b.data

variable {roots : List Cid} {b : Block} {blocks : List Block} {body : Block → Bytes}
  {r' : CarReader}

/-- The reader makes the block anew from the data of the section, and compares the CIDs. -/
theorem parseSection_eq (hsize : minBlockSize ≤ b.data.length)
    (hmax : b.data.length ≤ maxBlockSize) :
    (IsDefault b → CarReader.parseSection (CidCrate.toBytes b.cid ++ 0 :: b.data) = .ok b) ∧
      (¬ IsDefault b →
        ∃ e, CarReader.parseSection (CidCrate.toBytes b.cid ++ 0 :: b.data) = .error e) := by
  -- the flag 0 says that the data is not compressed
  have hparse : CarReader.parseSection (CidCrate.toBytes b.cid ++ 0 :: b.data) =
      if Cid.ofData Codec.raw .sha256 b.data ≠ b.cid then
        .error (.invalidData ("Block CID mismatch: expected " ++ CidText.toString b.cid ++ ", got "
          ++ CidText.toString (Cid.ofData Codec.raw .sha256 b.data)))
      else .ok ⟨Cid.ofData Codec.raw .sha256 b.data, b.data⟩ := by
    rw [CarReader.parseSection, LawfulCidCrate.readBytes_toBytes]
    change (do
      let block ← Block.new b.data
      if block.cid ≠ b.cid then _ else _) = _
    rw [Block.new_of_size hsize hmax, Except.ok_bind]
    rfl
  rw [hparse]
  constructor
  · intro h
    rw [if_neg (by simpa using h.symm), ← h]
  · intro h
    exact ⟨_, if_pos fun heq => h heq.symm⟩

/-- The bytes with their length in front. -/
def framed (body : Bytes) : Bytes := writeVarint (UInt64.ofNat body.length) ++ body

omit [LawfulCidCrate] in
/-- The length in front delimits a section, whatever follows it. -/
theorem readBlock_framed {body : Bytes} (hfit : body.length < 2 ^ 64) (header : CarHeader)
    (rest : Bytes) :
    CarReader.readBlock ⟨framed body ++ rest, header⟩ = do
      let block ← CarReader.parseSection body
      return (some block, ⟨rest, header⟩) := by
  have hbuffer :
      readBuffer (UInt64.ofNat body.length).toNat (body ++ rest) = .ok (body, rest) := by
    rw [UInt64.toNat_ofNat_of_lt' hfit, readBuffer, ByteStream.readExact_append rfl]
  rw [CarReader.readBlock, framed, List.append_assoc, readVarintOpt_writeVarint]
  simp only [Except.ok_bind]
  rw [hbuffer]
  rfl

omit [LawfulCidCrate] [CompressionCrate] [HashCrate] [CidText] in
theorem carSection_eq_framed (b : Block) :
    carSection b = framed (CidCrate.toBytes b.cid ++ 0 :: b.data) := by
  have hlen : (CidCrate.toBytes b.cid ++ 0 :: b.data).length
      = (CidCrate.toBytes b.cid).length + 1 + b.data.length := by
    rw [List.length_append, List.length_cons]
    omega
  rw [carSection, framed, hlen]

omit [CompressionCrate] [HashCrate] [CidText] in
/-- A CID and a block are too short for the cast to `u64` to matter. -/
theorem length_section_lt (hmax : b.data.length ≤ maxBlockSize) :
    (CidCrate.toBytes b.cid ++ 0 :: b.data).length < 2 ^ 64 := by
  have hcid := LawfulCidCrate.length_toBytes b.cid
  have hblock : maxBlockSize < 2 ^ 63 - 1 := by decide
  rw [List.length_append, List.length_cons]
  omega

/-- **One section**, whatever follows it: the block itself or an error. -/
theorem readBlock_section (hsize : minBlockSize ≤ b.data.length)
    (hmax : b.data.length ≤ maxBlockSize) (header : CarHeader) (rest : Bytes) :
    (IsDefault b → CarReader.readBlock ⟨carSection b ++ rest, header⟩
        = .ok (some b, ⟨rest, header⟩)) ∧
      (¬ IsDefault b → ∃ e, CarReader.readBlock ⟨carSection b ++ rest, header⟩ = .error e) := by
  obtain ⟨hok, herr⟩ := parseSection_eq hsize hmax
  rw [carSection_eq_framed, readBlock_framed (length_section_lt hmax)]
  constructor
  · intro h
    rw [hok h]
    rfl
  · intro h
    obtain ⟨e, he⟩ := herr h
    exact ⟨e, by rw [he]; rfl⟩

omit [LawfulCidCrate] in
theorem prefix_of_returns {acc bs : List Block} {r : CarReader}
    (h : WhileLoop.Returns CarReader.readAllStep (acc, r) (.ok (bs, r'))) : acc <+: bs := by
  obtain ⟨fuel, h⟩ := h
  refine WhileLoop.run_elim (fun s => acc <+: s.1)
    (fun res => ∀ bs r', res = .ok (bs, r') → acc <+: bs) ?_ List.prefix_rfl h bs r' rfl
  rintro ⟨blocks, r⟩ hI
  rw [CarReader.readAllStep]
  split
  · -- one block more
    exact hI.trans (List.prefix_append _ _)
  · -- the end of the file
    rintro bs r' heq
    obtain ⟨rfl, rfl⟩ := Prod.mk.inj (Except.ok.inj heq)
    exact hI
  · rintro bs r' heq
    cases heq

omit [LawfulCidCrate] in
/-- **All sections**, whatever is in them: these blocks are read, up to the end of the file, if
every section gives its block. -/
theorem returns_framed_iff (header : CarHeader) (hfit : ∀ b ∈ blocks, (body b).length < 2 ^ 64)
    (acc : List Block) :
    WhileLoop.Returns CarReader.readAllStep
        (acc, ⟨(blocks.map fun b => framed (body b)).flatten, header⟩) (.ok (acc ++ blocks, r')) ↔
      (∀ b ∈ blocks, CarReader.parseSection (body b) = .ok b) ∧ r' = ⟨[], header⟩ := by
  induction blocks generalizing acc with
  | nil =>
    -- no section is left: the end of the file
    have hstep : CarReader.readAllStep (acc, ⟨[], header⟩) = .inr (.ok (acc, ⟨[], header⟩)) := rfl
    rw [List.map_nil, List.flatten_nil, WhileLoop.Returns.iff_of_done hstep, List.append_nil]
    simp [eq_comm]
  | cons b blocks ih =>
    obtain ⟨hb, hbs⟩ := List.forall_mem_cons.mp hfit
    rw [List.map_cons, List.flatten_cons, List.forall_mem_cons]
    have hread := readBlock_framed hb header (blocks.map fun b => framed (body b)).flatten
    cases hparse : CarReader.parseSection (body b) with
    | error e =>
      -- the first section ends the reading
      have hstep : CarReader.readAllStep
          (acc, ⟨framed (body b) ++ (blocks.map fun b => framed (body b)).flatten, header⟩)
            = .inr (.error e) := by
        rw [CarReader.readAllStep, hread, hparse]
        rfl
      rw [WhileLoop.Returns.iff_of_done hstep]
      simp
    | ok b' =>
      have hstep : CarReader.readAllStep
          (acc, ⟨framed (body b) ++ (blocks.map fun b => framed (body b)).flatten, header⟩)
            = .inl (acc ++ [b'], ⟨(blocks.map fun b => framed (body b)).flatten, header⟩) := by
        rw [CarReader.readAllStep, hread, hparse]
        rfl
      rw [WhileLoop.Returns.iff_of_next hstep]
      have ih' := ih hbs (acc ++ [b])
      rw [List.append_assoc, List.singleton_append] at ih'
      constructor
      · intro h
        -- what has been read stays, so the first block is the right one
        have hpre := prefix_of_returns h
        obtain rfl : b' = b := by simpa using hpre
        obtain ⟨hrest, hr'⟩ := ih'.mp h
        exact ⟨⟨rfl, hrest⟩, hr'⟩
      · rintro ⟨⟨hbb', hrest⟩, hr'⟩
        obtain rfl := Except.ok.inj hbb'
        exact ih'.mpr ⟨hrest, hr'⟩

/-! ### Whole archives -/

omit [CompressionCrate] [HashCrate] [CidText] in
theorem new_archive (hlen : (encodeDagCbor (CarHeader.new roots).toIpld).length < 2 ^ 64)
    (rest : Bytes) :
    CarReader.new (writeVarint (UInt64.ofNat (encodeDagCbor (CarHeader.new roots).toIpld).length)
      ++ (encodeDagCbor (CarHeader.new roots).toIpld ++ rest))
        = .ok ⟨rest, CarHeader.new roots⟩ := by
  have hheader := CarHeader.decode_encode hlen
  generalize encodeDagCbor (CarHeader.new roots).toIpld = header at hlen hheader
  have hvarint : readVarint (writeVarint (UInt64.ofNat header.length) ++ (header ++ rest))
      = .ok (UInt64.ofNat header.length, header ++ rest) := by
    rw [readVarint, readVarintOpt_writeVarint]
    rfl
  have hbuffer : readBuffer (UInt64.ofNat header.length).toNat (header ++ rest)
      = .ok (header, rest) := by
    rw [UInt64.toNat_ofNat_of_lt' hlen, readBuffer, ByteStream.readExact_append rfl]
  simp only [CarReader.new, hvarint, Except.ok_bind, hbuffer, hheader, Except.pure_def]

/-- Reading `car` gives these roots and these blocks, and then the end of the file. -/
def ReadsBack (roots : List Cid) (blocks : List Block) (car : Bytes) : Prop :=
  ∃ r, CarReader.new car = .ok r ∧ r.roots = roots ∧
    ∃ r' n, (∀ fuel ≥ n, r.readAllBlocks fuel = some (.ok (blocks, r'))) ∧
      r'.readBlock = .ok (none, r')

/-- Sections after a header read back if every one gives its block. -/
theorem readsBack_framed_iff (hlen : (encodeDagCbor (CarHeader.new roots).toIpld).length < 2 ^ 64)
    (hfit : ∀ b ∈ blocks, (body b).length < 2 ^ 64) :
    ReadsBack roots blocks
        (writeVarint (UInt64.ofNat (encodeDagCbor (CarHeader.new roots).toIpld).length)
          ++ (encodeDagCbor (CarHeader.new roots).toIpld
            ++ (blocks.map fun b => framed (body b)).flatten)) ↔
      ∀ b ∈ blocks, CarReader.parseSection (body b) = .ok b := by
  have hnew := new_archive hlen (blocks.map fun b => framed (body b)).flatten
  have hreturns {r' : CarReader} := @returns_framed_iff _ _ _ _ blocks body r'
    (CarHeader.new roots) hfit []
  constructor
  · rintro ⟨r, hr, -, r', n, hall, -⟩
    obtain rfl := Except.ok.inj (hnew.symm.trans hr)
    exact (hreturns.mp ⟨n, hall n (Nat.le_refl n)⟩).1
  · intro hparse
    obtain ⟨n, hn⟩ := hreturns.mpr ⟨hparse, rfl⟩
    -- the reader stops at the end of the file, with nothing left to read
    exact ⟨_, hnew, rfl, ⟨[], CarHeader.new roots⟩, n,
      fun fuel hfuel => WhileLoop.run_mono hfuel hn, rfl⟩

/-- An archive reads back when every block is what `Block::new` makes of its data. -/
theorem readsBack_archive_iff (hlen : (encodeDagCbor (CarHeader.new roots).toIpld).length < 2 ^ 64)
    (hsize : ∀ b ∈ blocks, minBlockSize ≤ b.data.length ∧ b.data.length ≤ maxBlockSize) :
    ∃ car, carArchive roots blocks = .ok car ∧
      (ReadsBack roots blocks car ↔ ∀ b ∈ blocks, IsDefault b) := by
  refine ⟨_, carArchive_eq roots blocks, ?_⟩
  have hsections : blocks.map carSection
      = blocks.map fun b => framed (CidCrate.toBytes b.cid ++ 0 :: b.data) :=
    List.map_congr_left fun b _ => carSection_eq_framed b
  rw [hsections, readsBack_framed_iff hlen fun b hb => length_section_lt (hsize b hb).2]
  refine forall₂_congr fun b hb => ?_
  obtain ⟨hok, herr⟩ := parseSection_eq (hsize b hb).1 (hsize b hb).2
  refine ⟨fun h => ?_, hok⟩
  by_contra hdef
  obtain ⟨e, he⟩ := herr hdef
  exact absurd (h.symm.trans he) (by simp)

omit [CidCrate] [LawfulCidCrate] [CompressionCrate] [CidText] in
/-- A block from a builder is what `Block::new` makes of its data when its CID has the default
parameters. -/
theorem isDefault_iff_of_build {builder : BlockBuilder} (h : builder.build b.data = .ok b) :
    IsDefault b ↔ b.cid.version = .v1 ∧ b.cid.codec = Codec.raw ∧
      b.cid.hash.code = HashAlgorithm.sha256.code := by
  constructor
  · intro hdef
    rw [IsDefault] at hdef
    rw [hdef]
    exact ⟨rfl, rfl, rfl⟩
  · rintro ⟨hversion, hcodec, hcode⟩
    obtain ⟨-, hcid, -⟩ := BlockBuilder.build_eq_ok.mp h
    obtain ⟨hhash, -, -⟩ := CidBuilder.build_eq_ok hcid
    rw [hhash] at hcode
    have halg : builder.cidBuilder.hashAlgorithm = .sha256 := HashAlgorithm.code_injective hcode
    rw [halg] at hhash
    obtain ⟨⟨version, codec, hash, hwf⟩, data⟩ := b
    simp only at hversion hcodec hhash
    subst hversion hcodec hhash
    rfl

/-- **CAR round trip.** For every list of roots (whose header is a `Vec`, of a length below `2^64`)
and every sequence of blocks made by builders, the archive reads back, with the same roots, the same
blocks in order and then the end of the file, if and only if every block has a version 1 CID with
the raw codec and SHA2-256. -/
theorem car_roundTrip_iff (hlen : (encodeDagCbor (CarHeader.new roots).toIpld).length < 2 ^ 64)
    (hbuilt : ∀ b ∈ blocks, ∃ builder : BlockBuilder, builder.build b.data = .ok b) :
    ∃ car, carArchive roots blocks = .ok car ∧
      (ReadsBack roots blocks car ↔ ∀ b ∈ blocks, b.cid.version = .v1 ∧
        b.cid.codec = Codec.raw ∧ b.cid.hash.code = HashAlgorithm.sha256.code) := by
  have hsize : ∀ b ∈ blocks, minBlockSize ≤ b.data.length ∧ b.data.length ≤ maxBlockSize := by
    intro b hb
    obtain ⟨builder, h⟩ := hbuilt b hb
    exact (BlockBuilder.build_eq_ok.mp h).1
  obtain ⟨car, hcar, hiff⟩ := readsBack_archive_iff hlen hsize
  refine ⟨car, hcar, hiff.trans (forall₂_congr fun b hb => ?_)⟩
  obtain ⟨builder, h⟩ := hbuilt b hb
  exact isDefault_iff_of_build h

end Reading

section Sample

open scoped CidReference

/-- Compression is not used in an uncompressed archive. -/
@[reducible]
def noCompression : CompressionCrate :=
  ⟨fun d _ => .ok d, .ok, fun d _ => .ok d, .ok⟩

/-- The block that `Block::new` makes of the byte 1. -/
def sampleBlock : Block :=
  letI := CidReference.byteHash
  ⟨Cid.ofData Codec.raw .sha256 [1], [1]⟩

/-- The block that a builder with the DAG-CBOR codec makes of the byte 1. -/
def sampleDagCborBlock : Block :=
  letI := CidReference.byteHash
  ⟨Cid.ofData Codec.dagCbor .sha256 [1], [1]⟩

theorem car_roundTrip_sampleBlock :
    letI := CidReference.byteHash
    letI := noCompression
    ∃ car, carArchive [sampleBlock.cid] [sampleBlock] = .ok car ∧
      ReadsBack [sampleBlock.cid] [sampleBlock] car := by
  let := CidReference.byteHash
  let := noCompression
  have hbuilt : ∀ b ∈ [sampleBlock], ∃ builder : BlockBuilder, builder.build b.data = .ok b := by
    intro b hb
    obtain rfl := List.mem_singleton.mp hb
    exact ⟨{}, by decide +kernel⟩
  obtain ⟨car, hcar, hiff⟩ := @car_roundTrip_iff _ _ _ _ _ [sampleBlock.cid] [sampleBlock]
    (by decide +kernel) hbuilt
  refine ⟨car, hcar, hiff.mpr fun b hb => ?_⟩
  obtain rfl := List.mem_singleton.mp hb
  exact ⟨rfl, rfl, rfl⟩

/-- A DAG-CBOR block can be written to an archive, and cannot be read back from it. -/
theorem car_loses_dagCbor :
    letI := CidReference.byteHash
    letI := noCompression
    ¬ ∀ (roots : List Cid) (blocks : List Block),
      (∀ b ∈ blocks, ∃ builder : BlockBuilder, builder.build b.data = .ok b) →
        ∀ car, carArchive roots blocks = .ok car → ReadsBack roots blocks car := by
  let := CidReference.byteHash
  let := noCompression
  intro hall
  have hbuilt : ∀ b ∈ [sampleDagCborBlock],
      ∃ builder : BlockBuilder, builder.build b.data = .ok b := by
    intro b hb
    obtain rfl := List.mem_singleton.mp hb
    exact ⟨{ cidBuilder := { codec := Codec.dagCbor } }, by decide +kernel⟩
  obtain ⟨car, hcar, hiff⟩ := @readsBack_archive_iff _ _ _ _ _ [] [sampleDagCborBlock]
    (by decide +kernel) (by decide +kernel)
  have hdef := hiff.mp (hall _ _ hbuilt car hcar) _ List.mem_cons_self
  exact absurd (congrArg Cid.codec hdef) (by decide +kernel)

end Sample

end Ipfrs
