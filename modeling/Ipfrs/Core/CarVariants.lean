import Ipfrs.Core.CarRoundTrip

/-!
# Archives that are cut short, and archives without flags

Two kinds of archives that the reader meets and the writer does not finish or does not write.

* `car_truncated` — a cut after the header. A section that is cut off is an error, wherever the cut
  is, and the end of the file is reported only between two sections.
* `car_legacy_iff` — the layout of plain CARv1, in which a section has no compression flag.
  The reader takes the first byte of the data for a flag when it is 0 or 1.
-/

namespace Ipfrs

/-! ### Sections that are cut off -/

variable {p : Bytes}

/-- The varint reader does not take the end of the stream for the end of a number. -/
theorem readVarintLoop_truncated (hp : ∀ b ∈ p, 128 ≤ b.toNat) {rounds shift : ℕ} {result : UInt64}
    (h : p ≠ [] ∨ shift ≠ 0) : ∃ e, readVarintLoop rounds result shift p = .error e := by
  induction rounds generalizing p result shift with
  | zero => exact ⟨_, rfl⟩
  | succ rounds ih =>
    obtain _ | ⟨b, p⟩ := p
    · -- the end of the stream, after at least one byte
      have hshift : shift ≠ 0 := h.resolve_left fun hne => hne rfl
      exact ⟨unexpectedEof, by rw [readVarintLoop, if_neg hshift]⟩
    · obtain ⟨hb, hp⟩ := List.forall_mem_cons.mp hp
      have hmore : ¬ b &&& 0x80 = 0 := fun h0 => by
        have hlt := (byte_last_iff b).mp h0
        omega
      rw [readVarintLoop, if_neg hmore]
      dsimp only
      split
      · exact ⟨_, rfl⟩
      · exact ih hp (Or.inr (by omega))

theorem readVarintOpt_truncated {v : UInt64} (hp : p <+: writeVarint v)
    (hproper : p ≠ writeVarint v) (hne : p ≠ []) : ∃ e, readVarintOpt p = .error e := by
  rw [writeVarint_eq] at hp hproper
  exact readVarintLoop_truncated (Leb128.le_of_mem_of_prefix hp hproper) (Or.inl hne)

theorem readBuffer_short {n : ℕ} (h : p.length < n) : readBuffer n p = .error unexpectedEof := by
  rw [readBuffer, ByteStream.readExact, if_neg (by omega)]

theorem prefix_append_cases {α : Type} {p a b : List α} (h : p <+: a ++ b) (hne : p ≠ a ++ b) :
    (p <+: a ∧ p ≠ a) ∨ ∃ q, p = a ++ q ∧ q <+: b ∧ q ≠ b := by
  have hafter : a <+: p → ∃ q, p = a ++ q ∧ q <+: b ∧ q ≠ b := by
    rintro ⟨q, rfl⟩
    refine ⟨q, rfl, (List.prefix_append_right_inj a).mp h, ?_⟩
    rintro rfl
    exact hne rfl
  rcases List.prefix_or_prefix_of_prefix h (List.prefix_append a b) with hpa | hap
  · by_cases heq : p = a
    · exact Or.inr (hafter (heq ▸ List.prefix_rfl))
    · exact Or.inl ⟨hpa, heq⟩
  · exact Or.inr (hafter hap)

section Truncated

variable [CidCrate] [CompressionCrate] [HashCrate] [CidText]

/-- **A section that is cut off** is an error: in its length, or in what the length promises. -/
theorem readBlock_truncated {body p : Bytes} (hfit : body.length < 2 ^ 64) (hp : p <+: framed body)
    (hproper : p ≠ framed body) (hne : p ≠ []) (header : CarHeader) :
    ∃ e, CarReader.readBlock ⟨p, header⟩ = .error e := by
  rcases prefix_append_cases hp hproper with ⟨hp, hproper⟩ | ⟨q, rfl, hq, hproper⟩
  · obtain ⟨e, he⟩ := readVarintOpt_truncated hp hproper hne
    exact ⟨e, by rw [CarReader.readBlock, he]; rfl⟩
  · have hshort : q.length < (UInt64.ofNat body.length).toNat := by
      rw [UInt64.toNat_ofNat_of_lt' hfit]
      refine lt_of_le_of_ne hq.length_le fun hlen => hproper ?_
      exact hq.eq_of_length hlen
    refine ⟨unexpectedEof, ?_⟩
    rw [CarReader.readBlock, readVarintOpt_writeVarint]
    simp only [Except.ok_bind, readBuffer_short hshort]
    rfl

/-- Calls of `read_block` that return these blocks one after the other. -/
inductive CarReads : CarReader → List Block → CarReader → Prop
  | nil (r : CarReader) : CarReads r [] r
  | cons {r r₁ r' : CarReader} {b : Block} {bs : List Block}
      (hread : r.readBlock = .ok (some b, r₁)) (hrest : CarReads r₁ bs r') : CarReads r (b :: bs) r'

/-- When a reader is at its end, nothing but these blocks can be read. -/
theorem CarReads.prefix_of_stuck {r r' r'' : CarReader} {bs bs' : List Block} (h : CarReads r bs r')
    (hstuck : ∀ b r₂, r'.readBlock ≠ .ok (some b, r₂)) (h' : CarReads r bs' r'') : bs' <+: bs := by
  induction h generalizing bs' with
  | nil r =>
    cases h' with
    | nil => exact List.prefix_rfl
    | cons hread => exact absurd hread (hstuck _ _)
  | cons hread _ ih =>
    cases h' with
    | nil => exact List.nil_prefix
    | cons hread' hrest' =>
      -- the same reader, so the same block
      have heq := hread.symm.trans hread'
      simp only [Except.ok.injEq, Prod.mk.injEq, Option.some.injEq] at heq
      obtain ⟨rfl, rfl⟩ := heq
      exact List.cons_prefix_cons.mpr ⟨rfl, ih hstuck hrest'⟩

variable [LawfulCidCrate]
variable {blocks : List Block} {w w' : CarWriter} {roots : List Cid}
  {compression : Option (CompressionAlgorithm × ℤ)}

/-- **Sections up to a cut** are read as if nothing were missing. What is left is a part of the next
section, which may be empty. -/
theorem reads_truncated (hblocks : ∀ b ∈ blocks, Block.new b.data = .ok b) {q : Bytes}
    (hq : q <+: (blocks.map carSection).flatten) (hproper : q ≠ (blocks.map carSection).flatten)
    (header : CarHeader) :
    ∃ (k : ℕ) (hk : k < blocks.length) (rest : Bytes),
      q = ((blocks.take k).map carSection).flatten ++ rest ∧
      rest <+: carSection blocks[k] ∧ rest ≠ carSection blocks[k] ∧
      CarReads ⟨q, header⟩ (blocks.take k) ⟨rest, header⟩ := by
  induction blocks generalizing q with
  | nil => exact absurd (List.prefix_nil.mp hq) hproper
  | cons b blocks ih =>
    rw [List.map_cons, List.flatten_cons] at hq hproper
    rcases prefix_append_cases hq hproper with ⟨hq, hproper⟩ | ⟨q, rfl, hq, hproper⟩
    · -- the cut is in the first section
      exact ⟨0, Nat.zero_lt_succ _, q, rfl, hq, hproper, .nil _⟩
    · obtain ⟨hb, hbs⟩ := List.forall_mem_cons.mp hblocks
      obtain ⟨k, hk, rest, rfl, hrest, hproper, hreads⟩ := ih hbs hq hproper
      obtain ⟨⟨hmin, hmax⟩, hdef⟩ := Block.new_eq_ok.mp hb
      have hread := (readBlock_section hmin hmax header
        (((blocks.take k).map carSection).flatten ++ rest)).1 (congrArg Block.cid hdef)
      refine ⟨k + 1, Nat.succ_lt_succ hk, rest, ?_, hrest, hproper, .cons hread hreads⟩
      rw [List.take_succ_cons, List.map_cons, List.flatten_cons, List.append_assoc]

omit [HashCrate] [CidText] [LawfulCidCrate] in
/-- A writer that does not compress: without an algorithm, or with `CompressionAlgorithm::None`. -/
def Uncompressed (w : CarWriter) : Prop := ∀ p ∈ w.compression, p.1 = CompressionAlgorithm.none

omit [HashCrate] [CidText] [LawfulCidCrate] in
theorem writeBlock_uncompressed {b : Block} (hw : Uncompressed w) (h : w.writeBlock b = .ok w') :
    w'.writer = w.writer ++ carSection b ∧ w'.compression = w.compression := by
  unfold CarWriter.writeBlock at h
  split at h
  · exact absurd h (by simp)
  obtain ⟨⟨data, compressed, stats⟩, hdata, h⟩ := Except.bind_eq_ok_iff.mp h
  obtain rfl := Except.ok.inj h
  -- the data are written as they are
  obtain ⟨rfl, rfl⟩ : data = b.data ∧ compressed = false := by
    unfold CarWriter.finalData at hdata
    cases hcomp : w.compression with
    | none =>
      rw [hcomp] at hdata
      obtain ⟨rfl, rfl, -⟩ := hdata
      exact ⟨rfl, rfl⟩
    | some p =>
      obtain ⟨algorithm, level⟩ := p
      obtain rfl : algorithm = .none := hw (algorithm, level) (by rw [hcomp]; rfl)
      rw [hcomp] at hdata
      obtain ⟨c, hc, hdata⟩ := Except.bind_eq_ok_iff.mp hdata
      unfold compress at hc
      split at hc
      · exact absurd hc (by simp)
      · obtain rfl := Except.ok.inj hc
        obtain ⟨rfl, rfl, -⟩ := hdata
        exact ⟨rfl, rfl⟩
  refine ⟨?_, rfl⟩
  dsimp only
  rw [carSection, List.append_assoc, List.append_assoc, List.append_assoc]
  rfl

omit [HashCrate] [CidText] [LawfulCidCrate] in
theorem foldlM_writeBlock_uncompressed (hw : Uncompressed w)
    (h : blocks.foldlM CarWriter.writeBlock w = .ok w') :
    w'.writer = w.writer ++ (blocks.map carSection).flatten := by
  induction blocks generalizing w with
  | nil =>
    obtain rfl := Except.ok.inj h
    exact (List.append_nil _).symm
  | cons b blocks ih =>
    rw [List.foldlM_cons] at h
    obtain ⟨w₁, hw₁, h⟩ := Except.bind_eq_ok_iff.mp h
    obtain ⟨hwriter, hcomp⟩ := writeBlock_uncompressed hw hw₁
    have hrest := ih (fun p hp => hw p (hcomp ▸ hp)) h
    rw [hrest, hwriter, List.append_assoc, List.map_cons, List.flatten_cons]

omit [CompressionCrate] [HashCrate] [CidText] in
theorem new_of_newWithOptions (hlen : (encodeDagCbor (CarHeader.new roots).toIpld).length < 2 ^ 64)
    (hnew : CarWriter.newWithOptions roots compression = .ok w) (rest : Bytes) :
    CarReader.new (w.writer ++ rest) = .ok ⟨rest, CarHeader.new roots⟩ := by
  have hbytes : w.writer
      = writeVarint (UInt64.ofNat (encodeDagCbor (CarHeader.new roots).toIpld).length)
        ++ encodeDagCbor (CarHeader.new roots).toIpld := by
    obtain rfl := Except.ok.inj hnew
    rfl
  rw [hbytes, List.append_assoc]
  exact new_archive hlen rest

/-- **Truncated archives.** When an archive of raw SHA2-256 blocks is cut after its header, the
blocks before the cut are read, and no other block is; then comes the end of the file, if the cut
is between two sections, and otherwise an error. -/
theorem car_truncated (hlen : (encodeDagCbor (CarHeader.new roots).toIpld).length < 2 ^ 64)
    (hblocks : ∀ b ∈ blocks, Block.new b.data = .ok b)
    (hnew : CarWriter.newWithOptions roots compression = .ok w) (hw : Uncompressed w)
    (hwrite : blocks.foldlM CarWriter.writeBlock w = .ok w') {pre : Bytes}
    (hheader : w.writer <+: pre) (hpre : pre <+: w'.writer) (hproper : pre ≠ w'.writer) :
    ∃ (r r' : CarReader) (k : ℕ) (hk : k < blocks.length) (rest : Bytes),
      CarReader.new pre = .ok r ∧ r.roots = roots ∧
      pre = w.writer ++ ((blocks.take k).map carSection).flatten ++ rest ∧
      rest <+: carSection blocks[k] ∧ rest ≠ carSection blocks[k] ∧
      CarReads r (blocks.take k) r' ∧ (∀ bs r'', CarReads r bs r'' → bs <+: blocks.take k) ∧
      ((rest = [] ∧ r'.readBlock = .ok (none, r')) ∨
        (rest ≠ [] ∧ ∃ e, r'.readBlock = .error e)) := by
  have hwriter := foldlM_writeBlock_uncompressed hw hwrite
  obtain ⟨q, rfl⟩ := hheader
  rw [hwriter] at hpre hproper
  have hq : q <+: (blocks.map carSection).flatten :=
    (List.prefix_append_right_inj w.writer).mp hpre
  have hq_ne : q ≠ (blocks.map carSection).flatten := by
    rintro rfl
    exact hproper rfl
  obtain ⟨k, hk, rest, rfl, hrest, hrest_ne, hreads⟩ :=
    reads_truncated hblocks hq hq_ne (CarHeader.new roots)
  have hreader := new_of_newWithOptions hlen hnew (((blocks.take k).map carSection).flatten ++ rest)
  -- the last call: a clean end, or a section that is cut off
  have hlast : (rest = [] ∧ CarReader.readBlock ⟨rest, CarHeader.new roots⟩
        = .ok (none, ⟨rest, CarHeader.new roots⟩)) ∨
      (rest ≠ [] ∧ ∃ e, CarReader.readBlock ⟨rest, CarHeader.new roots⟩ = .error e) := by
    by_cases hnil : rest = []
    · subst hnil
      exact Or.inl ⟨rfl, rfl⟩
    · obtain ⟨⟨-, hmax⟩, -⟩ := Block.new_eq_ok.mp (hblocks _ (List.getElem_mem hk))
      rw [carSection_eq_framed] at hrest hrest_ne
      exact Or.inr ⟨hnil, readBlock_truncated (length_section_lt hmax) hrest hrest_ne hnil _⟩
  refine ⟨_, _, k, hk, rest, hreader, rfl, (List.append_assoc _ _ _).symm, hrest, hrest_ne, hreads,
    fun bs r'' => hreads.prefix_of_stuck ?_, hlast⟩
  rintro b r₂ hread
  rcases hlast with ⟨-, hend⟩ | ⟨-, e, he⟩
  · rw [hend] at hread
    exact absurd hread (by simp)
  · rw [he] at hread
    exact absurd hread (by simp)

end Truncated

/-! ### Archives without flags -/

section Legacy

variable [CidCrate] [CompressionCrate]

/-- The layout of plain CARv1: the header, and for every block its length, its CID and its data. -/
def legacyArchive (roots : List Cid) (blocks : List Block) : Bytes :=
  writeVarint (UInt64.ofNat (encodeDagCbor (CarHeader.new roots).toIpld).length)
    ++ (encodeDagCbor (CarHeader.new roots).toIpld
      ++ (blocks.map fun b => framed (CidCrate.toBytes b.cid ++ b.data)).flatten)

omit [CidCrate] in
/-- What the reader decompresses to: with zstd if that succeeds, and otherwise with lz4. -/
def decompressEither (data : Bytes) : Except Error Bytes :=
  match decompress data .zstd with
  | .ok data => .ok data
  | .error _ => decompress data .lz4

omit [CidCrate] in
/-- The data of a block that the reader gets right without a flag: no more than a block can have,
and the first byte is not a flag, unless it is 1 and the rest happens to be compressed data that
stand for the whole. -/
def FlagFree (data : Bytes) : Prop :=
  data.length ≤ maxBlockSize ∧ data.head? ≠ some 0 ∧
    ∀ rest, data = 1 :: rest → decompressEither rest = .ok data

variable [HashCrate] [CidText] [LawfulCidCrate]

/-- The block of a section with this CID, from its data. -/
def checkedBlock (cid : Cid) (data : Bytes) : Except Error Block := do
  let block ← Block.new data
  if block.cid ≠ cid then
    .error (.invalidData ("Block CID mismatch: expected " ++ CidText.toString cid ++ ", got "
      ++ CidText.toString block.cid))
  else return block

/-- What the reader takes from a section for the data: what follows the flag, if there is one. -/
theorem parseSection_cons (cid : Cid) (flag : UInt8) (rest : Bytes) :
    CarReader.parseSection (CidCrate.toBytes cid ++ flag :: rest) =
      (if flag = 1 then decompressEither rest
        else .ok (if flag = 0 then rest else flag :: rest)) >>= checkedBlock cid := by
  rw [CarReader.parseSection, LawfulCidCrate.readBytes_toBytes]
  by_cases h1 : flag = 1
  · subst h1
    rw [if_pos rfl, decompressEither]
    simp only [Except.mapError, Except.ok_bind, or_true, if_true]
    cases decompress rest .zstd with
    | ok data => rfl
    | error e => rfl
  · rw [if_neg h1]
    simp only [Except.mapError, Except.ok_bind, h1, or_false, if_false]
    rfl

variable {b : Block}

omit [CidCrate] [CompressionCrate] [LawfulCidCrate] in
theorem checkedBlock_eq_ok_iff (hdef : IsDefault b) (hne : b.data ≠ []) {data : Bytes} :
    checkedBlock b.cid data = .ok b ↔ data = b.data ∧ b.data.length ≤ maxBlockSize := by
  rw [checkedBlock, Except.bind_eq_ok_iff]
  constructor
  · rintro ⟨block, hnew, hcid⟩
    obtain ⟨⟨-, hmax⟩, hblock⟩ := Block.new_eq_ok.mp hnew
    split at hcid
    · exact absurd hcid (by simp)
    · obtain rfl := Except.ok.inj hcid
      obtain rfl : block.data = data := congrArg Block.data hblock
      exact ⟨rfl, hmax⟩
  · rintro ⟨rfl, hmax⟩
    have hmin : minBlockSize ≤ b.data.length := List.length_pos_iff.mpr hne
    refine ⟨b, ?_, if_neg (by simp)⟩
    rw [Block.new_of_size hmin hmax, ← hdef]

/-- A section without a flag gives its block exactly when its data are free of flags. -/
theorem parseSection_legacy_iff (hdef : IsDefault b) (hne : b.data ≠ []) :
    CarReader.parseSection (CidCrate.toBytes b.cid ++ b.data) = .ok b ↔ FlagFree b.data := by
  obtain ⟨flag, rest, hdata⟩ := List.exists_cons_of_ne_nil hne
  have hchecked {data : Bytes} := @checkedBlock_eq_ok_iff _ _ b hdef hne data
  rw [hdata] at hchecked ⊢
  rw [parseSection_cons]
  by_cases h1 : flag = 1
  · -- the rest is decompressed
    subst h1
    rw [if_pos rfl, Except.bind_eq_ok_iff]
    constructor
    · rintro ⟨data, hdec, h⟩
      obtain ⟨rfl, hmax⟩ := hchecked.mp h
      refine ⟨hmax, by simp, fun rest' hrest => ?_⟩
      obtain rfl := (List.cons.inj hrest).2
      exact hdec
    · rintro ⟨hmax, -, hone⟩
      exact ⟨_, hone rest rfl, hchecked.mpr ⟨rfl, hmax⟩⟩
  · -- the data are taken as they are, up to a flag 0
    rw [if_neg h1, Except.ok_bind, hchecked]
    by_cases h0 : flag = 0
    · -- the first byte is lost
      subst h0
      rw [if_pos rfl]
      constructor
      · rintro ⟨hcons, -⟩
        exact absurd hcons.symm (List.cons_ne_self _ _)
      · rintro ⟨-, hzero, -⟩
        exact absurd rfl hzero
    · rw [if_neg h0]
      constructor
      · rintro ⟨-, hmax⟩
        refine ⟨hmax, by simpa using h0, fun rest' hrest => ?_⟩
        exact absurd (List.cons.inj hrest).1 h1
      · rintro ⟨hmax, -, -⟩
        exact ⟨rfl, hmax⟩

/-- **Archives without flags.** For every list of roots and every sequence of raw SHA2-256 blocks
with data (whose lengths a varint can hold), the reader gives back exactly these blocks if and only
if the data of every one are free of flags. -/
theorem car_legacy_iff {roots : List Cid} {blocks : List Block}
    (hlen : (encodeDagCbor (CarHeader.new roots).toIpld).length < 2 ^ 64)
    (hblocks : ∀ b ∈ blocks, IsDefault b ∧ b.data ≠ [])
    (hfit : ∀ b ∈ blocks, (CidCrate.toBytes b.cid ++ b.data).length < 2 ^ 64) :
    ReadsBack roots blocks (legacyArchive roots blocks) ↔ ∀ b ∈ blocks, FlagFree b.data := by
  rw [legacyArchive, readsBack_framed_iff hlen hfit]
  exact forall₂_congr fun b hb => parseSection_legacy_iff (hblocks b hb).1 (hblocks b hb).2

end Legacy

section Sample

open scoped CidReference

/-- The block that `Block::new` makes of one byte. -/
def byteBlock (byte : UInt8) : Block :=
  letI := CidReference.byteHash
  ⟨Cid.ofData Codec.raw .sha256 [byte], [byte]⟩

theorem car_truncated_byteBlocks :
    letI := CidReference.byteHash
    letI := noCompression
    let blocks := [byteBlock 1, byteBlock 2]
    ∃ w w', CarWriter.newWithOptions [] none = .ok w ∧
      blocks.foldlM CarWriter.writeBlock w = .ok w' ∧
      ∃ (r r' : CarReader) (k : ℕ) (hk : k < blocks.length) (rest : Bytes),
        CarReader.new w'.writer.dropLast = .ok r ∧ r.roots = [] ∧
        w'.writer.dropLast = w.writer ++ ((blocks.take k).map carSection).flatten ++ rest ∧
        rest <+: carSection blocks[k] ∧ rest ≠ carSection blocks[k] ∧
        CarReads r (blocks.take k) r' ∧ (∀ bs r'', CarReads r bs r'' → bs <+: blocks.take k) ∧
        ((rest = [] ∧ r'.readBlock = .ok (none, r')) ∨
          (rest ≠ [] ∧ ∃ e, r'.readBlock = .error e)) := by
  let := CidReference.byteHash
  let := noCompression
  intro blocks
  have hblocks : ∀ b ∈ blocks, Block.new b.data = .ok b := by decide +kernel
  have hsections : (blocks.map carSection).flatten ≠ [] := by simp [blocks, carSection]
  obtain ⟨w, hw, hheader, hcomp⟩ : ∃ w, CarWriter.newWithOptions [] none = .ok w ∧
    w.headerWritten = true ∧ w.compression = none := ⟨_, rfl, rfl, rfl⟩
  -- a writer without compression writes every block
  obtain ⟨w', hw', hwriter⟩ := foldlM_writeBlock hheader hcomp blocks
  have huncompressed : Uncompressed w := fun p hp => absurd hp (by simp [hcomp])
  have hpre : w.writer <+: w'.writer.dropLast := by
    rw [hwriter, List.dropLast_append_of_ne_nil hsections]
    exact List.prefix_append _ _
  have hproper : w'.writer.dropLast ≠ w'.writer := by
    intro h
    have hlen := congrArg List.length h
    have hpos : 0 < w'.writer.length := by
      rw [hwriter, List.length_append]
      exact Nat.add_pos_right _ (List.length_pos_iff.mpr hsections)
    rw [List.length_dropLast] at hlen
    omega
  exact ⟨w, w', hw, hw', car_truncated (by decide +kernel) hblocks hw huncompressed hw' hpre
    (List.dropLast_prefix _) hproper⟩

theorem car_legacy_byteBlock :
    letI := CidReference.byteHash
    letI := noCompression
    ReadsBack [] [byteBlock 2] (legacyArchive [] [byteBlock 2]) := by
  let := CidReference.byteHash
  let := noCompression
  have hblock : ∀ b ∈ [byteBlock 2], b = byteBlock 2 := fun b hb => List.mem_singleton.mp hb
  refine (car_legacy_iff (by decide +kernel) (fun b hb => ?_) fun b hb => ?_).mpr fun b hb => ?_
  · obtain rfl := hblock b hb
    exact ⟨rfl, by decide⟩
  · obtain rfl := hblock b hb
    decide +kernel
  · obtain rfl := hblock b hb
    exact ⟨by decide, by decide, fun rest h => absurd h (by simp [byteBlock])⟩

/-- A block whose data are the byte 0 is lost: the byte is taken for a flag, and nothing is left. -/
theorem not_forall_car_legacy :
    letI := CidReference.byteHash
    letI := noCompression
    ¬ ∀ (roots : List Cid) (blocks : List Block), (∀ b ∈ blocks, Block.new b.data = .ok b) →
      ReadsBack roots blocks (legacyArchive roots blocks) := by
  let := CidReference.byteHash
  let := noCompression
  intro hall
  have hblock : ∀ b ∈ [byteBlock 0], b = byteBlock 0 := fun b hb => List.mem_singleton.mp hb
  have hback := hall [] [byteBlock 0] fun b hb => by
    obtain rfl := hblock b hb
    decide +kernel
  rw [legacyArchive, readsBack_framed_iff (by decide +kernel) fun b hb => by
    obtain rfl := hblock b hb
    decide +kernel] at hback
  have hfree := (parseSection_legacy_iff (b := byteBlock 0) rfl (by decide)).mp
    (hback _ List.mem_cons_self)
  exact absurd rfl hfree.2.1

end Sample

end Ipfrs
