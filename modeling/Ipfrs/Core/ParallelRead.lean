import Ipfrs.Core.ParallelChunking

/-!
# Reading back what was chunked in parallel

The inner nodes of `ParallelChunker` are raw blocks, and `read_chunked_file` takes a raw block for a
piece of the file. So it returns the data of the block under the root, whatever that block is, and
follows no links.

* `readsBack_iff_root` — a file is read back if and only if it is the block under the root;
* `length_encode_groupNode_lt` — the node over the pieces of a file is shorter than the file, unless
  the pieces are very small;
* `readsBack_iff` — a file is read back when it is one piece, and not when there are several.
-/

namespace Ipfrs.ParallelChunker

section Read

variable [HashCrate] [CidCrate]

/-- The leaf blocks of the file, and one block for each node. -/
def fileBlocks (cfg : ParallelChunkingConfig) (data : Bytes) (result : ParallelChunkingResult) :
    List Block :=
  (ListChunks.chunks cfg.chunkSize data).map Chunker.leafBlock ++ result.dagNodes.map nodeBlock

/-- Reading the root of the stored file gives the file. -/
def ReadsBack [CidText] (cfg : ParallelChunkingConfig) (data : Bytes)
    (result : ParallelChunkingResult) : Prop :=
  ∃ n, ∀ fuel ≥ n, readChunkedFile fuel
    (MemoryBlockFetcher.new.addBlocks (fileBlocks cfg data result)) result.rootCid
      = some (.ok data)

/-! ### The block under the root -/

variable {cfg : ParallelChunkingConfig} {data : Bytes} {result : ParallelChunkingResult} {b : Block}
  {group : List Cid}

theorem cid_of_mem_fileBlocks (hb : b ∈ fileBlocks cfg data result) :
    b.cid = Cid.ofData Codec.raw .sha256 b.data := by
  rcases List.mem_append.mp hb with hb | hb
  · obtain ⟨d, -, rfl⟩ := List.mem_map.mp hb
    rfl
  · obtain ⟨node, -, rfl⟩ := List.mem_map.mp hb
    rfl

theorem readsBack_iff_root [CidText]
    (hfree : HashCrate.CollisionFree .sha256 { d | ∃ b ∈ fileBlocks cfg data result, b.data = d })
    (hb : b ∈ fileBlocks cfg data result) (hroot : b.cid = result.rootCid) :
    ReadsBack cfg data result ↔ b.data = data := by
  -- without collisions, a CID names one block
  have hinj : ∀ b ∈ fileBlocks cfg data result, ∀ b' ∈ fileBlocks cfg data result,
      b.cid = b'.cid → b = b' := by
    rintro ⟨cid, d⟩ hb ⟨cid', d'⟩ hb' heq
    have hdata := heq
    rw [cid_of_mem_fileBlocks hb, cid_of_mem_fileBlocks hb'] at hdata
    obtain rfl : cid = cid' := heq
    obtain rfl : d = d' := (hfree.eq_of_ofData ⟨_, hb, rfl⟩ ⟨_, hb', rfl⟩ hdata).2
    rfl
  have hfetch := MemoryBlockFetcher.fetch_addBlocks hinj hb
  have hraw : b.cid.codec = Codec.raw := by rw [cid_of_mem_fileBlocks hb, Cid.ofData_codec]
  -- the root is raw, so it is returned as the file
  have hread : ∀ fuel, readChunkedFile fuel
      (MemoryBlockFetcher.new.addBlocks (fileBlocks cfg data result)) result.rootCid
        = some (.ok b.data) := by
    intro fuel
    simp only [readChunkedFile, ← hroot, hfetch, if_pos hraw]
  constructor
  · rintro ⟨n, hn⟩
    have heq := (hread n).symm.trans (hn n le_rfl)
    exact Except.ok.inj (Option.some.inj heq)
  · rintro rfl
    exact ⟨0, fun fuel _ => hread fuel⟩

/-! ### The size of a node -/

/-- A CID that `Block::new` gives takes 36 bytes: the version, the codec, the hash code and the
length of the digest are one byte each. -/
def ShortCids : Prop :=
  ∀ d : Bytes, (CidCrate.toBytes (Cid.ofData Codec.raw .sha256 d)).length ≤ 36

omit [HashCrate] [CidCrate] in
theorem length_utf8_repr_le {k n : ℕ} (hn : n < 10 ^ (k + 1)) : (utf8 n.repr).length ≤ k + 1 := by
  have hdigit : ∀ d < 10, (utf8 d.repr).length = 1 := by decide
  induction k generalizing n with
  | zero => exact (hdigit n (by omega)).le
  | succ k ih =>
    by_cases hlt : n < 10
    · rw [hdigit n hlt]
      omega
    · have hhigh := ih (n := n / 10) (by omega)
      have hlow := hdigit (n % 10) (Nat.mod_lt n (by omega))
      rw [length_utf8] at hhigh hlow ⊢
      rw [Nat.repr_eq_repr_append_repr (by omega), String.utf8ByteSize_append]
      omega

omit [HashCrate] in
theorem length_encodeEntry_le (key : String) (x : Ipld) (rest : List (String × Ipld)) :
    (encodeEntries ((key, x) :: rest)).length
      ≤ 9 + key.utf8ByteSize + (encodeDagCbor x).length + (encodeEntries rest).length := by
  have hheader := length_encodeCborLength_le 3 (UInt64.ofNat (utf8 key).length)
  simp only [encodeEntries, List.length_append, length_utf8] at hheader ⊢
  omega

omit [HashCrate] in
theorem length_encodeMap_le (m : List (String × Ipld)) :
    (encodeDagCbor (.map m)).length ≤ 9 + (encodeEntries m).length := by
  rw [encodeDagCbor, List.length_append]
  exact Nat.add_le_add_right (length_encodeCborLength_le _ _) _

omit [HashCrate] [CidCrate] in
theorem length_encodeCborInteger_le (i : ℤ) : (encodeCborInteger i).length ≤ 9 := by
  unfold encodeCborInteger
  split <;> exact length_encodeCborLength_le _ _

/-- The link to a piece or a node, with a number of at most seven digits. -/
theorem length_encode_withName_le (hcids : ShortCids) {cid : Cid} (hraw : IsRaw cid) {idx : ℕ}
    (hidx : idx < 10 ^ 7) :
    (encodeDagCbor (DagLink.withName cid 0 ("chunk-" ++ toString idx)).toIpld).length ≤ 133 := by
  obtain ⟨d, rfl⟩ := hraw
  set cid := Cid.ofData Codec.raw .sha256 d with hcid
  set name := "chunk-" ++ toString idx with hname
  have hshape : (DagLink.withName cid 0 name).toIpld
      = .map [("cid", .link cid), ("name", .string name), ("size", .integer 0)] := rfl
  -- the three values of the link
  have hlink : (encodeDagCbor (.link cid)).length ≤ 55 := by
    have htag := length_encodeCborLength_le 6 cidTag
    have hheader :=
      length_encodeCborLength_le 2 (UInt64.ofNat (0x00 :: CidCrate.toBytes cid).length)
    have hbytes : (CidCrate.toBytes cid).length ≤ 36 := hcids d
    simp only [encodeDagCbor, encodeCborTag, List.length_append, List.length_cons] at hheader ⊢
    omega
  have hstring : (encodeDagCbor (.string name)).length ≤ 22 := by
    have hheader := length_encodeCborLength_le 3 (UInt64.ofNat (utf8 name).length)
    have hdigits := length_utf8_repr_le (k := 6) hidx
    have hlen : (utf8 name).length = 6 + (utf8 idx.repr).length := by
      rw [hname, length_utf8, String.utf8ByteSize_append]
      rfl
    simp only [encodeDagCbor, List.length_append]
    omega
  have hsize : (encodeDagCbor (.integer 0)).length ≤ 9 := length_encodeCborInteger_le 0
  -- the keys and the heads
  have hmap :=
    length_encodeMap_le [("cid", .link cid), ("name", .string name), ("size", .integer 0)]
  have h₁ := length_encodeEntry_le "cid" (.link cid) [("name", .string name), ("size", .integer 0)]
  have h₂ := length_encodeEntry_le "name" (.string name) [("size", .integer 0)]
  have h₃ := length_encodeEntry_le "size" (.integer 0) []
  rw [show "cid".utf8ByteSize = 3 by decide] at h₁
  rw [show "name".utf8ByteSize = 4 by decide] at h₂
  rw [show "size".utf8ByteSize = 4 by decide, encodeEntries, List.length_nil] at h₃
  rw [hshape]
  omega

omit [HashCrate] [CidCrate] in
theorem length_map_toIpld_groupNode (group : List Cid) :
    ((groupNode group).links.map DagLink.toIpld).length = group.length := by
  rw [List.length_map, groupNode, List.length_map, List.length_zipIdx]

theorem length_encode_groupNode_le (hcids : ShortCids) (hraw : ∀ c ∈ group, IsRaw c)
    (hlen : group.length ≤ 10 ^ 7) :
    (nodeBlock (groupNode group)).data.length ≤ 59 + 133 * group.length := by
  set links := (groupNode group).links.map DagLink.toIpld with hlinks
  have hcount : links.length = group.length := by rw [hlinks, length_map_toIpld_groupNode]
  have hshape : (groupNode group).toIpld
      = .map [("links", .list links), ("totalSize", .integer 0)] := rfl
  -- link by link
  have hitem : ∀ x ∈ links, (encodeDagCbor x).length ≤ 133 := by
    refine List.forall_mem_map.mpr (List.forall_mem_map.mpr ?_)
    rintro ⟨cid, idx⟩ hmem
    obtain ⟨-, hidx, -⟩ := List.mem_zipIdx hmem
    exact length_encode_withName_le hcids (hraw cid (List.fst_mem_of_mem_zipIdx hmem)) (by omega)
  have hitems : (encodeDagCbor (.list links)).length ≤ 9 + 133 * group.length := by
    have hheader := length_encodeCborLength_le 4 (UInt64.ofNat links.length)
    have hsum := length_encodeItems_le hitem
    rw [encodeDagCbor, List.length_append]
    omega
  have hsize : (encodeDagCbor (.integer 0)).length ≤ 9 := length_encodeCborInteger_le 0
  have hmap := length_encodeMap_le [("links", .list links), ("totalSize", .integer 0)]
  have h₁ := length_encodeEntry_le "links" (.list links) [("totalSize", .integer 0)]
  have h₂ := length_encodeEntry_le "totalSize" (.integer 0) []
  rw [show "links".utf8ByteSize = 5 by decide] at h₁
  rw [show "totalSize".utf8ByteSize = 9 by decide, encodeEntries, List.length_nil] at h₂
  rw [nodeBlock, hshape]
  dsimp only
  omega

theorem length_le_of_groupNode (group : List Cid) :
    group.length ≤ (nodeBlock (groupNode group)).data.length := by
  set links := (groupNode group).links.map DagLink.toIpld with hlinks
  have hcount : links.length = group.length := by rw [hlinks, length_map_toIpld_groupNode]
  have hshape : (groupNode group).toIpld
      = .map [("links", .list links), ("totalSize", .integer 0)] := rfl
  have hitems := length_le_encodeItems links
  rw [nodeBlock, hshape]
  simp only [encodeDagCbor, encodeEntries, List.length_append]
  omega

/-- **The node over the pieces of a file is shorter than the file**, if it is a block at all and the
pieces are not smaller than `with_chunk_size` allows. -/
theorem length_encode_groupNode_lt (hcids : ShortCids) {chunkSize : ℕ} (hraw : ∀ c ∈ group, IsRaw c)
    (hfits : (nodeBlock (groupNode group)).data.length ≤ maxBlockSize)
    (hlen : group.length ≤ (ListChunks.chunks chunkSize data).length)
    (hmany : chunkSize < data.length) (hmin : minChunkSize ≤ chunkSize) :
    (nodeBlock (groupNode group)).data.length < data.length := by
  have hmax : maxBlockSize ≤ 10 ^ 7 := by decide
  have hsmall := length_encode_groupNode_le hcids hraw
    ((length_le_of_groupNode group).trans (hfits.trans hmax))
  simp only [minChunkSize] at hmin
  have hcount := ListChunks.mul_length_chunks_lt (by omega : 0 < chunkSize) data
  set k := (ListChunks.chunks chunkSize data).length
  obtain _ | m := k
  · omega
  -- there are at most as many links as pieces, and a piece is longer than its link
  have hmul : 1024 * m ≤ chunkSize * m := Nat.mul_le_mul_right m hmin
  rw [Nat.mul_succ] at hcount
  omega

/-! ### Which files are read back -/

/-- **A file in one piece is read back, and a file in several pieces is not.** The second condition
is for chunk sizes that `with_chunk_size` refuses: pieces so small that the node over them may be as
long as the file, and a file that is the topmost node over its own pieces. -/
theorem readsBack_iff [CidText] {fuel : ℕ} (hne : data ≠ [])
    (h : chunkParallel fuel cfg data = some (.ok result)) (hcids : ShortCids)
    (hfree : HashCrate.CollisionFree .sha256
      { d | ∃ b ∈ fileBlocks cfg data result, b.data = d }) :
    ReadsBack cfg data result ↔ data.length ≤ cfg.chunkSize ∨
      cfg.chunkSize < minChunkSize ∧ ∃ group, TopGroup cfg.maxLinksPerNode
          ((ListChunks.chunks cfg.chunkSize data).map fun d => (Chunker.leafBlock d).cid) group ∧
        (nodeBlock (groupNode group)).data = data := by
  obtain ⟨hpos, -, ⟨hone, hroot⟩ | ⟨hmany, hparent⟩⟩ := chunkParallel_eq_ok hne h
  · -- the root is the file
    have hmem : Chunker.leafBlock data ∈ fileBlocks cfg data result := by
      rw [fileBlocks, ListChunks.chunks_of_length_le hne hone]
      exact List.mem_cons_self
    rw [readsBack_iff_root hfree hmem hroot.symm]
    exact ⟨fun _ => Or.inl hone, fun _ => rfl⟩
  · -- the root is a node
    obtain ⟨group, htop, hnode, hroot, hfits, hlen, hraw⟩ := hparent
    have hmem : nodeBlock (groupNode group) ∈ fileBlocks cfg data result :=
      List.mem_append_right _ (List.mem_map_of_mem hnode)
    rw [List.length_map] at hlen
    rw [readsBack_iff_root hfree hmem hroot]
    constructor
    · intro hdata
      refine Or.inr ⟨?_, group, htop, hdata⟩
      by_contra hbig
      have hlt := length_encode_groupNode_lt hcids hraw hfits hlen hmany (Nat.le_of_not_lt hbig)
      rw [hdata] at hlt
      exact absurd hlt (Nat.lt_irrefl _)
    · rintro (hone | ⟨-, group', htop', hdata⟩)
      · omega
      · rwa [htop.unique htop']

end Read

section Sample

open scoped CidReference

/-- The SHA2-256 digests of the blocks that `chunk_parallel` makes of `zeros` at chunk size 1024. -/
def parallelDigest (data : Bytes) : Bytes :=
  if data.length = 1024 ∨ data.length = 1 then zerosDigest data
  else
    BigEndian.encode 32 0xa0a58e7a326c7889bbdf54aa03e10bff50844e1ab94a58e315d391a3b50fdb3a

theorem length_parallelDigest (data : Bytes) : (parallelDigest data).length = 32 := by
  unfold parallelDigest
  split
  · exact length_zerosDigest data
  · rfl

/-- The hash crate on these blocks. -/
@[reducible]
def parallelHash : HashCrate := CidReference.hashOf parallelDigest length_parallelDigest

/-- The node over the two pieces of `zeros`. -/
def zerosNode : DagNode :=
  letI := parallelHash
  groupNode [(Chunker.leafBlock (List.replicate 1024 0)).cid, (Chunker.leafBlock [0]).cid]

/-- What `chunk_parallel` makes of `zeros`. -/
def zerosResult : ParallelChunkingResult :=
  letI := parallelHash
  { rootCid := (nodeBlock zerosNode).cid
    chunkCount := 2
    totalBytes := 1025
    dedupStats := ⟨2, 2, 0, 1025, 1025⟩
    chunkCids := [(Chunker.leafBlock (List.replicate 1024 0)).cid, (Chunker.leafBlock [0]).cid]
    dagNodes := [zerosNode] }

variable {sha256 : Bytes → Bytes}

theorem collisionFree_of_blocks (hlen : ∀ d, (sha256 d).length = 32) {blocks : List Block}
    (hdistinct : ∀ b ∈ blocks, ∀ b' ∈ blocks, sha256 b.data = sha256 b'.data → b.data = b'.data) :
    letI := CidReference.hashOf sha256 hlen
    HashCrate.CollisionFree .sha256 { d | ∃ b ∈ blocks, b.data = d } := by
  rintro d ⟨b, hb, rfl⟩ d' ⟨b', hb', rfl⟩ heq
  exact hdistinct b hb b' hb' (congrArg Subtype.val heq)

theorem shortCids_hashOf (hlen : ∀ d, (sha256 d).length = 32) :
    letI := CidReference.hashOf sha256 hlen
    ShortCids :=
  fun d => (CidReference.length_toBytes_hashOf hlen (by decide) d).le

theorem readsBack_one :
    letI := CidReference.byteHash
    ∃ result, chunkParallel 2 { chunkSize := 1024 } [1] = some (.ok result) ∧
      ReadsBack { chunkSize := 1024 } [1] result := by
  let := CidReference.byteHash
  let result : ParallelChunkingResult :=
    { rootCid := (Chunker.leafBlock [1]).cid
      chunkCount := 1
      totalBytes := 1
      dedupStats := ⟨1, 1, 0, 1, 1⟩
      chunkCids := [(Chunker.leafBlock [1]).cid]
      dagNodes := [] }
  have hchunk : chunkParallel 2 { chunkSize := 1024 } [1] = some (.ok result) := by
    decide +kernel
  have hfree : HashCrate.CollisionFree .sha256
      { d | ∃ b ∈ fileBlocks { chunkSize := 1024 } [1] result, b.data = d } :=
    collisionFree_of_blocks CidReference.length_byteDigest (by decide +kernel)
  have hiff := readsBack_iff (by decide) hchunk (shortCids_hashOf _) hfree
  exact ⟨result, hchunk, hiff.mpr (Or.inl (by decide))⟩

/-- Of `zeros` in two pieces, the DAG-CBOR bytes of the root are read. -/
theorem not_forall_readsBack :
    letI := parallelHash
    ¬ ∀ (fuel : ℕ) (cfg : ParallelChunkingConfig) (data : Bytes)
        (result : ParallelChunkingResult), data ≠ [] → 2 ≤ cfg.maxLinksPerNode →
      chunkParallel fuel cfg data = some (.ok result) →
        HashCrate.CollisionFree .sha256 { d | ∃ b ∈ fileBlocks cfg data result, b.data = d } →
          ReadsBack cfg data result := by
  let := parallelHash
  intro h
  have hchunk : chunkParallel 3 { chunkSize := 1024 } zeros = some (.ok zerosResult) := by
    decide +kernel
  have hfree : HashCrate.CollisionFree .sha256
      { d | ∃ b ∈ fileBlocks { chunkSize := 1024 } zeros zerosResult, b.data = d } :=
    collisionFree_of_blocks length_parallelDigest (by decide +kernel)
  have hread := h 3 { chunkSize := 1024 } zeros zerosResult (by decide) (by decide) hchunk hfree
  have hmem : nodeBlock zerosNode ∈ fileBlocks { chunkSize := 1024 } zeros zerosResult := by
    decide +kernel
  have hdata := (readsBack_iff_root hfree hmem rfl).mp hread
  exact absurd (congrArg List.length hdata) (by decide +kernel)

end Sample

end Ipfrs.ParallelChunker
