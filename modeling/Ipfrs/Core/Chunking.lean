import Ipfrs.Lib.ListChunks
import Ipfrs.Lib.WhileLoop
import Ipfrs.Core.Block
import Ipfrs.Core.DagCbor

/-!
# Chunking

Splitting a file into blocks and linking them into a Merkle DAG (`ipfrs-core/src/chunking.rs`).

`Chunker.chunk` cuts the data (`ChunkingConfig.chunkSlices`), makes one raw leaf block for each
piece (`leafStep`) and then groups links into DAG-CBOR nodes, level by level, until one link is left
(`levelStep`). The level loop is a `while` of the source with no bound of its own, so it runs on
fuel.

* `RabinChunker.findBoundaries_spec` — the boundaries increase and end at the end of the data.
* `chunkSlices_flatten` — both strategies cut the data into pieces that make it up again.

The savings percentage of the statistics is a float and is left out.
-/

namespace Ipfrs

/-! ### Configuration -/

/-- `DEFAULT_CHUNK_SIZE`: 256 KiB. -/
def defaultChunkSize : ℕ := 256 * 1024

/-- `MIN_CHUNK_SIZE`: 1 KiB. -/
def minChunkSize : ℕ := 1024

/-- `MAX_CHUNK_SIZE`: 1 MiB. -/
def maxChunkSize : ℕ := 1024 * 1024

/-- `MAX_LINKS_PER_NODE`. -/
def maxLinksPerNode : ℕ := 174

inductive ChunkingStrategy where
  | fixedSize
  | contentDefined
  deriving DecidableEq, Repr

/-- `ChunkingConfig`, with the values of its `Default`. -/
structure ChunkingConfig where
  chunkSize : ℕ := defaultChunkSize
  strategy : ChunkingStrategy := .fixedSize
  maxLinksPerNode : ℕ := maxLinksPerNode
  deriving DecidableEq, Repr

/-! ### Content-defined boundaries -/

/-- `u64::rotate_left(1)`. -/
def rotateLeft1 (x : UInt64) : UInt64 := x <<< 1 ||| x >>> 63

structure RabinChunker where
  targetSize : ℕ
  minSize : ℕ
  maxSize : ℕ
  polynomial : UInt64
  windowSize : ℕ
  /-- A boundary falls where the masked hash is zero. -/
  mask : UInt64
  deriving DecidableEq, Repr

namespace RabinChunker

/-- `RabinChunker::new`. The number of mask bits is the floor of a floating-point `log2`, which is
exact for the target sizes of a configuration. `maxSize` is a natural number: the product overflows
a `usize` for targets from 2^62 on, and the constructors of a configuration stop at 1 MiB. -/
def new (targetSize : ℕ) : RabinChunker where
  targetSize := targetSize
  minSize := targetSize / 4
  maxSize := targetSize * 4
  polynomial := 0x3DA3358B4DC173
  windowSize := 48
  mask := (1 <<< UInt64.ofNat (Nat.log2 targetSize)) - 1

/-- `out_table`: what a byte that leaves the window contributed to the hash. -/
def outTable (r : RabinChunker) (byte : UInt8) : UInt64 :=
  (fun val => rotateLeft1 val ^^^ r.polynomial)^[r.windowSize] byte.toUInt64

def inTable (byte : UInt8) : UInt64 := byte.toUInt64

/-- The variables of the loop of `find_boundaries`. -/
structure Scan where
  boundaries : List ℕ
  hash : UInt64
  window : List UInt8
  windowPos : ℕ
  lastBoundary : ℕ

/-- The variables at the start of the loop. -/
def Scan.init (r : RabinChunker) : Scan where
  boundaries := []
  hash := 0
  window := List.replicate r.windowSize 0
  windowPos := 0
  lastBoundary := 0

/-- The body of the loop of `find_boundaries`, on the byte at position `i`. -/
def scanByte (r : RabinChunker) (s : Scan) (byte : UInt8) (i : ℕ) : Scan :=
  let outByte := s.window.getD s.windowPos 0
  let window := s.window.set s.windowPos byte
  let windowPos := (s.windowPos + 1) % r.windowSize
  -- the byte that leaves the window is cancelled, the new one comes in
  let hash := rotateLeft1 s.hash ^^^ r.outTable outByte ^^^ inTable byte
  let chunkSize := i - s.lastBoundary
  if chunkSize ≥ r.minSize then
    if chunkSize ≥ r.maxSize then
      -- a forced boundary also forgets the window
      ⟨s.boundaries ++ [i], 0, List.replicate window.length 0, 0, i⟩
    else if hash &&& r.mask = 0 then ⟨s.boundaries ++ [i], hash, window, windowPos, i⟩
    else ⟨s.boundaries, hash, window, windowPos, s.lastBoundary⟩
  else ⟨s.boundaries, hash, window, windowPos, s.lastBoundary⟩

/-- The loop of `find_boundaries`, over the bytes from position `i` on. -/
def scanFrom (r : RabinChunker) : ℕ → Bytes → Scan → Scan
  | _, [], s => s
  | i, byte :: rest, s => r.scanFrom (i + 1) rest (r.scanByte s byte i)

/-- `find_boundaries`: the end positions of the chunks. -/
def findBoundaries (r : RabinChunker) (data : Bytes) : List ℕ :=
  if data.length ≤ r.minSize then [data.length]
  else
    let s := r.scanFrom 0 data (Scan.init r)
    -- the last chunk ends with the data
    if s.lastBoundary < data.length then s.boundaries ++ [data.length] else s.boundaries

end RabinChunker

/-! ### Cutting the data -/

/-- `slice::chunks`. -/
def sliceChunks {α : Type} (n : ℕ) (l : List α) : Except Fault (List (List α)) :=
  if n = 0 then .error (.panic "chunk size must be non-zero") else .ok (ListChunks.chunks n l)

/-- The slices `data[start..end]` between the boundaries, from `start` on. -/
def slicesAt (data : Bytes) (start : ℕ) : List ℕ → Except Fault (List Bytes)
  | [] => .ok []
  | stop :: rest =>
    if start > stop then
      .error (.panic ("slice index starts at " ++ toString start ++ " but ends at "
        ++ toString stop))
    else if stop > data.length then
      .error (.panic ("range end index " ++ toString stop ++ " out of range for slice of length "
        ++ toString data.length))
    else do
      let slices ← slicesAt data stop rest
      return (data.drop start).take (stop - start) :: slices

/-- The `chunk_slices` of `Chunker::chunk`. -/
def ChunkingConfig.chunkSlices (cfg : ChunkingConfig) (data : Bytes) :
    Except Fault (List Bytes) :=
  match cfg.strategy with
  | .fixedSize => sliceChunks cfg.chunkSize data
  | .contentDefined => slicesAt data 0 ((RabinChunker.new cfg.chunkSize).findBoundaries data)

/-! ### Nodes of the DAG -/

structure DagLink where
  cid : Cid
  size : UInt64
  name : Option String := none
  deriving DecidableEq

def DagLink.new (cid : Cid) (size : UInt64) : DagLink := { cid, size }

structure DagNode where
  links : List DagLink
  totalSize : UInt64
  data : Option Bytes := none
  deriving DecidableEq

def DagNode.intermediate (links : List DagLink) : DagNode where
  links := links
  totalSize := (links.map DagLink.size).sum

/-- The map that `DagNode::to_ipld` makes of one link. -/
def DagLink.toIpld (link : DagLink) : Ipld :=
  let linkMap := SortedMap.insert "cid" (Ipld.link link.cid) []
  let linkMap := SortedMap.insert "size" (Ipld.integer link.size.toNat) linkMap
  match link.name with
  | some name => .map (SortedMap.insert "name" (.string name) linkMap)
  | none => .map linkMap

def DagNode.toIpld (node : DagNode) : Ipld :=
  let map := SortedMap.insert "links" (Ipld.list (node.links.map DagLink.toIpld)) []
  let map := SortedMap.insert "totalSize" (Ipld.integer node.totalSize.toNat) map
  match node.data with
  | some data => .map (SortedMap.insert "data" (.bytes data) map)
  | none => .map map

def DagNode.toDagCbor [CidCrate] (node : DagNode) : Except Error Bytes := node.toIpld.toDagCbor

/-! ### The chunker -/

/-- `DeduplicationStats`, without the savings percentage. -/
structure DeduplicationStats where
  totalChunks : ℕ
  uniqueChunks : ℕ
  reusedChunks : ℕ
  totalDataSize : UInt64
  deduplicatedSize : UInt64
  deriving DecidableEq, Repr

structure ChunkedFile where
  rootCid : Cid
  blocks : List Block
  totalSize : UInt64
  chunkCount : ℕ
  dedupStats : Option DeduplicationStats
  deriving DecidableEq

namespace Chunker

section Model

variable [HashCrate]

/-- The variables of the loop that makes the leaf blocks. `seenCids` is a `HashMap` from CIDs to
chunk lengths. -/
structure Leaves where
  leafBlocks : List Block := []
  leafLinks : List DagLink := []
  seenCids : List (Cid × ℕ) := []

/-- The body of that loop. -/
def leafStep (st : Leaves) (chunk : Bytes) : Except Error Leaves := do
  let block ← Block.new chunk
  return {
    leafBlocks := st.leafBlocks ++ [block]
    leafLinks := st.leafLinks ++ [DagLink.new block.cid (UInt64.ofNat chunk.length)]
    -- `entry(cid).or_insert(len)` keeps the first length
    seenCids := if (st.seenCids.lookup block.cid).isSome then st.seenCids
      else st.seenCids ++ [(block.cid, chunk.length)] }

/-- The statistics of the leaves. -/
def dedupStats (chunkCount : ℕ) (data : Bytes) (seenCids : List (Cid × ℕ)) :
    DeduplicationStats where
  totalChunks := chunkCount
  uniqueChunks := seenCids.length
  reusedChunks := chunkCount - seenCids.length
  totalDataSize := UInt64.ofNat data.length
  deduplicatedSize := (seenCids.map fun e => UInt64.ofNat e.2).sum

variable [CidCrate]

/-- One node of the next level, with the link to it. -/
def levelNode (linkChunk : List DagLink) : Except Error (Block × DagLink) := do
  let node := DagNode.intermediate linkChunk
  let nodeBytes ← node.toDagCbor
  if nodeBytes.length > maxBlockSize then
    .error (.internal "DAG node too large, reduce max_links_per_node")
  else
    let block ← BlockBuilder.build { cidBuilder := { codec := Codec.dagCbor } } nodeBytes
    return (block, DagLink.new block.cid node.totalSize)

/-- The nodes of the next level, one for each group of links. -/
def levelNodes : List (List DagLink) → Except Error (List Block × List DagLink)
  | [] => .ok ([], [])
  | linkChunk :: rest => do
    let (block, link) ← levelNode linkChunk
    let (blocks, links) ← levelNodes rest
    return (block :: blocks, link :: links)

/-- One round of `while current_links.len() > 1`, on `all_blocks` and `current_links`. The loop
leaves with the root CID and all blocks. -/
def levelStep (maxLinks : ℕ) :
    List Block × List DagLink → (List Block × List DagLink) ⊕ Except Fault (Cid × List Block)
  | (allBlocks, currentLinks) =>
    if currentLinks.length > 1 then
      -- `chunks` panics on a group size of zero
      match sliceChunks maxLinks currentLinks >>= fun groups => liftResult (levelNodes groups) with
      | .ok (nextBlocks, nextLinks) => .inl (allBlocks ++ nextBlocks, nextLinks)
      | .error f => .inr (.error f)
    else
      -- `current_links[0].cid`
      match currentLinks with
      | root :: _ => .inr (.ok (root.cid, allBlocks))
      | [] => .inr (.error (.panic "index out of bounds: the len is 0 but the index is 0"))

/-- `Chunker::chunk`, with at most `fuel` rounds of the level loop. -/
def chunk (fuel : ℕ) (cfg : ChunkingConfig) (data : Bytes) : Option (Except Fault ChunkedFile) :=
  if data = [] then some (.error (.error (.invalidInput "Cannot chunk empty data")))
  else if data.length ≤ cfg.chunkSize then
    some <| liftResult do
      let block ← Block.new data
      return {
        rootCid := block.cid
        blocks := [block]
        totalSize := UInt64.ofNat data.length
        chunkCount := 1
        dedupStats := some ⟨1, 1, 0, UInt64.ofNat data.length, UInt64.ofNat data.length⟩ }
  else
    match cfg.chunkSlices data with
    | .error f => some (.error f)
    | .ok chunkSlices =>
      match chunkSlices.foldlM leafStep {} with
      | .error e => some (.error (.error e))
      | .ok leaves =>
        (WhileLoop.run (levelStep cfg.maxLinksPerNode) fuel
            (leaves.leafBlocks, leaves.leafLinks)).map fun r =>
          r.map fun (rootCid, allBlocks) => {
            rootCid := rootCid
            blocks := allBlocks
            totalSize := UInt64.ofNat data.length
            chunkCount := chunkSlices.length
            dedupStats := some (dedupStats chunkSlices.length data leaves.seenCids) }

end Model

end Chunker

/-! ### The boundaries -/

variable {data : Bytes} {start stop : ℕ}

/-- The bytes between two places, and those from the second place on. -/
theorem take_append_drop_between (h : start ≤ stop) :
    (data.drop start).take (stop - start) ++ data.drop stop = data.drop start := by
  have hdrop : data.drop stop = (data.drop start).drop (stop - start) := by
    rw [List.drop_drop, Nat.add_sub_cancel' h]
  rw [hdrop, List.take_append_drop]

theorem slicesAt_cons_eq_ok {rest : List ℕ} {slices : List Bytes} :
    slicesAt data start (stop :: rest) = .ok slices ↔
      start ≤ stop ∧ stop ≤ data.length ∧ ∃ tail, slicesAt data stop rest = .ok tail ∧
        slices = (data.drop start).take (stop - start) :: tail := by
  rw [slicesAt]
  split
  · simp only [reduceCtorEq, false_iff]
    omega
  split
  · simp only [reduceCtorEq, false_iff]
    omega
  · next hle hdata =>
    constructor
    · intro h
      obtain ⟨tail, htail, hslices⟩ := Except.bind_eq_ok_iff.mp h
      exact ⟨by omega, by omega, tail, htail, (Except.ok.inj hslices).symm⟩
    · rintro ⟨-, -, tail, htail, rfl⟩
      rw [htail]
      rfl

/-- `bs` leads from `start` to `stop` in steps of at least `lo` and at most `hi`. -/
def Spaced (lo hi : ℕ) : ℕ → List ℕ → ℕ → Prop
  | start, [], stop => start = stop
  | start, b :: bs, stop => start + lo ≤ b ∧ b ≤ start + hi ∧ Spaced lo hi b bs stop

namespace Spaced

variable {lo hi start stop : ℕ} {bs : List ℕ}

theorem concat (h : Spaced lo hi start bs stop) {b : ℕ} (hlo : stop + lo ≤ b)
    (hhi : b ≤ stop + hi) : Spaced lo hi start (bs ++ [b]) b := by
  induction bs generalizing start with
  | nil =>
    obtain rfl : start = stop := h
    exact ⟨hlo, hhi, rfl⟩
  | cons c bs ih =>
    obtain ⟨h₁, h₂, h₃⟩ := h
    exact ⟨h₁, h₂, ih h₃⟩

theorem of_le {lo' : ℕ} (h : Spaced lo hi start bs stop) (hlo : lo' ≤ lo) :
    Spaced lo' hi start bs stop := by
  induction bs generalizing start with
  | nil => exact h
  | cons c bs ih =>
    obtain ⟨h₁, h₂, h₃⟩ := h
    exact ⟨by omega, h₂, ih h₃⟩

theorem start_le (h : Spaced lo hi start bs stop) : start ≤ stop := by
  induction bs generalizing start with
  | nil => exact h.le
  | cons c bs ih =>
    obtain ⟨h₁, -, h₃⟩ := h
    -- the first step does not go back, and neither do the others
    have := ih h₃
    omega

/-- Slices between boundaries that do not go back are in range, and make up what lies between the
first and the last boundary. -/
theorem slicesAt_eq_ok {data : Bytes} (h : Spaced lo hi start bs stop)
    (hstop : stop ≤ data.length) :
    ∃ slices, slicesAt data start bs = .ok slices ∧
      slices.flatten ++ data.drop stop = data.drop start := by
  induction bs generalizing start with
  | nil =>
    obtain rfl : start = stop := h
    exact ⟨[], rfl, rfl⟩
  | cons b bs ih =>
    obtain ⟨h₁, -, h₃⟩ := h
    have hb : b ≤ stop := h₃.start_le
    obtain ⟨slices, hs, hflat⟩ := ih h₃
    refine ⟨_, slicesAt_cons_eq_ok.mpr ⟨by omega, by omega, slices, hs, rfl⟩, ?_⟩
    -- the slice up to `b`, and what the slices after `b` make up
    rw [List.flatten_cons, List.append_assoc, hflat, take_append_drop_between (by omega)]

end Spaced

namespace RabinChunker

/-- What the loop of `find_boundaries` knows before the byte at position `i`. -/
structure ScanInv (r : RabinChunker) (i : ℕ) (s : Scan) : Prop where
  spaced : Spaced r.minSize r.maxSize 0 s.boundaries s.lastBoundary
  last_le : s.lastBoundary ≤ i - 1
  le_max : i ≤ s.lastBoundary + r.maxSize

variable {r : RabinChunker}

theorem ScanInv.init (r : RabinChunker) : ScanInv r 0 (Scan.init r) :=
  ⟨rfl, Nat.le_refl _, Nat.zero_le _⟩

variable {i : ℕ} {s : Scan}

/-- A boundary is set when the chunk is long enough, and at the latest when it is as long as it may
get. -/
theorem ScanInv.scanByte (hmin : r.minSize ≤ r.maxSize) (hmax : 0 < r.maxSize) (hI : ScanInv r i s)
    (byte : UInt8) : ScanInv r (i + 1) (r.scanByte s byte i) := by
  obtain ⟨hsp, hlast, hle⟩ := hI
  unfold RabinChunker.scanByte
  dsimp only
  split
  · -- the chunk is long enough: a boundary here would be in order
    next hge =>
    have hcut : Spaced r.minSize r.maxSize 0 (s.boundaries ++ [i]) i :=
      hsp.concat (by omega) hle
    split
    · exact ⟨hcut, by simp, by simp only; omega⟩
    · -- not forced, so it depends on the hash
      next hlt =>
      split
      · exact ⟨hcut, by simp, by simp only; omega⟩
      · exact ⟨hsp, by simp only; omega, by simp only; omega⟩
  · -- too short: the loop goes on
    exact ⟨hsp, by simp only; omega, by simp only; omega⟩

theorem ScanInv.scanFrom (hmin : r.minSize ≤ r.maxSize) (hmax : 0 < r.maxSize) (hI : ScanInv r i s)
    (data : Bytes) : ScanInv r (i + data.length) (r.scanFrom i data s) := by
  induction data generalizing i s with
  | nil => exact hI
  | cons byte data ih =>
    have h := ih (hI.scanByte hmin hmax byte)
    rwa [Nat.add_assoc, Nat.add_comm 1] at h

/-- **Boundaries of content-defined chunks.** They increase in steps of at least `minSize` and at
most `maxSize`; only the last step, to the end of the data, may be shorter. -/
theorem findBoundaries_spec (hmin : r.minSize ≤ r.maxSize) (hmax : 0 < r.maxSize) {data : Bytes}
    (hne : data ≠ []) :
    ∃ bs last, r.findBoundaries data = bs ++ [data.length] ∧
      Spaced r.minSize r.maxSize 0 bs last ∧ last < data.length ∧
        data.length ≤ last + r.maxSize := by
  have hpos : 0 < data.length := List.length_pos_iff.mpr hne
  unfold findBoundaries
  split
  · -- a short file is one chunk
    exact ⟨[], 0, rfl, rfl, hpos, by omega⟩
  · -- the loop has not passed the end, so the end is one more boundary
    have hI := (ScanInv.init r).scanFrom hmin hmax data
    have hlast := hI.last_le
    have hle := hI.le_max
    rw [Nat.zero_add] at hlast hle
    dsimp only
    rw [if_pos (by omega)]
    exact ⟨_, _, rfl, hI.spaced, by omega, hle⟩

end RabinChunker

/-- **Both strategies cut the data into pieces that make it up again**, without a panic. -/
theorem ChunkingConfig.chunkSlices_flatten {cfg : ChunkingConfig} (hsize : 0 < cfg.chunkSize)
    (hne : data ≠ []) : ∃ slices, cfg.chunkSlices data = .ok slices ∧ slices.flatten = data := by
  unfold ChunkingConfig.chunkSlices
  cases cfg.strategy with
  | fixedSize =>
    refine ⟨_, if_neg (by omega), ?_⟩
    exact ListChunks.flatten_chunks _ _
  | contentDefined =>
    have hnew : (RabinChunker.new cfg.chunkSize).minSize = cfg.chunkSize / 4 ∧
        (RabinChunker.new cfg.chunkSize).maxSize = cfg.chunkSize * 4 := ⟨rfl, rfl⟩
    obtain ⟨bs, last, hbs, hsp, hlt, hle⟩ :=
      @RabinChunker.findBoundaries_spec (RabinChunker.new cfg.chunkSize) (by omega) (by omega) _ hne
    -- the last chunk may be short, so the lower bound is dropped before the end is added
    have hall := (hsp.of_le (Nat.zero_le _)).concat hlt.le hle
    obtain ⟨slices, hs, hflat⟩ := hall.slicesAt_eq_ok (Nat.le_refl _)
    refine ⟨slices, by rw [hbs, hs], ?_⟩
    simpa using hflat

/-! ### One level of the DAG -/

namespace Chunker

variable [HashCrate]

/-- The block that `Block::new` makes of a chunk. -/
def leafBlock (chunk : Bytes) : Block := ⟨Cid.ofData Codec.raw .sha256 chunk, chunk⟩

/-- The link that the leaf loop pushes for a chunk. -/
def leafLink (chunk : Bytes) : DagLink :=
  DagLink.new (leafBlock chunk).cid (UInt64.ofNat chunk.length)

variable {st st' : Leaves} {n fuel : ℕ} {blocks blocks' : List Block} {links : List DagLink}
  {cfg : ChunkingConfig} {data : Bytes} {file : ChunkedFile}

theorem leafStep_eq_ok {chunk : Bytes} (h : leafStep st chunk = .ok st') :
    (minBlockSize ≤ chunk.length ∧ chunk.length ≤ maxBlockSize) ∧
      st'.leafBlocks = st.leafBlocks ++ [leafBlock chunk] ∧
        st'.leafLinks = st.leafLinks ++ [leafLink chunk] := by
  obtain ⟨block, hb, h⟩ := Except.bind_eq_ok_iff.mp h
  obtain ⟨hsize, rfl⟩ := Block.new_eq_ok.mp hb
  obtain rfl := Except.ok.inj h
  exact ⟨hsize, rfl, rfl⟩

/-- The leaf loop makes one block and one link for each chunk, in order. -/
theorem foldlM_leafStep_eq_ok {chunks : List Bytes} (h : chunks.foldlM leafStep st = .ok st') :
    st'.leafBlocks = st.leafBlocks ++ chunks.map leafBlock ∧
      st'.leafLinks = st.leafLinks ++ chunks.map leafLink := by
  induction chunks generalizing st with
  | nil =>
    obtain rfl := Except.ok.inj h
    simp
  | cons chunk chunks ih =>
    rw [List.foldlM_cons] at h
    obtain ⟨st₁, h₁, h⟩ := Except.bind_eq_ok_iff.mp h
    obtain ⟨-, hblocks, hlinks⟩ := leafStep_eq_ok h₁
    obtain ⟨hblocks', hlinks'⟩ := ih h
    rw [hblocks', hlinks', hblocks, hlinks]
    simp

variable [CidCrate]

/-- The block of a node over the links `linkChunk`. -/
def nodeBlock (linkChunk : List DagLink) : Block :=
  let bytes := encodeDagCbor (DagNode.intermediate linkChunk).toIpld
  ⟨Cid.ofData Codec.dagCbor .sha256 bytes, bytes⟩

/-- The link to that node. -/
def nodeLink (linkChunk : List DagLink) : DagLink :=
  DagLink.new (nodeBlock linkChunk).cid (DagNode.intermediate linkChunk).totalSize

theorem levelNode_eq_ok {linkChunk : List DagLink} {p : Block × DagLink}
    (h : levelNode linkChunk = .ok p) :
    (nodeBlock linkChunk).data.length ≤ maxBlockSize ∧
      p = (nodeBlock linkChunk, nodeLink linkChunk) := by
  obtain ⟨bytes, hbytes, h⟩ := Except.bind_eq_ok_iff.mp h
  obtain rfl : encodeDagCbor (DagNode.intermediate linkChunk).toIpld = bytes :=
    Except.ok.inj hbytes
  split at h
  · exact absurd h (by simp)
  · next hle =>
    obtain ⟨block, hb, h⟩ := Except.bind_eq_ok_iff.mp h
    obtain ⟨-, hcid, hdata⟩ := BlockBuilder.build_eq_ok.mp hb
    -- the builder has the DAG-CBOR codec and the default version
    rw [CidBuilder.build_v1 rfl, Except.ok.injEq] at hcid
    obtain rfl : block = nodeBlock linkChunk := by
      obtain ⟨cid, data⟩ := block
      subst hdata hcid
      rfl
    exact ⟨Nat.le_of_not_lt hle, (Except.ok.inj h).symm⟩

/-- A level has one block and one link for each group of links, in order. -/
theorem levelNodes_eq_ok {groups : List (List DagLink)} {p : List Block × List DagLink}
    (h : levelNodes groups = .ok p) :
    (∀ g ∈ groups, (nodeBlock g).data.length ≤ maxBlockSize) ∧
      p = (groups.map nodeBlock, groups.map nodeLink) := by
  induction groups generalizing p with
  | nil => exact ⟨by simp, (Except.ok.inj h).symm⟩
  | cons g groups ih =>
    obtain ⟨q, hq, h⟩ := Except.bind_eq_ok_iff.mp h
    obtain ⟨hg, rfl⟩ := levelNode_eq_ok hq
    obtain ⟨q', hq', h⟩ := Except.bind_eq_ok_iff.mp h
    obtain ⟨hgs, rfl⟩ := ih hq'
    refine ⟨List.forall_mem_cons.mpr ⟨hg, hgs⟩, (Except.ok.inj h).symm⟩

/-! ### The level loop -/

/-- **What one round of the level loop can do.** -/
theorem levelStep_eq_inl {links' : List DagLink}
    (h : levelStep n (blocks, links) = .inl (blocks', links')) :
    1 < links.length ∧ (∀ g ∈ ListChunks.chunks n links, (nodeBlock g).data.length ≤ maxBlockSize) ∧
      blocks' = blocks ++ (ListChunks.chunks n links).map nodeBlock ∧
        links' = (ListChunks.chunks n links).map nodeLink := by
  simp only [levelStep] at h
  split at h
  · -- more than one link: a level is made of them
    next hlen =>
    split at h
    · next nextBlocks nextLinks hr =>
      obtain ⟨groups, hgroups, hr⟩ := Except.bind_eq_ok_iff.mp hr
      unfold sliceChunks at hgroups
      split at hgroups
      · -- groups of zero links are a panic
        exact absurd hgroups (by simp)
      · obtain rfl := Except.ok.inj hgroups
        obtain ⟨hsize, hp⟩ := levelNodes_eq_ok (liftResult_eq_ok.mp hr)
        obtain ⟨rfl, rfl⟩ := Prod.mk.inj hp
        obtain ⟨rfl, rfl⟩ := Prod.mk.inj (Sum.inl.inj h)
        exact ⟨hlen, hsize, rfl, rfl⟩
    · exact absurd h (by simp)
  · split at h <;> exact absurd h (by simp)

theorem levelStep_eq_inr_ok {root : Cid}
    (h : levelStep n (blocks, links) = .inr (.ok (root, blocks'))) :
    ∃ link, links = [link] ∧ root = link.cid ∧ blocks' = blocks := by
  simp only [levelStep] at h
  split at h
  · split at h <;> simp at h
  · next hlen =>
    obtain _ | ⟨link, _ | ⟨link', links⟩⟩ := links
    · simp at h
    · simp only [Sum.inr.injEq, Except.ok.injEq, Prod.mk.injEq] at h
      exact ⟨link, rfl, h.1.symm, h.2.symm⟩
    · simp at hlen

/-- A file that is longer than a chunk is cut, and its leaves go into the level loop. -/
theorem chunk_eq_ok_of_lt (hlong : cfg.chunkSize < data.length) :
    chunk fuel cfg data = some (.ok file) ↔
      ∃ slices leaves root blocks, cfg.chunkSlices data = .ok slices ∧
        slices.foldlM leafStep {} = .ok leaves ∧
        WhileLoop.run (levelStep cfg.maxLinksPerNode) fuel (leaves.leafBlocks, leaves.leafLinks)
          = some (.ok (root, blocks)) ∧
        file = ⟨root, blocks, UInt64.ofNat data.length, slices.length,
          some (dedupStats slices.length data leaves.seenCids)⟩ := by
  have hne : data ≠ [] := by
    rintro rfl
    exact absurd hlong (Nat.not_lt_zero _)
  rw [chunk, if_neg hne, if_neg (Nat.not_le_of_lt hlong)]
  constructor
  · intro h
    -- every step of `chunk` has succeeded
    cases hs : cfg.chunkSlices data with
    | error f => simp [hs] at h
    | ok slices =>
      cases hl : slices.foldlM leafStep {} with
      | error e => simp [hs, hl] at h
      | ok leaves =>
        simp only [hs, hl, Option.map_eq_some_iff] at h
        obtain ⟨r, hr, h⟩ := h
        cases r with
        | error f => simp [Except.map] at h
        | ok p => exact ⟨slices, leaves, p.1, p.2, rfl, hl, hr, (Except.ok.inj h).symm⟩
  · rintro ⟨slices, leaves, root, blocks, hs, hl, hr, rfl⟩
    simp only [hs, hl, hr]
    rfl

/-- How a file gets chunked: as one block, or as the leaves of a DAG. -/
theorem chunk_eq_ok (h : chunk fuel cfg data = some (.ok file)) :
    data ≠ [] ∧
      ((file.rootCid = (leafBlock data).cid ∧ file.blocks = [leafBlock data]) ∨
        ∃ slices, cfg.chunkSlices data = .ok slices ∧
          WhileLoop.run (levelStep cfg.maxLinksPerNode) fuel
              (slices.map leafBlock, slices.map leafLink)
            = some (.ok (file.rootCid, file.blocks))) := by
  by_cases hne : data = []
  · rw [chunk, if_pos hne] at h
    exact absurd h (by simp)
  refine ⟨hne, ?_⟩
  by_cases hlen : data.length ≤ cfg.chunkSize
  · -- a small file is one block
    rw [chunk, if_neg hne, if_pos hlen, Option.some.injEq, liftResult_eq_ok] at h
    obtain ⟨block, hb, h⟩ := Except.bind_eq_ok_iff.mp h
    obtain ⟨-, rfl⟩ := Block.new_eq_ok.mp hb
    obtain rfl := Except.ok.inj h
    exact Or.inl ⟨rfl, rfl⟩
  · obtain ⟨slices, leaves, root, blocks, hs, hl, hr, rfl⟩ :=
      (chunk_eq_ok_of_lt (Nat.lt_of_not_le hlen)).mp h
    obtain ⟨hblocks, hlinks⟩ := foldlM_leafStep_eq_ok hl
    rw [hblocks, hlinks] at hr
    exact Or.inr ⟨slices, hs, hr⟩

end Chunker

end Ipfrs
