import Ipfrs.Core.BlockCache
import Ipfrs.Storage.BlockStore

/-!
# Deduplication

The `DedupBlockStore` of `ipfrs-storage/src/dedup.rs`, over any block store.

A block is cut where a rolling hash of its bytes hits a mask, the chunks are kept in the inner store
under their own CIDs, with a reference count each, and a manifest says which chunks make up the
block. A `DashMap` has no order of its own; here it is a list in the order of iteration.

Counters are natural numbers, and subtraction on them saturates, as in the source. The one
subtraction that does not is the one in `find_boundary`.
-/

namespace Ipfrs.Storage

/-! ### Chunks -/

structure ChunkingConfig where
  minChunkSize : ℕ := 256 * 1024
  targetChunkSize : ℕ := 1024 * 1024
  maxChunkSize : ℕ := 4 * 1024 * 1024
  hashMask : UInt32 := 0xFFFF

namespace Chunker

/-- The FNV prime. -/
def prime : UInt64 := 0x01000193

/-- The scan of `find_boundary`, over the bytes from `idx` on. -/
def scan (ncLevel : ℕ) (maskS maskL : UInt64) : Bytes → ℕ → UInt64 → Option ℕ
  | [], _, _ => none
  | byte :: bytes, idx, hash =>
    let hash := hash * prime ^^^ byte.toUInt64
    let mask := if idx < ncLevel then maskS else maskL
    if hash &&& mask = 0 then some (idx + 1)
    else scan ncLevel maskS maskL bytes (idx + 1) hash

def findBoundary (config : ChunkingConfig) (data : Bytes) : Except Fault ℕ := do
  let maxScan := min config.maxChunkSize data.length
  let minSize := min config.minChunkSize data.length
  let span ← subU64 config.targetChunkSize minSize
  let ncLevel := minSize + span / 4
  let maskS := config.hashMask.toUInt64
  let maskL := (config.hashMask >>> 1).toUInt64
  let scanned := (data.drop minSize).take (maxScan - minSize)
  return (scan ncLevel maskS maskL scanned minSize 0).getD maxScan

/-- One round of the loop of `chunk`, on the data from `start` on and the chunks so far. -/
def chunkStep (config : ChunkingConfig) :
    Bytes × List Bytes → (Bytes × List Bytes) ⊕ Except Fault (List Bytes)
  | ([], chunks) => .inr (.ok chunks)
  | (rest, chunks) =>
    if rest.length ≤ config.minChunkSize then .inr (.ok (chunks ++ [rest]))
    else
      match findBoundary config rest with
      | .error f => .inr (.error f)
      | .ok boundary => .inl (rest.drop boundary, chunks ++ [rest.take boundary])

/-- `chunk`, with at most `fuel` rounds of its loop. -/
def chunk (config : ChunkingConfig) (fuel : ℕ) (data : Bytes) :
    Option (Except Fault (List Bytes)) :=
  if data.length ≤ config.minChunkSize then some (.ok [data])
  else WhileLoop.run (chunkStep config) fuel (data, [])

end Chunker

/-! ### The store -/

structure ChunkMeta where
  cid : Cid
  refCount : ℕ
  size : ℕ

structure BlockManifest where
  originalSize : ℕ
  chunks : List Cid

structure DedupStats where
  blocksStored : ℕ := 0
  bytesOriginal : ℕ := 0
  bytesStored : ℕ := 0
  uniqueChunks : ℕ := 0
  duplicateChunksAvoided : ℕ := 0
  deriving DecidableEq, Repr

structure DedupBlockStore (S : Type) where
  inner : S
  config : ChunkingConfig
  chunkIndex : AList fun _ : Cid => ChunkMeta
  manifests : AList fun _ : Cid => BlockManifest
  stats : DedupStats

namespace DedupBlockStore

variable {S : Type}

def new (inner : S) (config : ChunkingConfig) : DedupBlockStore S where
  inner := inner
  config := config
  chunkIndex := ∅
  manifests := ∅
  stats := {}

section Model

variable [BlockStore S] [HashCrate]

variable (st : DedupBlockStore S)

/-- A chunk that is there already: one more reference. -/
def addReference (chunkCid : Cid) (info : ChunkMeta) : DedupBlockStore S :=
  { st with
    chunkIndex := st.chunkIndex.insert chunkCid { info with refCount := info.refCount + 1 }
    stats := { st.stats with duplicateChunksAvoided := st.stats.duplicateChunksAvoided + 1 } }

/-- A chunk that has just been put into the inner store. -/
def addChunk (inner : S) (chunkCid : Cid) (size : ℕ) : DedupBlockStore S :=
  { st with
    inner := inner
    chunkIndex := st.chunkIndex.insert chunkCid ⟨chunkCid, 1, size⟩
    stats := { st.stats with
      uniqueChunks := st.stats.uniqueChunks + 1
      bytesStored := st.stats.bytesStored + size } }

def storeChunk (chunkData : Bytes) : DedupBlockStore S × Except Error Cid :=
  match Block.new chunkData with
  | .error e => (st, .error e)
  | .ok chunkBlock =>
    match st.chunkIndex.lookup chunkBlock.cid with
    | some info => (st.addReference chunkBlock.cid info, .ok info.cid)
    | none =>
      match BlockStore.put st.inner chunkBlock with
      | .error e => (st, .error e)
      | .ok inner => (st.addChunk inner chunkBlock.cid chunkData.length, .ok chunkBlock.cid)

/-- The loop of `put` over the chunks. -/
def storeChunks : List Bytes → List Cid → DedupBlockStore S →
    DedupBlockStore S × Except Error (List Cid)
  | [], chunkCids, st => (st, .ok chunkCids)
  | chunk :: chunks, chunkCids, st =>
    match st.storeChunk chunk with
    | (st, .error e) => (st, .error e)
    | (st, .ok cid) => storeChunks chunks (chunkCids ++ [cid]) st

/-- The end of `put`: the manifest and the statistics. -/
def addManifest (blockCid : Cid) (manifest : BlockManifest) : DedupBlockStore S :=
  { st with
    manifests := st.manifests.insert blockCid manifest
    stats := { st.stats with
      blocksStored := st.stats.blocksStored + 1
      bytesOriginal := st.stats.bytesOriginal + manifest.originalSize } }

/-- `put`, with at most `fuel` rounds of the chunker. -/
def put (fuel : ℕ) (block : Block) : Option (DedupBlockStore S × Except Fault Unit) :=
  if block.cid ∈ st.manifests then some (st, .ok ())
  else
    (Chunker.chunk st.config fuel block.data).map fun
      | .error f => (st, .error f)
      | .ok chunks =>
        match storeChunks chunks [] st with
        | (st, .error e) => (st, .error (.error e))
        | (st, .ok chunkCids) => (st.addManifest block.cid ⟨block.data.length, chunkCids⟩, .ok ())

/-- The loop of `reconstruct_block` over the chunks. -/
def readChunks [CidText] (st : DedupBlockStore S) : List Cid → Bytes → Except Error Bytes
  | [], data => .ok data
  | chunkCid :: chunkCids, data =>
    match BlockStore.get st.inner chunkCid with
    | .error e => .error e
    | .ok none => .error (.blockNotFound (CidText.toString chunkCid))
    | .ok (some chunkBlock) => readChunks st chunkCids (data ++ chunkBlock.data)

def reconstructBlock [CidText] (st : DedupBlockStore S) (manifest : BlockManifest) :
    Except Error Block := do
  let data ← st.readChunks manifest.chunks []
  Block.new data

def get [CidText] (st : DedupBlockStore S) (cid : Cid) : Except Error (Option Block) :=
  match st.manifests.lookup cid with
  | none => .ok none
  | some manifest => (st.reconstructBlock manifest).map some

omit [BlockStore S] [HashCrate] in
/-- The loop of `decrement_chunk_refs` over the chunks of a block, with the chunks to delete. -/
def decrementRefs : List Cid → DedupBlockStore S × List Cid → DedupBlockStore S × List Cid
  | [], walk => walk
  | cid :: cids, (st, toDelete) =>
    match st.chunkIndex.lookup cid with
    | none => decrementRefs cids (st, toDelete)
    | some info =>
      let info := { info with refCount := info.refCount - 1 }
      decrementRefs cids
        ({ st with chunkIndex := st.chunkIndex.insert cid info },
          if info.refCount = 0 then toDelete ++ [cid] else toDelete)

omit [HashCrate] in
/-- The loop of `decrement_chunk_refs` over the chunks to delete. -/
def removeChunks : List Cid → DedupBlockStore S → DedupBlockStore S × Except Error Unit
  | [], st => (st, .ok ())
  | cid :: cids, st =>
    match st.chunkIndex.lookup cid with
    | none => removeChunks cids st
    | some info =>
      let st := { st with chunkIndex := st.chunkIndex.erase cid }
      match BlockStore.delete st.inner cid with
      | .error e => (st, .error e)
      | .ok inner =>
        removeChunks cids
          { st with
            inner := inner
            stats := { st.stats with
              uniqueChunks := st.stats.uniqueChunks - 1
              bytesStored := st.stats.bytesStored - info.size } }

omit [HashCrate] in
def decrementChunkRefs (chunkCids : List Cid) : DedupBlockStore S × Except Error Unit :=
  let (st, toDelete) := decrementRefs chunkCids (st, [])
  removeChunks toDelete st

omit [HashCrate] in
def delete (cid : Cid) : DedupBlockStore S × Except Error Unit :=
  match st.manifests.lookup cid with
  | none => (st, .ok ())
  | some manifest =>
    match decrementChunkRefs { st with manifests := st.manifests.erase cid } manifest.chunks with
    | (st, .error e) => (st, .error e)
    | (st, .ok ()) =>
      ({ st with
        stats := { st.stats with
          blocksStored := st.stats.blocksStored - 1
          bytesOriginal := st.stats.bytesOriginal - manifest.originalSize } }, .ok ())

end Model

def listCids (st : DedupBlockStore S) : List Cid := st.manifests.keys

end DedupBlockStore

end Ipfrs.Storage
