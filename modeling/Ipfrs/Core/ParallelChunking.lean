import Mathlib.Data.List.Enum
import Ipfrs.Core.ChunkRead

/-!
# Parallel chunking

`ParallelChunker` (`ipfrs-core/src/parallel_chunking.rs`).

It cuts a file into pieces of one size and builds a DAG over them, as `Chunker` does with a fixed
size, and differs in what the inner nodes are: their links have names and no sizes, and their blocks
come from `Block::new`, under the raw codec.

* `chunkParallel_eq_ok` — a file of one piece has that piece for its root, and over several pieces
  the root is the CID of a node.

Threads do not show in a result: what they make is collected in the order of the pieces. Where
several of them fail, any one of the errors may be returned; here it is the first.
-/

namespace Ipfrs

/-! ### Configuration and result -/

/-- `ParallelChunkingConfig`, with the values of its `Default`. Only the chunk size and the number
of links are ever read. -/
structure ParallelChunkingConfig where
  chunkSize : ℕ := defaultChunkSize
  strategy : ChunkingStrategy := .fixedSize
  maxLinksPerNode : ℕ := maxLinksPerNode
  hashAlgorithm : HashAlgorithm := .sha256
  numThreads : Option ℕ := none
  deriving DecidableEq, Repr

def ParallelChunkingConfig.withChunkSize (chunkSize : ℕ) :
    Except Error ParallelChunkingConfig :=
  if chunkSize < minChunkSize then
    .error (.invalidInput ("Chunk size " ++ toString chunkSize ++ " is below minimum "
      ++ toString minChunkSize))
  else if chunkSize > maxBlockSize then
    .error (.invalidInput ("Chunk size " ++ toString chunkSize ++ " exceeds maximum "
      ++ toString maxBlockSize))
  else .ok { chunkSize := chunkSize }

/-- `ParallelChunkingResult`, without the duration. -/
structure ParallelChunkingResult where
  rootCid : Cid
  chunkCount : ℕ
  totalBytes : ℕ
  dedupStats : DeduplicationStats
  chunkCids : List Cid
  dagNodes : List DagNode
  deriving DecidableEq

structure DagBuildResult where
  rootCid : Cid
  nodes : List DagNode

def DagLink.withName (cid : Cid) (size : UInt64) (name : String) : DagLink where
  cid := cid
  size := size
  name := some name

/-! ### The chunker -/

namespace ParallelChunker

/-- One round of the loop of `calculate_chunk_ranges`, on `offset` and `ranges`. -/
def rangeStep (chunkSize dataLen : ℕ) :
    ℕ × List (ℕ × ℕ) → (ℕ × List (ℕ × ℕ)) ⊕ List (ℕ × ℕ)
  | (offset, ranges) =>
    if offset < dataLen then
      -- the sum is below `usize::MAX`: past the first round, `chunk_size` is below `data_len`
      let stop := min (offset + chunkSize) dataLen
      .inl (stop, ranges ++ [(offset, stop)])
    else .inr ranges

/-- `calculate_chunk_ranges`, with at most `fuel` rounds of its loop. -/
def calculateChunkRanges (fuel : ℕ) (cfg : ParallelChunkingConfig) (dataLen : ℕ) :
    Option (List (ℕ × ℕ)) :=
  WhileLoop.run (rangeStep cfg.chunkSize dataLen) fuel (0, [])

/-- The slice `data[start..end]`. -/
def slice (data : Bytes) (range : ℕ × ℕ) : Except Fault Bytes :=
  if range.1 > range.2 then
    .error (.panic ("slice index starts at " ++ toString range.1 ++ " but ends at "
      ++ toString range.2))
  else if range.2 > data.length then
    .error (.panic ("range end index " ++ toString range.2 ++ " out of range for slice of length "
      ++ toString data.length))
  else .ok ((data.drop range.1).take (range.2 - range.1))

/-- The CIDs of a group, each under a link with the number that it has in the group. -/
def groupNode (group : List Cid) : DagNode where
  links := group.zipIdx.map fun (cid, idx) =>
    DagLink.withName cid 0 ("chunk-" ++ toString idx)
  totalSize := 0

section Model

variable [HashCrate]

/-- The entry of `chunk_results` for one range; `mapErr` is what becomes of an error. -/
def chunkEntry (mapErr : Error → Error) (data : Bytes) (range : ℕ × ℕ) :
    Except Fault (Cid × ℕ) := do
  let chunkData ← slice data range
  let block ← liftResult ((Block.new chunkData).mapError mapErr)
  return (block.cid, block.data.length)

/-- The closure of `chunk_parallel`. -/
def parallelEntry (data : Bytes) : ℕ × ℕ → Except Fault (Cid × ℕ) :=
  chunkEntry (fun e => .invalidData e.display) data

/-- The body of the loop of `chunk_sequential`. -/
def sequentialEntry (data : Bytes) : ℕ × ℕ → Except Fault (Cid × ℕ) := chunkEntry id data

variable [CidCrate]

/-- The closure of `build_dag_parallel`: the parent of a group. -/
def parentNode (group : List Cid) : Except Error (Cid × DagNode) := do
  let node := groupNode group
  let cbor ← node.toIpld.toDagCbor.mapError fun e => .serialization e.display
  let block ← (Block.new cbor).mapError fun e => .invalidData e.display
  return (block.cid, node)

/-- One round of `while current_level.len() > 1`, on `current_level` and `all_nodes`. -/
def buildStep (maxLinks : ℕ) :
    List Cid × List DagNode → (List Cid × List DagNode) ⊕ Except Fault DagBuildResult
  | (currentLevel, allNodes) =>
    if currentLevel.length > 1 then
      match sliceChunks maxLinks currentLevel >>= fun groups =>
          liftResult (groups.mapM parentNode) with
      | .ok parentResults =>
        .inl (parentResults.map Prod.fst, allNodes ++ parentResults.map Prod.snd)
      | .error f => .inr (.error f)
    else
      -- `current_level[0]`
      match currentLevel with
      | rootCid :: _ => .inr (.ok ⟨rootCid, allNodes⟩)
      | [] => .inr (.error (.panic "index out of bounds: the len is 0 but the index is 0"))

/-- `build_dag_parallel`, with at most `fuel` rounds of its loop. -/
def buildDagParallel (fuel : ℕ) (cfg : ParallelChunkingConfig) (chunks : List (Cid × ℕ)) :
    Option (Except Fault DagBuildResult) :=
  match chunks with
  | [] => some (.error (.error (.invalidInput "no chunks to build DAG from")))
  | [chunk] => some (.ok ⟨chunk.1, []⟩)
  | chunks => WhileLoop.run (buildStep cfg.maxLinksPerNode) fuel (chunks.map Prod.fst, [])

/-- What `chunk_parallel` and `chunk_sequential` do; `entry` is what they make of a range. -/
def chunkWith (entry : ℕ × ℕ → Except Fault (Cid × ℕ)) (fuel : ℕ) (cfg : ParallelChunkingConfig)
    (data : Bytes) : Option (Except Fault ParallelChunkingResult) :=
  match calculateChunkRanges fuel cfg data.length with
  | none => none
  | some chunkRanges =>
    match chunkRanges.mapM entry with
    | .error f => some (.error f)
    | .ok chunks =>
      (buildDagParallel fuel cfg chunks).map fun r => r.map fun dagResult => {
        rootCid := dagResult.rootCid
        chunkCount := chunks.length
        totalBytes := data.length
        dedupStats := ⟨chunks.length, chunks.length, 0, UInt64.ofNat data.length,
          UInt64.ofNat data.length⟩
        chunkCids := chunks.map Prod.fst
        dagNodes := dagResult.nodes }

def chunkSequential (fuel : ℕ) (cfg : ParallelChunkingConfig) (data : Bytes) :
    Option (Except Fault ParallelChunkingResult) :=
  chunkWith (sequentialEntry data) fuel cfg data

def chunkParallel (fuel : ℕ) (cfg : ParallelChunkingConfig) (data : Bytes) :
    Option (Except Fault ParallelChunkingResult) :=
  if data.length < 1000000 then chunkSequential fuel cfg data
  else chunkWith (parallelEntry data) fuel cfg data

/-- The block that `build_dag_parallel` creates for a node. -/
def nodeBlock (node : DagNode) : Block :=
  let cbor := encodeDagCbor node.toIpld
  ⟨Cid.ofData Codec.raw .sha256 cbor, cbor⟩

end Model

/-! ### The pieces of the file -/

/-- The ranges are those of pieces of one length. With a chunk size of zero the loop goes round at
one offset for ever. -/
theorem run_rangeStep {chunkSize : ℕ} {data : Bytes} {fuel offset : ℕ} {ranges out : List (ℕ × ℕ)}
    (h : WhileLoop.run (rangeStep chunkSize data.length) fuel (offset, ranges) = some out)
    (hle : offset ≤ data.length) :
    (offset < data.length → 0 < chunkSize) ∧ ∃ rest, out = ranges ++ rest ∧
      rest.mapM (slice data) = .ok (ListChunks.chunks chunkSize (data.drop offset)) := by
  induction fuel generalizing offset ranges with
  | zero => exact absurd h (by simp [WhileLoop.run])
  | succ fuel ih =>
    by_cases hlt : offset < data.length
    · set stop := min (offset + chunkSize) data.length with hstop
      have hstep : rangeStep chunkSize data.length (offset, ranges)
          = .inl (stop, ranges ++ [(offset, stop)]) := by
        rw [rangeStep, if_pos hlt]
      rw [WhileLoop.run_succ_of_next hstep] at h
      obtain ⟨hsize, rest, rfl, hrest⟩ := ih h (by omega)
      have hpos : 0 < chunkSize := by
        by_contra hzero
        exact hzero (hsize (by omega))
      refine ⟨fun _ => hpos, (offset, stop) :: rest, by simp, ?_⟩
      -- the slice up to `stop` is the first piece of what is left
      have hslice : slice data (offset, stop) = .ok ((data.drop offset).take chunkSize) := by
        have htake : (data.drop offset).take (stop - offset)
            = (data.drop offset).take chunkSize := by
          refine List.take_eq_take_iff.mpr ?_
          rw [List.length_drop]
          omega
        rw [slice, if_neg (by omega), if_neg (by omega), htake]
      have hdrop : data.drop stop = (data.drop offset).drop chunkSize := by
        rw [List.drop_drop]
        refine List.drop_eq_drop_iff.mpr ?_
        omega
      have hne : data.drop offset ≠ [] := by
        rw [← List.length_pos_iff, List.length_drop]
        omega
      rw [List.mapM_cons, hslice, Except.ok_bind, hrest, Except.ok_bind, hdrop,
        ListChunks.chunks_eq hpos hne]
      rfl
    · have hstep : rangeStep chunkSize data.length (offset, ranges) = .inr ranges := by
        rw [rangeStep, if_neg hlt]
      rw [WhileLoop.run_succ_of_done hstep] at h
      obtain rfl := Option.some.inj h
      refine ⟨fun hlt' => absurd hlt' hlt, [], (List.append_nil _).symm, ?_⟩
      rw [List.drop_of_length_le (by omega), ListChunks.chunks_nil]
      rfl

section Spec

variable [HashCrate]
variable {mapErr : Error → Error} {data : Bytes} {n maxLinks fuel : ℕ} {level level' : List Cid}
  {nodes nodes' : List DagNode} {result : DagBuildResult} {cfg : ParallelChunkingConfig}

theorem chunkEntry_eq_ok {chunk : Bytes} {range : ℕ × ℕ} {entry : Cid × ℕ}
    (hslice : slice data range = .ok chunk) (h : chunkEntry mapErr data range = .ok entry) :
    entry = ((Chunker.leafBlock chunk).cid, chunk.length) := by
  rw [chunkEntry, hslice, Except.ok_bind] at h
  obtain ⟨block, hblock, h⟩ := Except.bind_eq_ok_iff.mp h
  obtain rfl := Except.ok.inj h
  rw [liftResult_eq_ok] at hblock
  cases hnew : Block.new chunk with
  | error e =>
    rw [hnew] at hblock
    exact absurd hblock (by simp [Except.mapError])
  | ok b =>
    rw [hnew] at hblock
    obtain rfl := Except.ok.inj hblock
    obtain ⟨-, rfl⟩ := Block.new_eq_ok.mp hnew
    rfl

theorem mapM_chunkEntry_eq_ok {ranges : List (ℕ × ℕ)} {slices : List Bytes}
    {chunks : List (Cid × ℕ)} (hslices : ranges.mapM (slice data) = .ok slices)
    (h : ranges.mapM (chunkEntry mapErr data) = .ok chunks) :
    chunks = slices.map fun chunk => ((Chunker.leafBlock chunk).cid, chunk.length) := by
  induction ranges generalizing slices chunks with
  | nil =>
    obtain rfl := Except.ok.inj hslices
    obtain rfl := Except.ok.inj h
    rfl
  | cons range ranges ih =>
    rw [List.mapM_cons] at hslices h
    obtain ⟨chunk, hchunk, hslices⟩ := Except.bind_eq_ok_iff.mp hslices
    obtain ⟨rest, hrest, hslices⟩ := Except.bind_eq_ok_iff.mp hslices
    obtain ⟨entry, hentry, h⟩ := Except.bind_eq_ok_iff.mp h
    obtain ⟨entries, hentries, h⟩ := Except.bind_eq_ok_iff.mp h
    obtain rfl := Except.ok.inj hslices
    obtain rfl := Except.ok.inj h
    rw [List.map_cons, chunkEntry_eq_ok hchunk hentry, ih hrest hentries]

/-! ### The loop of `build_dag_parallel` -/

variable [CidCrate]

theorem parentNode_eq_ok {group : List Cid} {p : Cid × DagNode} (h : parentNode group = .ok p) :
    (nodeBlock (groupNode group)).data.length ≤ maxBlockSize ∧
      p = ((nodeBlock (groupNode group)).cid, groupNode group) := by
  obtain ⟨cbor, hcbor, h⟩ := Except.bind_eq_ok_iff.mp h
  obtain rfl : encodeDagCbor (groupNode group).toIpld = cbor := Except.ok.inj hcbor
  obtain ⟨block, hblock, h⟩ := Except.bind_eq_ok_iff.mp h
  obtain rfl := Except.ok.inj h
  cases hnew : Block.new (encodeDagCbor (groupNode group).toIpld) with
  | error e =>
    rw [hnew] at hblock
    exact absurd hblock (by simp [Except.mapError])
  | ok b =>
    rw [hnew] at hblock
    obtain rfl := Except.ok.inj hblock
    obtain ⟨⟨-, hsize⟩, rfl⟩ := Block.new_eq_ok.mp hnew
    exact ⟨hsize, rfl⟩

/-- **What one round of the loop can do.** -/
theorem buildStep_eq_inl (h : buildStep n (level, nodes) = .inl (level', nodes')) :
    0 < n ∧ 1 < level.length ∧
      (∀ g ∈ ListChunks.chunks n level, (nodeBlock (groupNode g)).data.length ≤ maxBlockSize) ∧
        level' = (ListChunks.chunks n level).map (fun g => (nodeBlock (groupNode g)).cid) ∧
          nodes' = nodes ++ (ListChunks.chunks n level).map groupNode := by
  simp only [buildStep] at h
  split at h
  · next hlen =>
    split at h
    · next parentResults hr =>
      -- every group has become a parent
      obtain ⟨groups, hgroups, hr⟩ := Except.bind_eq_ok_iff.mp hr
      unfold sliceChunks at hgroups
      split at hgroups
      · exact absurd hgroups (by simp)
      next hn =>
        obtain rfl := Except.ok.inj hgroups
        obtain ⟨hsize, rfl⟩ :=
          Except.mapM_eq_ok_map (fun _ _ => parentNode_eq_ok) (liftResult_eq_ok.mp hr)
        obtain ⟨rfl, rfl⟩ := Prod.mk.inj (Sum.inl.inj h)
        refine ⟨Nat.pos_of_ne_zero hn, hlen, hsize, ?_, ?_⟩
        · rw [List.map_map]
          rfl
        · rw [List.map_map]
          rfl
    · exact absurd h (by simp)
  · split at h <;> exact absurd h (by simp)

theorem buildStep_eq_inr_ok (h : buildStep n (level, nodes) = .inr (.ok result)) :
    level = [result.rootCid] ∧ result.nodes = nodes := by
  simp only [buildStep] at h
  split at h
  · split at h <;> simp at h
  · next hlen =>
    obtain _ | ⟨rootCid, _ | ⟨cid, level⟩⟩ := level
    · simp at h
    · obtain rfl := Except.ok.inj (Sum.inr.inj h)
      exact ⟨rfl, rfl⟩
    · simp at hlen

/-- `c` is the CID of a block that `Block::new` makes. -/
def IsRaw (c : Cid) : Prop := ∃ data, c = Cid.ofData Codec.raw .sha256 data

/-- The group under the root of a tree with these leaves, whose nodes have at most `maxLinks` links:
the leaves, if one node is enough for them, and else the group over the nodes that they are cut
into. -/
inductive TopGroup (maxLinks : ℕ) : List Cid → List Cid → Prop
  | here {leaves : List Cid} (many : 1 < leaves.length) (few : leaves.length ≤ maxLinks) :
    TopGroup maxLinks leaves leaves
  | up {leaves group : List Cid} (more : maxLinks < leaves.length)
    (top : TopGroup maxLinks ((ListChunks.chunks maxLinks leaves).map fun g =>
      (nodeBlock (groupNode g)).cid) group) : TopGroup maxLinks leaves group

theorem TopGroup.unique {leaves group group' : List Cid} (h : TopGroup maxLinks leaves group)
    (h' : TopGroup maxLinks leaves group') : group = group' := by
  induction h with
  | here many few =>
    cases h' with
    | here => rfl
    | up more => exact absurd few (Nat.not_le.mpr more)
  | up more top ih =>
    cases h' with
    | here _ few => exact absurd few (Nat.not_le.mpr more)
    | up _ top' => exact ih top'

/-- `c` is the CID of one of the nodes, the one over the topmost group. The group has no more CIDs
than there are leaves, and they are those of blocks that `Block::new` makes. -/
def IsParent (maxLinks : ℕ) (leaves : List Cid) (nodes : List DagNode) (c : Cid) : Prop :=
  ∃ group, TopGroup maxLinks leaves group ∧ groupNode group ∈ nodes ∧
    (nodeBlock (groupNode group)).cid = c ∧
      (nodeBlock (groupNode group)).data.length ≤ maxBlockSize ∧ group.length ≤ leaves.length ∧
        ∀ c' ∈ group, IsRaw c'

/-- What the loop knows when it has started with these leaves: the topmost group over a level is
that over the leaves, and when one CID is left, it is that of its node. -/
structure BuildInv (maxLinks : ℕ) (leaves level : List Cid) (nodes : List DagNode) : Prop where
  length_le : level.length ≤ leaves.length
  isRaw : ∀ c ∈ level, IsRaw c
  top : ∀ group, TopGroup maxLinks level group → TopGroup maxLinks leaves group
  isParent : level.length = 1 → ∀ c ∈ level, IsParent maxLinks leaves nodes c

theorem BuildInv.next {leaves : List Cid} (hI : BuildInv maxLinks leaves level nodes)
    (hstep : buildStep maxLinks (level, nodes) = .inl (level', nodes')) :
    BuildInv maxLinks leaves level' nodes' := by
  obtain ⟨hle, hraw, htop, -⟩ := hI
  obtain ⟨hpos, hmany, hsize, rfl, rfl⟩ := buildStep_eq_inl hstep
  have hne : level ≠ [] := List.ne_nil_of_length_pos (by omega)
  refine ⟨?_, List.forall_mem_map.mpr fun g _ => ⟨_, rfl⟩, fun group hgroup => ?_, fun hone => ?_⟩
  · rw [List.length_map]
    exact (ListChunks.length_chunks_le _ _).trans hle
  · by_cases hfew : level.length ≤ maxLinks
    · -- one CID is left, over which there is no group
      rw [ListChunks.chunks_of_length_le hne hfew] at hgroup
      cases hgroup with
      | here many => exact absurd many (by simp)
      | up more => exact absurd more (by simp; omega)
    · exact htop group (.up (Nat.not_le.mp hfew) hgroup)
  · have hfew : level.length ≤ maxLinks := by
      by_contra hmore
      have hrest : level.drop maxLinks ≠ [] := by
        rw [← List.length_pos_iff, List.length_drop]
        omega
      rw [ListChunks.chunks_eq hpos hne, ListChunks.chunks_eq hpos hrest] at hone
      exact absurd hone (by simp)
    rw [ListChunks.chunks_of_length_le hne hfew] at hsize ⊢
    refine List.forall_mem_singleton.mpr ⟨level, htop _ (.here hmany hfew), ?_, rfl,
      hsize level List.mem_cons_self, hle, hraw⟩
    exact List.mem_append_right _ List.mem_cons_self

theorem run_buildStep_isParent (hlen : 1 < level.length) (hraw : ∀ c ∈ level, IsRaw c)
    (hrun : WhileLoop.run (buildStep maxLinks) fuel (level, []) = some (.ok result)) :
    IsParent maxLinks level result.nodes result.rootCid := by
  have hinit : BuildInv maxLinks level level [] :=
    ⟨le_rfl, hraw, fun _ h => h, fun hone => absurd hone (by omega)⟩
  refine WhileLoop.run_inv (fun st => BuildInv maxLinks level st.1 st.2)
    (fun r => ∀ result, r = .ok result → IsParent maxLinks level result.nodes result.rootCid)
    (fun _ _ hI hstep => hI.next hstep) ?_ hinit hrun result rfl
  rintro ⟨level', nodes⟩ r hI hstep result rfl
  obtain ⟨rfl, rfl⟩ := buildStep_eq_inr_ok hstep
  exact hI.isParent rfl _ List.mem_cons_self

/-! ### What comes out -/

/-- Both ways to go make the same entries; they differ in their errors. -/
theorem chunkParallel_eq_chunkWith (fuel : ℕ) (cfg : ParallelChunkingConfig) (data : Bytes) :
    ∃ mapErr, chunkParallel fuel cfg data = chunkWith (chunkEntry mapErr data) fuel cfg data := by
  by_cases hlen : data.length < 1000000
  · exact ⟨id, if_pos hlen⟩
  · exact ⟨_, if_neg hlen⟩

theorem chunkWith_eq_ok {result : ParallelChunkingResult} (hne : data ≠ [])
    (h : chunkWith (chunkEntry mapErr data) fuel cfg data = some (.ok result)) :
    0 < cfg.chunkSize ∧ ∃ entries,
      entries = (ListChunks.chunks cfg.chunkSize data).map
        (fun chunk => ((Chunker.leafBlock chunk).cid, chunk.length)) ∧
      buildDagParallel fuel cfg entries = some (.ok ⟨result.rootCid, result.dagNodes⟩) ∧
        result.chunkCids = entries.map Prod.fst := by
  rw [chunkWith] at h
  cases hranges : calculateChunkRanges fuel cfg data.length with
  | none => simp [hranges] at h
  | some ranges =>
    simp only [hranges] at h
    obtain ⟨hsize, rest, rfl, hslices⟩ := run_rangeStep hranges (Nat.zero_le _)
    rw [List.drop_zero] at hslices
    refine ⟨hsize (List.length_pos_iff.mpr hne), ?_⟩
    cases hentries : ranges.mapM (chunkEntry mapErr data) with
    | error f => simp [hentries] at h
    | ok entries =>
      simp only [hentries, Option.map_eq_some_iff] at h
      obtain ⟨r, hr, h⟩ := h
      cases r with
      | error f => exact absurd h (by simp [Except.map])
      | ok dag =>
        obtain rfl := Except.ok.inj h
        exact ⟨entries, mapM_chunkEntry_eq_ok hslices hentries, hr, rfl⟩

/-- **What `chunk_parallel` makes**: one piece is the root itself, and over several the root is the
CID of a node. -/
theorem chunkParallel_eq_ok {result : ParallelChunkingResult} (hne : data ≠ [])
    (h : chunkParallel fuel cfg data = some (.ok result)) :
    0 < cfg.chunkSize ∧
      result.chunkCids
          = (ListChunks.chunks cfg.chunkSize data).map (fun d => (Chunker.leafBlock d).cid) ∧
        (data.length ≤ cfg.chunkSize ∧ result.rootCid = (Chunker.leafBlock data).cid ∨
          cfg.chunkSize < data.length ∧ IsParent cfg.maxLinksPerNode
            ((ListChunks.chunks cfg.chunkSize data).map fun d => (Chunker.leafBlock d).cid)
            result.dagNodes result.rootCid) := by
  obtain ⟨mapErr, heq⟩ := chunkParallel_eq_chunkWith fuel cfg data
  rw [heq] at h
  obtain ⟨hpos, entries, hentries, hdag, hcids⟩ := chunkWith_eq_ok hne h
  have hfst : entries.map Prod.fst
      = (ListChunks.chunks cfg.chunkSize data).map (fun d => (Chunker.leafBlock d).cid) := by
    rw [hentries, List.map_map]
    rfl
  refine ⟨hpos, hcids.trans hfst, ?_⟩
  by_cases hle : data.length ≤ cfg.chunkSize
  · rw [ListChunks.chunks_of_length_le hne hle] at hentries
    subst hentries
    have hroot := congrArg DagBuildResult.rootCid (Except.ok.inj (Option.some.inj hdag))
    exact Or.inl ⟨hle, hroot.symm⟩
  · -- the loop starts with more than one CID
    have hlength : entries.length = (ListChunks.chunks cfg.chunkSize data).length := by
      rw [hentries, List.length_map]
    have hrest : data.drop cfg.chunkSize ≠ [] := by
      rw [← List.length_pos_iff, List.length_drop]
      omega
    obtain _ | ⟨e₁, _ | ⟨e₂, entries⟩⟩ := entries
    · rw [ListChunks.chunks_eq hpos hne] at hlength
      exact absurd hlength (by simp)
    · rw [ListChunks.chunks_eq hpos hne, ListChunks.chunks_eq hpos hrest] at hlength
      exact absurd hlength (by simp)
    refine Or.inr ⟨by omega, ?_⟩
    rw [← hfst]
    refine run_buildStep_isParent (by simp) ?_ hdag
    rw [hfst]
    exact List.forall_mem_map.mpr fun d _ => ⟨d, rfl⟩

end Spec

end ParallelChunker

end Ipfrs
