import Ipfrs.Storage.Dedup

/-!
# What the deduplicating store holds

`DedupBlockStore` cuts each block into chunks, keeps every chunk once in an inner store, and counts
how often the manifests refer to it. `Run.dedup_correct` says that all this is a map of blocks.

The chunker comes first:

* `Chunker.chunk_ok` — the chunks of a block are a cut of its data, and none of them is empty.
  `Block::new` refuses empty data, so an empty chunk would end `put` halfway;
* `Chunker.chunk_lengths` — how long they are.

Then the state of the store, in three parts:

* `Stored` — the index and the inner store agree;
* `Counted` — the reference counts are what they should be, and a chunk whose count is 0 is on the
  list of chunks to delete;
* `DedupBlockStore.Inv` — both, and the manifests describe the blocks that were put and not deleted.

Only between two operations does `Inv` hold. While a block is stored, its chunks have references
that no manifest accounts for yet, and while it is deleted the other way round. So `Counted` is
stated for any function `want` that says how many references a chunk should have; between two
operations it is the number of occurrences of the chunk in the manifests.

The loops are then described by what they do to `want`. `storeChunks` adds the occurrences of the
chunks that it stores, `decrementRefs` takes those of its CIDs away, and `removeChunks` changes no
count, since the chunks that it deletes have none. `Inv.put` and `Inv.delete` add the one change of
the manifests that makes the counts right again, and `Inv.run` is the induction over the operations.

A chunk is known by its digest. So it is assumed that the data that a run touches do not collide;
otherwise `put` would count a chunk as there whose data are not.
-/

namespace Ipfrs.Storage

/-! ### The chunker -/

/-- What is assumed of a configuration. The difference of the target and the minimal size is taken
in `u64`, and a minimal size of 0 could cut off nothing forever. -/
structure ChunkingConfig.Valid (config : ChunkingConfig) : Prop where
  min_pos : 1 ≤ config.minChunkSize
  min_le_target : config.minChunkSize ≤ config.targetChunkSize
  min_le_max : config.minChunkSize ≤ config.maxChunkSize

namespace Chunker

variable {config : ChunkingConfig}

theorem scan_bounds {ncLevel : ℕ} {maskS maskL : UInt64} {bytes : Bytes} {idx : ℕ} {hash : UInt64}
    {b : ℕ} (h : scan ncLevel maskS maskL bytes idx hash = some b) :
    idx < b ∧ b ≤ idx + bytes.length := by
  induction bytes generalizing idx hash with
  | nil => exact absurd h (by simp [scan])
  | cons byte bytes ih =>
    rw [List.length_cons]
    unfold scan at h
    dsimp only at h
    generalize (if idx < ncLevel then maskS else maskL) = mask at h
    split at h
    · obtain rfl := Option.some.inj h
      omega
    · have hrest := ih h
      omega

variable {data : Bytes}

/-- A boundary is where the hash hits its mask, beyond the minimal size, or as far as it may be. -/
theorem findBoundary_cases (htarget : config.minChunkSize ≤ config.targetChunkSize)
    (hlen : config.minChunkSize < data.length) :
    ∃ b, findBoundary config data = .ok b ∧ (b = min config.maxChunkSize data.length ∨
      config.minChunkSize < b ∧ b ≤ min config.maxChunkSize data.length) := by
  have hmin : min config.minChunkSize data.length = config.minChunkSize := min_eq_left hlen.le
  have hspan : subU64 config.targetChunkSize config.minChunkSize =
      .ok (config.targetChunkSize - config.minChunkSize) := if_pos htarget
  unfold findBoundary
  dsimp only
  rw [hmin, hspan]
  refine ⟨_, rfl, ?_⟩
  cases hscan : scan _ _ _ _ _ _ with
  | none => exact Or.inl rfl
  | some b =>
    rw [Option.getD_some]
    obtain ⟨hlo, hhi⟩ := scan_bounds hscan
    rw [List.length_take, List.length_drop] at hhi
    exact Or.inr (by omega)

/-- **A boundary** is at least the minimal and at most the maximal size away. -/
theorem findBoundary_ok (hvalid : config.Valid) (hlen : config.minChunkSize < data.length) :
    ∃ b, findBoundary config data = .ok b ∧ config.minChunkSize ≤ b ∧ b ≤ config.maxChunkSize ∧
      b ≤ data.length := by
  obtain ⟨-, htarget, hmax⟩ := hvalid
  obtain ⟨b, hb, hcases⟩ := findBoundary_cases htarget hlen
  exact ⟨b, hb, by omega, by omega, by omega⟩

theorem chunkStep_spec (hvalid : config.Valid) (rest : Bytes) (chunks : List Bytes) :
    (∃ n, 1 ≤ n ∧ n ≤ rest.length ∧
      chunkStep config (rest, chunks) = .inl (rest.drop n, chunks ++ [rest.take n])) ∨
    rest = [] ∧ chunkStep config (rest, chunks) = .inr (.ok chunks) ∨
    rest ≠ [] ∧ chunkStep config (rest, chunks) = .inr (.ok (chunks ++ [rest])) := by
  cases rest with
  | nil => exact Or.inr (Or.inl ⟨rfl, rfl⟩)
  | cons byte bytes =>
    by_cases hlen : (byte :: bytes).length ≤ config.minChunkSize
    · refine Or.inr (Or.inr ⟨List.cons_ne_nil _ _, ?_⟩)
      simp only [chunkStep]
      rw [if_pos hlen]
    · obtain ⟨b, hb, hlo, -, hhi⟩ := findBoundary_ok hvalid (Nat.lt_of_not_le hlen)
      refine Or.inl ⟨b, hvalid.min_pos.trans hlo, hhi, ?_⟩
      simp only [chunkStep]
      rw [if_neg hlen, hb]

/-- **The chunks of a block.** -/
theorem chunk_ok (hvalid : config.Valid) {fuel : ℕ} (hdata : data ≠ [])
    {r : Except Fault (List Bytes)} (h : chunk config fuel data = some r) :
    ∃ chunks, r = .ok chunks ∧ chunks.flatten = data ∧ ∀ c ∈ chunks, c ≠ [] := by
  unfold chunk at h
  split at h
  · obtain rfl := Option.some.inj h
    refine ⟨[data], rfl, List.append_nil data, fun c hc => ?_⟩
    rw [List.mem_singleton.mp hc]
    exact hdata
  -- in every round, what has been cut off and what is left make up the data
  refine WhileLoop.run_elim
    (fun st => st.2.flatten ++ st.1 = data ∧ ∀ c ∈ st.2, c ≠ [])
    (fun r => ∃ chunks, r = .ok chunks ∧ chunks.flatten = data ∧ ∀ c ∈ chunks, c ≠ [])
    ?_ ⟨rfl, fun c hc => absurd hc List.not_mem_nil⟩ h
  rintro ⟨rest, chunks⟩ ⟨hflat, hne⟩
  rcases chunkStep_spec hvalid rest chunks with ⟨n, hpos, hle, heq⟩ | ⟨rfl, heq⟩ | ⟨hrest, heq⟩
  · -- a chunk is cut off
    rw [heq]
    refine ⟨?_, fun c hc => ?_⟩
    · rw [List.flatten_append, List.flatten_singleton, List.append_assoc, List.take_append_drop]
      exact hflat
    · rcases List.mem_append.mp hc with hc | hc
      · exact hne c hc
      · rw [List.mem_singleton.mp hc]
        refine List.ne_nil_of_length_pos ?_
        rw [List.length_take]
        omega
  · -- nothing is left
    rw [heq]
    rw [List.append_nil] at hflat
    exact ⟨chunks, rfl, hflat, hne⟩
  · -- what is left is the last chunk
    rw [heq]
    refine ⟨_, rfl, ?_, fun c hc => ?_⟩
    · rw [List.flatten_append, List.flatten_singleton]
      exact hflat
    · rcases List.mem_append.mp hc with hc | hc
      · exact hne c hc
      · rw [List.mem_singleton.mp hc]
        exact hrest

theorem exists_chunk (hvalid : config.Valid) (data : Bytes) :
    ∃ fuel r, chunk config fuel data = some r := by
  unfold chunk
  split
  · exact ⟨0, _, rfl⟩
  -- a cut takes a byte at least, so less is left in the next round
  obtain ⟨r, hr⟩ := WhileLoop.run_of_measure (fun _ => True) (fun st => st.1.length)
    (fun st st' _ (hstep : chunkStep config st = .inl st') => by
      obtain ⟨rest, chunks⟩ := st
      refine ⟨trivial, ?_⟩
      rcases chunkStep_spec hvalid rest chunks with ⟨n, hpos, hle, heq⟩ | ⟨-, heq⟩ | ⟨-, heq⟩
      · rw [heq] at hstep
        obtain rfl := Sum.inl.inj hstep
        dsimp only
        rw [List.length_drop]
        omega
      · rw [heq] at hstep
        exact absurd hstep (by simp)
      · rw [heq] at hstep
        exact absurd hstep (by simp))
    (s := (data, [])) trivial
  exact ⟨_, r, hr⟩

/-- What has been cut off, with what is left: each chunk is longer than the minimal size, and at
the end of the data there is at least one. -/
def Cutting (config : ChunkingConfig) (data : Bytes) (st : Bytes × List Bytes) : Prop :=
  st.2.flatten ++ st.1 = data ∧ (st.1 = [] → st.2 ≠ []) ∧
    ∀ c ∈ st.2, config.minChunkSize < c.length ∧ c.length ≤ config.maxChunkSize

theorem chunkStep_cutting (htarget : config.minChunkSize ≤ config.targetChunkSize)
    (hmax : config.minChunkSize < config.maxChunkSize) {st : Bytes × List Bytes}
    (h : Cutting config data st) :
    (∃ st', chunkStep config st = .inl st' ∧ Cutting config data st') ∨
    (st.1 = [] ∧ chunkStep config st = .inr (.ok st.2)) ∨
    (st.1 ≠ [] ∧ st.1.length ≤ config.minChunkSize ∧
      chunkStep config st = .inr (.ok (st.2 ++ [st.1]))) := by
  obtain ⟨rest, chunks⟩ := st
  obtain ⟨hflat, -, hchunks⟩ := h
  dsimp only at hflat hchunks
  cases rest with
  | nil => exact Or.inr (Or.inl ⟨rfl, rfl⟩)
  | cons byte bytes =>
    by_cases hlen : (byte :: bytes).length ≤ config.minChunkSize
    · refine Or.inr (Or.inr ⟨List.cons_ne_nil _ _, hlen, ?_⟩)
      simp only [chunkStep]
      rw [if_pos hlen]
    · -- the boundary is behind the minimal size, since there are more bytes than that
      obtain ⟨b, hb, hcases⟩ := findBoundary_cases htarget (Nat.lt_of_not_le hlen)
      refine Or.inl ⟨((byte :: bytes).drop b, chunks ++ [(byte :: bytes).take b]), ?_, ?_, ?_, ?_⟩
      · simp only [chunkStep]
        rw [if_neg hlen, hb]
      · rw [List.flatten_append, List.flatten_singleton, List.append_assoc, List.take_append_drop]
        exact hflat
      · intro _
        exact List.append_ne_nil_of_right_ne_nil _ (List.cons_ne_nil _ _)
      · intro c hc
        rcases List.mem_append.mp hc with hc | hc
        · exact hchunks c hc
        · obtain rfl := List.mem_singleton.mp hc
          rw [List.length_take]
          omega

/-- One round keeps this, and at the end of the loop the last chunk may be shorter. -/
theorem Cutting.step (htarget : config.minChunkSize ≤ config.targetChunkSize)
    (hmax : config.minChunkSize < config.maxChunkSize) {st : Bytes × List Bytes}
    (h : Cutting config data st) :
    Sum.elim (Cutting config data)
      (fun r => ∃ pieces last, r = .ok (pieces ++ [last]) ∧ (pieces ++ [last]).flatten = data ∧
        (∀ c ∈ pieces, config.minChunkSize < c.length ∧ c.length ≤ config.maxChunkSize) ∧
        last ≠ [] ∧ last.length ≤ config.maxChunkSize)
      (chunkStep config st) := by
  obtain ⟨hflat, hsome, hchunks⟩ := id h
  rcases chunkStep_cutting htarget hmax h with ⟨st', heq, h'⟩ | ⟨hnil, heq⟩ | ⟨hne, hlen, heq⟩
  · rw [heq]
    exact h'
  · -- the data end with a chunk that was cut off
    rw [heq]
    have hsplit := List.dropLast_append_getLast (hsome hnil)
    obtain ⟨hlo, hhi⟩ := hchunks _ (List.getLast_mem (hsome hnil))
    rw [hnil, List.append_nil] at hflat
    refine ⟨st.2.dropLast, st.2.getLast (hsome hnil), by rw [hsplit], by rw [hsplit, hflat],
      fun c hc => hchunks c (List.mem_of_mem_dropLast hc), ?_, hhi⟩
    exact List.ne_nil_of_length_pos (Nat.zero_lt_of_lt hlo)
  · -- they end with what is too short to be cut
    rw [heq]
    refine ⟨st.2, st.1, rfl, ?_, hchunks, hne, hlen.trans hmax.le⟩
    rw [List.flatten_append, List.flatten_singleton]
    exact hflat

/-- **The sizes of chunks.** For every minimal size of at least one byte that is at most the target
size and below the maximal size, chunking ends on all data that are not empty. The chunks make up
the data; all but the last are longer than the minimal size, and none is longer than the maximal
size. -/
theorem chunk_lengths (hmin : 1 ≤ config.minChunkSize)
    (htarget : config.minChunkSize ≤ config.targetChunkSize)
    (hmax : config.minChunkSize < config.maxChunkSize) (hdata : data ≠ []) :
    ∃ fuel pieces last, chunk config fuel data = some (.ok (pieces ++ [last])) ∧
      (pieces ++ [last]).flatten = data ∧
      (∀ c ∈ pieces, config.minChunkSize < c.length ∧ c.length ≤ config.maxChunkSize) ∧
      last ≠ [] ∧ last.length ≤ config.maxChunkSize := by
  by_cases hshort : data.length ≤ config.minChunkSize
  · -- a single chunk
    refine ⟨0, [], data, if_pos hshort, List.append_nil data, ?_, hdata, hshort.trans hmax.le⟩
    exact fun c hc => absurd hc List.not_mem_nil
  obtain ⟨fuel, r, hr⟩ := exists_chunk ⟨hmin, htarget, hmax.le⟩ data
  have hloop := hr
  rw [chunk, if_neg hshort] at hloop
  have hstart : Cutting config data (data, []) :=
    ⟨rfl, fun h => absurd h hdata, fun c hc => absurd hc List.not_mem_nil⟩
  have hdone := WhileLoop.run_elim (Cutting config data) _
    (fun st hst => hst.step htarget hmax) hstart hloop
  obtain ⟨pieces, last, rfl, hpieces⟩ := hdone
  exact ⟨fuel, pieces, last, hr, hpieces⟩

theorem chunk_lengths_five :
    ∃ fuel pieces last, chunk ⟨1, 2, 3, 0⟩ fuel [1, 2, 3, 4, 5] = some (.ok (pieces ++ [last])) ∧
      (pieces ++ [last]).flatten = [1, 2, 3, 4, 5] ∧
      (∀ c ∈ pieces, 1 < c.length ∧ c.length ≤ 3) ∧ last ≠ [] ∧ last.length ≤ 3 :=
  @chunk_lengths ⟨1, 2, 3, 0⟩ _ le_rfl (by decide) (by decide) (by decide)

end Chunker

/-! ### Chunks and references -/

namespace DedupBlockStore

variable {S : Type}

/-- The reference count of a chunk. -/
def refCount (st : DedupBlockStore S) (c : Cid) : ℕ :=
  ((st.chunkIndex.lookup c).map ChunkMeta.refCount).getD 0

/-- How often a chunk occurs in the manifests. A chunk that occurs twice in one block counts twice,
as `put` takes a reference for each. -/
def occurrences (st : DedupBlockStore S) (c : Cid) : ℕ :=
  AssocMap.sum (fun manifest => manifest.chunks.count c) st.manifests

theorem refCount_of_lookup {st : DedupBlockStore S} {c : Cid} {info : ChunkMeta}
    (h : st.chunkIndex.lookup c = some info) : st.refCount c = info.refCount := by
  unfold refCount
  rw [h]
  rfl

theorem refCount_of_lookup_eq_none {st : DedupBlockStore S} {c : Cid}
    (h : st.chunkIndex.lookup c = none) : st.refCount c = 0 := by
  unfold refCount
  rw [h]
  rfl

theorem exists_lookup_of_refCount {st : DedupBlockStore S} {c : Cid} (h : 0 < st.refCount c) :
    ∃ info, st.chunkIndex.lookup c = some info := by
  unfold refCount at h
  cases hlookup : st.chunkIndex.lookup c with
  | none =>
    rw [hlookup] at h
    exact absurd h (Nat.lt_irrefl 0)
  | some info => exact ⟨info, rfl⟩

/-- The CID of a chunk or block with these data. -/
def rawCid [HashCrate] (data : Bytes) : Cid := Cid.ofData Codec.raw .sha256 data

/-- **The index and the inner store agree.** A chunk in the index is in the inner store under the
CID of its data, with the size that the index says, and what is not in the index is not in the inner
store. The data are among `D`, which is free of collisions in the end, so that a CID in the index
says what the data are. -/
structure Stored [StoreView S] [HashCrate] (D : Set Bytes) (st : DedupBlockStore S) : Prop where
  present : ∀ c info, st.chunkIndex.lookup c = some info → ∃ data ∈ D,
    info.cid = c ∧ info.size = data.length ∧ c = rawCid data ∧ view st.inner c = some data
  absent : ∀ c, st.chunkIndex.lookup c = none → view st.inner c = none
  uniqueChunks : st.stats.uniqueChunks = st.chunkIndex.entries.length
  bytesStored : st.stats.bytesStored = AssocMap.sum ChunkMeta.size st.chunkIndex

/-- **The counts are right**: every chunk has the references that `want` says, and the chunks in the
index that should have none are those on the list `dead`, once each. With an empty list this says
that no chunk is kept for nothing. -/
structure Counted (st : DedupBlockStore S) (want : Cid → ℕ) (dead : List Cid) : Prop where
  refs : ∀ c, st.refCount c = want c
  mem_dead : ∀ c, c ∈ dead ↔ c ∈ st.chunkIndex ∧ want c = 0
  nodup : dead.Nodup

/-- Nothing but chunks has changed. This is the frame of the loops over chunks, which run before or
after the one change of the manifests. -/
structure SameBlocks (st st' : DedupBlockStore S) : Prop where
  config : st'.config = st.config
  manifests : st'.manifests = st.manifests
  blocksStored : st'.stats.blocksStored = st.stats.blocksStored
  bytesOriginal : st'.stats.bytesOriginal = st.stats.bytesOriginal

variable {want : Cid → ℕ}

theorem Counted.pos {st : DedupBlockStore S} (h : Counted st want []) {c : Cid}
    (hc : c ∈ st.chunkIndex) : 0 < want c := by
  refine Nat.pos_of_ne_zero fun hzero => ?_
  exact absurd ((h.mem_dead c).mpr ⟨hc, hzero⟩) List.not_mem_nil

theorem Counted.of_pos {st : DedupBlockStore S} (hrefs : ∀ c, st.refCount c = want c)
    (hpos : ∀ c ∈ st.chunkIndex, 0 < want c) :
    Counted st want [] where
  refs := hrefs
  mem_dead c := by
    refine ⟨fun h => absurd h List.not_mem_nil, fun ⟨hc, hzero⟩ => ?_⟩
    exact absurd hzero (Nat.ne_of_gt (hpos c hc))
  nodup := List.nodup_nil

theorem SameBlocks.refl (st : DedupBlockStore S) : SameBlocks st st := ⟨rfl, rfl, rfl, rfl⟩

theorem SameBlocks.trans {st st' st'' : DedupBlockStore S} (h : SameBlocks st st')
    (h' : SameBlocks st' st'') : SameBlocks st st'' where
  config := h'.config.trans h.config
  manifests := h'.manifests.trans h.manifests
  blocksStored := h'.blocksStored.trans h.blocksStored
  bytesOriginal := h'.bytesOriginal.trans h.bytesOriginal

/-! #### A new count for a chunk -/

theorem refCount_insert {st : DedupBlockStore S} (c : Cid) (info : ChunkMeta)
    {st' : DedupBlockStore S} (hindex : st'.chunkIndex = st.chunkIndex.insert c info) (c' : Cid) :
    st'.refCount c' = if c' = c then info.refCount else st.refCount c' := by
  unfold refCount
  rw [hindex]
  by_cases hc : c' = c
  · subst hc
    rw [if_pos rfl, AList.lookup_insert]
    rfl
  · rw [if_neg hc, AList.lookup_insert_ne hc]

section Counts

variable {st st' : DedupBlockStore S} {want want' : Cid → ℕ} {dead : List Cid} {cid : Cid}
  {info : ChunkMeta}

theorem Counted.increment (h : Counted st want [])
    (hindex : st'.chunkIndex = st.chunkIndex.insert cid info)
    (hinfo : info.refCount = st.refCount cid + 1) :
    Counted st' (fun c => want c + [cid].count c) [] := by
  refine .of_pos (fun c => ?_) fun c hc => ?_
  · rw [refCount_insert cid info hindex, List.count_singleton]
    by_cases hc : c = cid
    · subst hc
      rw [if_pos rfl, hinfo, h.refs, if_pos (beq_self_eq_true c)]
    · rw [if_neg hc, h.refs, if_neg (by simpa using Ne.symm hc), Nat.add_zero]
  · rw [hindex, AList.mem_insert] at hc
    rcases hc with rfl | hc
    · rw [List.count_singleton_self]
      exact Nat.succ_pos _
    · exact Nat.add_pos_left (h.pos hc) _

/-- One reference less for one chunk, which is noted when it was the last. -/
theorem Counted.decrement (h : Counted st want dead)
    (hlookup : st.chunkIndex.lookup cid = some info)
    (hone : want cid = want' cid + 1) (hother : ∀ c, c ≠ cid → want c = want' c)
    (hindex : st'.chunkIndex =
      st.chunkIndex.insert cid { info with refCount := info.refCount - 1 }) :
    Counted st' want' (if info.refCount - 1 = 0 then dead ++ [cid] else dead) := by
  have hinfo : info.refCount - 1 = want' cid := by
    rw [← refCount_of_lookup hlookup, h.refs, hone, Nat.add_sub_cancel]
  -- it had a reference, so it was not noted before
  have hnot : cid ∉ dead := by
    intro hdead
    have hzero := ((h.mem_dead cid).mp hdead).2
    omega
  refine ⟨fun c => ?_, fun c => ?_, ?_⟩
  · rw [refCount_insert cid _ hindex]
    by_cases hc : c = cid
    · rw [if_pos hc, hc]
      exact hinfo
    · rw [if_neg hc, h.refs, hother c hc]
  · rw [hindex, AList.mem_insert]
    by_cases hc : c = cid
    · subst hc
      rw [← hinfo]
      by_cases hzero : info.refCount - 1 = 0
      · simp [hzero]
      · simp [hzero, hnot]
    · have hbefore := h.mem_dead c
      rw [hother c hc] at hbefore
      by_cases hzero : info.refCount - 1 = 0
      · simp [hzero, hc, hbefore]
      · simp [hzero, hc, hbefore]
  · by_cases hzero : info.refCount - 1 = 0
    · rw [if_pos hzero, ← List.concat_eq_append]
      exact h.nodup.concat hnot
    · rw [if_neg hzero]
      exact h.nodup

theorem Counted.erase (h : Counted st want (cid :: dead))
    (hindex : st'.chunkIndex = st.chunkIndex.erase cid) : Counted st' want dead := by
  obtain ⟨hnot, hnodup⟩ := List.nodup_cons.mp h.nodup
  have hzero := ((h.mem_dead cid).mp List.mem_cons_self).2
  refine ⟨fun c => ?_, fun c => ?_, hnodup⟩
  · by_cases hc : c = cid
    · rw [hc, hzero]
      refine refCount_of_lookup_eq_none ?_
      rw [hindex, AList.lookup_erase]
    · rw [← h.refs]
      unfold refCount
      rw [hindex, AList.lookup_erase_ne hc]
  · rw [hindex, AList.mem_erase]
    by_cases hc : c = cid
    · subst hc
      simp [hnot]
    · have hbefore := h.mem_dead c
      rw [List.mem_cons] at hbefore
      simpa [hc] using hbefore

end Counts

/-! ### The loops over chunks

Each of them keeps every property that its single steps keep, whatever is to be known about the
chunks in the end. -/

section Loops

variable {st : DedupBlockStore S} {P : DedupBlockStore S → Prop} {want : Cid → ℕ}
variable {dead : List Cid}

/-- **References are taken away**, and the chunks that have none left are noted. -/
theorem decrementRefs_keeps {cids : List Cid} (h : P st)
    (hkeep : ∀ {st c info}, P st → st.chunkIndex.lookup c = some info →
      P { st with
            chunkIndex := st.chunkIndex.insert c { info with refCount := info.refCount - 1 } })
    (hcounted : Counted st (fun c => want c + cids.count c) dead) :
    ∃ st' dead', decrementRefs cids (st, dead) = (st', dead') ∧ P st' ∧
      Counted st' want dead' ∧ SameBlocks st st' := by
  induction cids generalizing st dead with
  | nil => exact ⟨st, dead, rfl, h, hcounted, .refl st⟩
  | cons cid cids ih =>
    have hone : want cid + (cid :: cids).count cid = want cid + cids.count cid + 1 := by
      rw [List.count_cons_self, Nat.add_assoc]
    -- so the chunk is in the index
    have hpos : 0 < st.refCount cid := by
      rw [hcounted.refs, hone]
      exact Nat.succ_pos _
    obtain ⟨info, hlookup⟩ := exists_lookup_of_refCount hpos
    set st₁ : DedupBlockStore S :=
      { st with chunkIndex := st.chunkIndex.insert cid { info with refCount := info.refCount - 1 } }
    have hcounted₁ : Counted st₁ (fun c => want c + cids.count c)
        (if info.refCount - 1 = 0 then dead ++ [cid] else dead) := by
      refine hcounted.decrement hlookup hone (fun c hc => ?_) rfl
      rw [List.count_cons_of_ne (Ne.symm hc)]
    have hsame₁ : SameBlocks st st₁ := ⟨rfl, rfl, rfl, rfl⟩
    obtain ⟨st', dead', hrest, h', hcounted', hsame'⟩ := ih (hkeep h hlookup) hcounted₁
    refine ⟨st', dead', ?_, h', hcounted', hsame₁.trans hsame'⟩
    unfold decrementRefs
    rw [hlookup]
    exact hrest

variable [BlockStore S] [ReliableBlockStore S]

/-- **The chunks without references are deleted.** -/
theorem removeChunks_keeps (h : P st)
    (hkeep : ∀ {st c info inner}, P st → st.chunkIndex.lookup c = some info →
      BlockStore.delete st.inner c = .ok inner →
      P { st with
            inner := inner
            chunkIndex := st.chunkIndex.erase c
            stats := { st.stats with
              uniqueChunks := st.stats.uniqueChunks - 1
              bytesStored := st.stats.bytesStored - info.size } })
    (hcounted : Counted st want dead) :
    ∃ st', removeChunks dead st = (st', .ok ()) ∧ P st' ∧ Counted st' want [] ∧
      SameBlocks st st' := by
  induction dead generalizing st with
  | nil => exact ⟨st, rfl, h, hcounted, .refl st⟩
  | cons cid dead ih =>
    -- a chunk that is noted is still in the index
    have hmem := ((hcounted.mem_dead cid).mp List.mem_cons_self).1
    obtain ⟨info, hlookup⟩ := Option.isSome_iff_exists.mp (AList.lookup_isSome.mpr hmem)
    obtain ⟨inner, hdelete⟩ := ReliableBlockStore.delete st.inner cid
    set st₁ : DedupBlockStore S :=
      { st with
        inner := inner
        chunkIndex := st.chunkIndex.erase cid
        stats := { st.stats with
          uniqueChunks := st.stats.uniqueChunks - 1
          bytesStored := st.stats.bytesStored - info.size } }
    have hcounted₁ : Counted st₁ want dead := hcounted.erase rfl
    have hsame₁ : SameBlocks st st₁ := ⟨rfl, rfl, rfl, rfl⟩
    obtain ⟨st', hrest, h', hcounted', hsame'⟩ := ih (hkeep h hlookup hdelete) hcounted₁
    refine ⟨st', ?_, h', hcounted', hsame₁.trans hsame'⟩
    unfold removeChunks
    rw [hlookup]
    dsimp only
    rw [hdelete]
    exact hrest

/-- **A chunk is stored**, as a new one or by one reference more. -/
theorem storeChunk_keeps [HashCrate] {data : Bytes}
    (hsize : minBlockSize ≤ data.length ∧ data.length ≤ maxBlockSize)
    (hcounted : Counted st want [])
    (hrefer : ∀ info, st.chunkIndex.lookup (rawCid data) = some info →
      info.cid = rawCid data ∧ P (st.addReference (rawCid data) info))
    (hadd : ∀ inner, st.chunkIndex.lookup (rawCid data) = none →
      BlockStore.put st.inner ⟨rawCid data, data⟩ = .ok inner →
      P (st.addChunk inner (rawCid data) data.length)) :
    ∃ st', st.storeChunk data = (st', .ok (rawCid data)) ∧ P st' ∧
      Counted st' (fun c => want c + [rawCid data].count c) [] ∧ SameBlocks st st' := by
  have hnew : Block.new data = .ok ⟨rawCid data, data⟩ := Block.new_of_size hsize.1 hsize.2
  unfold storeChunk
  rw [hnew]
  dsimp only
  cases hlookup : st.chunkIndex.lookup (rawCid data) with
  | some info =>
    obtain ⟨hcid, hP⟩ := hrefer info hlookup
    refine ⟨st.addReference (rawCid data) info, ?_, hP, hcounted.increment rfl ?_,
      ⟨rfl, rfl, rfl, rfl⟩⟩
    · dsimp only
      rw [hcid]
    · rw [refCount_of_lookup hlookup]
  | none =>
    obtain ⟨inner, hput⟩ := ReliableBlockStore.put st.inner ⟨rawCid data, data⟩
    rw [hput]
    refine ⟨st.addChunk inner (rawCid data) data.length, rfl, hadd inner hlookup hput,
      hcounted.increment rfl ?_, ⟨rfl, rfl, rfl, rfl⟩⟩
    rw [refCount_of_lookup_eq_none hlookup]

end Loops

section View

variable [StoreView S] [HashCrate] {D : Set Bytes} {st st' : DedupBlockStore S} {c : Cid}
  {info : ChunkMeta}

theorem Stored.recount (h : Stored D st) (hlookup : st.chunkIndex.lookup c = some info) (n : ℕ)
    (hindex : st'.chunkIndex = st.chunkIndex.insert c { info with refCount := n })
    (hinner : st'.inner = st.inner) (hunique : st'.stats.uniqueChunks = st.stats.uniqueChunks)
    (hbytes : st'.stats.bytesStored = st.stats.bytesStored) : Stored D st' where
  present c' info' hinfo' := by
    rw [hindex] at hinfo'
    rw [hinner]
    rcases AssocMap.lookup_insert_eq_some.mp hinfo' with ⟨rfl, rfl⟩ | ⟨-, hinfo'⟩
    · exact h.present c' info hlookup
    · exact h.present c' info' hinfo'
  absent c' hnone := by
    rw [hindex] at hnone
    rw [hinner]
    have hne : c' ≠ c := by
      rintro rfl
      rw [AList.lookup_insert] at hnone
      exact absurd hnone (by simp)
    exact h.absent c' ((AList.lookup_insert_ne hne).symm.trans hnone)
  uniqueChunks := by
    rw [hunique, h.uniqueChunks, hindex, AssocMap.length_insert, AssocMap.length_erase hlookup]
  bytesStored := by
    rw [hbytes, h.bytesStored, hindex, AssocMap.sum_insert,
      AssocMap.sum_erase ChunkMeta.size hlookup]

variable {data : Bytes} {dead : List Cid}

theorem Stored.insert (h : Stored D st) (hnone : st.chunkIndex.lookup c = none) (hD : data ∈ D)
    (hc : c = rawCid data) {n : ℕ}
    (hindex : st'.chunkIndex = st.chunkIndex.insert c ⟨c, n, data.length⟩)
    (hview : view st'.inner c = some data)
    (hframe : ∀ c', c' ≠ c → view st'.inner c' = view st.inner c')
    (hunique : st'.stats.uniqueChunks = st.stats.uniqueChunks + 1)
    (hbytes : st'.stats.bytesStored = st.stats.bytesStored + data.length) : Stored D st' where
  present c' info' hinfo' := by
    rw [hindex] at hinfo'
    rcases AssocMap.lookup_insert_eq_some.mp hinfo' with ⟨rfl, rfl⟩ | ⟨hne, hinfo'⟩
    · exact ⟨data, hD, rfl, rfl, hc, hview⟩
    · obtain ⟨data', hD', hcid, hsize, hc', hview'⟩ := h.present c' info' hinfo'
      exact ⟨data', hD', hcid, hsize, hc', (hframe c' hne).trans hview'⟩
  absent c' hc' := by
    rw [hindex] at hc'
    have hne : c' ≠ c := by
      rintro rfl
      rw [AList.lookup_insert] at hc'
      exact absurd hc' (by simp)
    rw [AList.lookup_insert_ne hne] at hc'
    exact (hframe c' hne).trans (h.absent c' hc')
  uniqueChunks := by
    rw [hunique, h.uniqueChunks, hindex, AssocMap.length_insert,
      AssocMap.erase_of_lookup_eq_none hnone]
  bytesStored := by
    rw [hbytes, h.bytesStored, hindex, AssocMap.sum_insert,
      AssocMap.erase_of_lookup_eq_none hnone, Nat.add_comm]

theorem Stored.erase (h : Stored D st) (hlookup : st.chunkIndex.lookup c = some info)
    (hindex : st'.chunkIndex = st.chunkIndex.erase c) (hgone : view st'.inner c = none)
    (hframe : ∀ c', c' ≠ c → view st'.inner c' = view st.inner c')
    (hunique : st'.stats.uniqueChunks = st.stats.uniqueChunks - 1)
    (hbytes : st'.stats.bytesStored = st.stats.bytesStored - info.size) : Stored D st' where
  present c' info' hinfo' := by
    rw [hindex] at hinfo'
    have hne : c' ≠ c := by
      rintro rfl
      rw [AList.lookup_erase] at hinfo'
      exact absurd hinfo' (by simp)
    rw [AList.lookup_erase_ne hne] at hinfo'
    obtain ⟨data, hD, hcid, hsize, hc', hview⟩ := h.present c' info' hinfo'
    exact ⟨data, hD, hcid, hsize, hc', (hframe c' hne).trans hview⟩
  absent c' hc' := by
    by_cases hne : c' = c
    · rw [hne]
      exact hgone
    · rw [hindex, AList.lookup_erase_ne hne] at hc'
      exact (hframe c' hne).trans (h.absent c' hc')
  uniqueChunks := by
    rw [hunique, h.uniqueChunks, hindex, AssocMap.length_erase hlookup, Nat.add_sub_cancel]
  bytesStored := by
    rw [hbytes, h.bytesStored, hindex, AssocMap.sum_erase ChunkMeta.size hlookup,
      Nat.add_sub_cancel_left]

/-! #### Storing chunks -/

variable [BlockStore S] [LawfulBlockStore S] [ReliableBlockStore S] {want : Cid → ℕ}

/-- **A chunk is stored**, and has one reference more. -/
theorem storeChunk_ok (hstored : Stored D st) (hcounted : Counted st want []) (hD : data ∈ D)
    (hsize : minBlockSize ≤ data.length ∧ data.length ≤ maxBlockSize) :
    ∃ st', st.storeChunk data = (st', .ok (rawCid data)) ∧ Stored D st' ∧
      Counted st' (fun c => want c + [rawCid data].count c) [] ∧ SameBlocks st st' := by
  refine storeChunk_keeps hsize hcounted (fun info hlookup => ?_) fun inner hlookup hput => ?_
  · -- a duplicate: only its count changes
    obtain ⟨data', -, hcid, -⟩ := hstored.present _ info hlookup
    exact ⟨hcid, hstored.recount hlookup (info.refCount + 1) rfl rfl rfl rfl⟩
  · obtain ⟨hview, hframe⟩ := LawfulBlockStore.put_ok hput
    -- there was no such chunk before, so the one that is put is there now
    have hview : view inner (rawCid data) = some data := by
      rcases hview with hview | ⟨hsome, -⟩
      · exact hview
      · rw [hstored.absent _ hlookup] at hsome
        exact absurd hsome (by simp)
    exact hstored.insert hlookup hD rfl rfl hview hframe rfl rfl

/-- **The chunks of a block are stored**, each with as many references more as it occurs. -/
theorem storeChunks_ok {chunks : List Bytes} (hstored : Stored D st)
    (hcounted : Counted st want []) (hD : ∀ d ∈ chunks, d ∈ D)
    (hsize : ∀ d ∈ chunks, minBlockSize ≤ d.length ∧ d.length ≤ maxBlockSize) (cids : List Cid) :
    ∃ st', storeChunks chunks cids st = (st', .ok (cids ++ chunks.map rawCid)) ∧ Stored D st' ∧
      Counted st' (fun c => want c + (chunks.map rawCid).count c) [] ∧ SameBlocks st st' := by
  induction chunks generalizing st want cids with
  | nil => exact ⟨st, by rw [List.map_nil, List.append_nil]; rfl, hstored, hcounted, .refl st⟩
  | cons chunk chunks ih =>
    obtain ⟨st₁, hchunk, hstored₁, hcounted₁, hsame₁⟩ :=
      storeChunk_ok hstored hcounted (hD chunk List.mem_cons_self) (hsize chunk List.mem_cons_self)
    obtain ⟨st', hrest, hstored', hcounted', hsame'⟩ := ih hstored₁ hcounted₁
      (fun d hd => hD d (List.mem_cons_of_mem _ hd))
      (fun d hd => hsize d (List.mem_cons_of_mem _ hd)) (cids ++ [rawCid chunk])
    refine ⟨st', ?_, hstored', ?_, hsame₁.trans hsame'⟩
    · unfold storeChunks
      rw [hchunk]
      dsimp only
      rw [hrest, List.append_assoc]
      rfl
    · have hcount : ∀ c, want c + [rawCid chunk].count c + (chunks.map rawCid).count c =
          want c + ((chunk :: chunks).map rawCid).count c := by
        intro c
        have hcons : ([rawCid chunk] ++ chunks.map rawCid).count c = _ := List.count_append
        rw [List.map_cons, Nat.add_assoc, ← hcons]
        rfl
      rw [← funext hcount]
      exact hcounted'

/-! #### Releasing chunks -/

omit [BlockStore S] [LawfulBlockStore S] [ReliableBlockStore S] in
/-- **References are taken away**, and the chunks that have none left are noted. -/
theorem decrementRefs_ok {cids : List Cid} (hstored : Stored D st)
    (hcounted : Counted st (fun c => want c + cids.count c) dead) :
    ∃ st' dead', decrementRefs cids (st, dead) = (st', dead') ∧ Stored D st' ∧
      Counted st' want dead' ∧ SameBlocks st st' :=
  decrementRefs_keeps hstored (fun h hlookup => h.recount hlookup _ rfl rfl rfl rfl) hcounted

/-- **The chunks without references are deleted.** -/
theorem removeChunks_ok (hstored : Stored D st) (hcounted : Counted st want dead) :
    ∃ st', removeChunks dead st = (st', .ok ()) ∧ Stored D st' ∧ Counted st' want [] ∧
      SameBlocks st st' := by
  refine removeChunks_keeps hstored (fun h hlookup hdelete => ?_) hcounted
  obtain ⟨hgone, hframe⟩ := LawfulBlockStore.delete_ok hdelete
  exact h.erase hlookup rfl hgone hframe rfl rfl

end View

/-! ### Blocks -/

/-- The manifest of a block with these data: its chunks are the CIDs of the pieces of some cut. For
reading it does not matter which cut, so the configuration of the chunker is not mentioned. -/
def Describes [HashCrate] (D : Set Bytes) (manifest : BlockManifest) (data : Bytes) : Prop :=
  manifest.originalSize = data.length ∧ ∃ chunks : List Bytes,
    manifest.chunks = chunks.map rawCid ∧ chunks.flatten = data ∧ ∀ d ∈ chunks, d ∈ D

/-- **The state between two operations**, when the blocks are those of `contents`. That a block has
a size that `Block::new` accepts is kept here because `get` builds the block again. -/
structure Inv [StoreView S] [HashCrate] (D : Set Bytes) (st : DedupBlockStore S)
    (contents : Cid → Option Bytes) : Prop where
  stored : Stored D st
  counted : Counted st st.occurrences []
  block : ∀ c data, contents c = some data → data ∈ D ∧
    (minBlockSize ≤ data.length ∧ data.length ≤ maxBlockSize) ∧ c = rawCid data ∧
      ∃ manifest, st.manifests.lookup c = some manifest ∧ Describes D manifest data
  absent : ∀ c, contents c = none → st.manifests.lookup c = none
  blocksStored : st.stats.blocksStored = st.manifests.entries.length
  bytesOriginal : st.stats.bytesOriginal = AssocMap.sum BlockManifest.originalSize st.manifests

section Operations

variable [StoreView S] [HashCrate] {D : Set Bytes} {st : DedupBlockStore S}
  {contents : Cid → Option Bytes}

theorem inv_new {inner : S} (hempty : ∀ c, view inner c = none) (config : ChunkingConfig) :
    Inv D (new inner config) fun _ => none where
  stored := {
    present := fun c info h => absurd h (by simp [new])
    absent := fun c _ => hempty c
    uniqueChunks := rfl
    bytesStored := rfl }
  counted := .of_pos (fun _ => rfl) fun c hc => absurd hc (AList.notMem_empty c)
  block c data h := absurd h (by simp)
  absent _ _ := rfl
  blocksStored := rfl
  bytesOriginal := rfl

variable {manifest : BlockManifest} {chunks : List Bytes} {st₁ : DedupBlockStore S} {data : Bytes}

/-- A chunk that a manifest lists is in the inner store, with its own data. -/
theorem Inv.view_chunk (hfree : HashCrate.CollisionFree .sha256 D) (h : Inv D st contents) {c : Cid}
    (hlookup : st.manifests.lookup c = some manifest) {d : Bytes} (hD : d ∈ D)
    (hd : rawCid d ∈ manifest.chunks) : view st.inner (rawCid d) = some d := by
  -- the manifest accounts for a reference, so the chunk is in the index
  have hpos : 0 < st.refCount (rawCid d) := by
    rw [h.counted.refs]
    unfold occurrences
    rw [AssocMap.sum_erase _ hlookup]
    exact Nat.add_pos_left (List.count_pos_iff.mpr hd) _
  obtain ⟨info, hinfo⟩ := exists_lookup_of_refCount hpos
  -- and the data that are there have the digest of these
  obtain ⟨d', hD', -, -, heq, hview⟩ := h.stored.present _ info hinfo
  obtain rfl : d = d' := (hfree.eq_of_ofData hD hD' heq).2
  exact hview

variable [BlockStore S] [LawfulBlockStore S] [ReliableBlockStore S]

theorem readChunks_ok [CidText] (hview : ∀ d ∈ chunks, view st.inner (rawCid d) = some d)
    (data : Bytes) : st.readChunks (chunks.map rawCid) data = .ok (data ++ chunks.flatten) := by
  induction chunks generalizing data with
  | nil => exact congrArg Except.ok (List.append_nil data).symm
  | cons chunk chunks ih =>
    rw [List.map_cons, List.flatten_cons, ← List.append_assoc]
    unfold readChunks
    rw [BlockStore.get_eq, hview chunk List.mem_cons_self]
    exact ih (fun d hd => hview d (List.mem_cons_of_mem _ hd)) (data ++ chunk)

/-- **`get` returns the blocks that are there.** -/
theorem Inv.get [CidText] (hfree : HashCrate.CollisionFree .sha256 D) (h : Inv D st contents)
    (c : Cid) : st.get c = .ok ((contents c).map (Block.mk c)) := by
  unfold DedupBlockStore.get
  cases hcontents : contents c with
  | none =>
    rw [h.absent c hcontents]
    rfl
  | some data =>
    obtain ⟨-, hsize, rfl, manifest, hlookup, -, chunks, hchunks, hflat, hD⟩ :=
      h.block c data hcontents
    have hview : ∀ d ∈ chunks, view st.inner (rawCid d) = some d := by
      intro d hd
      refine h.view_chunk hfree hlookup (hD d hd) ?_
      rw [hchunks]
      exact List.mem_map_of_mem hd
    rw [hlookup]
    dsimp only
    unfold reconstructBlock
    rw [hchunks, readChunks_ok hview [], List.nil_append, hflat]
    exact congrArg (Except.map some) (Block.new_of_size hsize.1 hsize.2)

omit [BlockStore S] [LawfulBlockStore S] [ReliableBlockStore S] in
/-- The manifest of a block is added after its chunks have been stored, and accounts for exactly the
references that they got. -/
theorem Inv.addManifest (h : Inv D st contents) (hD : data ∈ D)
    (hsize : minBlockSize ≤ data.length ∧ data.length ≤ maxBlockSize)
    (hlookup : st.manifests.lookup (rawCid data) = none) (hstored : Stored D st₁)
    (hcounted : Counted st₁ (fun c => st.occurrences c + (chunks.map rawCid).count c) [])
    (hsame : SameBlocks st st₁) (hflat : chunks.flatten = data) (hchunks : ∀ d ∈ chunks, d ∈ D) :
    Inv D (st₁.addManifest (rawCid data) ⟨data.length, chunks.map rawCid⟩)
      (Function.update contents (rawCid data) (some data)) := by
  have herase : st₁.manifests.erase (rawCid data) = st.manifests := by
    rw [hsame.manifests]
    exact AssocMap.erase_of_lookup_eq_none hlookup
  have hoccurrences : (fun c => st.occurrences c + (chunks.map rawCid).count c) =
      (st₁.addManifest (rawCid data) ⟨data.length, chunks.map rawCid⟩).occurrences := by
    funext c
    unfold occurrences DedupBlockStore.addManifest
    rw [AssocMap.sum_insert, herase, Nat.add_comm]
  refine ⟨⟨hstored.present, hstored.absent, hstored.uniqueChunks, hstored.bytesStored⟩,
    ?_, fun c data' hc => ?_, fun c hc => ?_, ?_, ?_⟩
  · rw [← hoccurrences]
    exact ⟨hcounted.refs, hcounted.mem_dead, hcounted.nodup⟩
  · change _ ∧ _ ∧ _ ∧ ∃ manifest, (st₁.manifests.insert _ _).lookup c = _ ∧ _
    by_cases hne : c = rawCid data
    · -- the new block
      subst hne
      rw [Function.update_self] at hc
      obtain rfl := Option.some.inj hc
      exact ⟨hD, hsize, rfl, _, AList.lookup_insert _, rfl, chunks, rfl, hflat, hchunks⟩
    · rw [Function.update_of_ne hne] at hc
      rw [AList.lookup_insert_ne hne, hsame.manifests]
      exact h.block c data' hc
  · change (st₁.manifests.insert _ _).lookup c = none
    have hne : c ≠ rawCid data := by
      rintro rfl
      rw [Function.update_self] at hc
      exact absurd hc (by simp)
    rw [Function.update_of_ne hne] at hc
    rw [AList.lookup_insert_ne hne, hsame.manifests]
    exact h.absent c hc
  · change st₁.stats.blocksStored + 1 = (st₁.manifests.insert _ _).entries.length
    rw [AssocMap.length_insert, herase, hsame.blocksStored, h.blocksStored]
  · change st₁.stats.bytesOriginal + data.length = AssocMap.sum _ (st₁.manifests.insert _ _)
    rw [AssocMap.sum_insert, herase, hsame.bytesOriginal, h.bytesOriginal, Nat.add_comm]

/-- **A block is put**, if it is not there already. -/
theorem Inv.put (hfree : HashCrate.CollisionFree .sha256 D) (h : Inv D st contents)
    (hvalid : st.config.Valid) {block : Block} (hnew : Block.new data = .ok block) (hD : data ∈ D)
    (hchunks : ∀ fuel chunks, Chunker.chunk st.config fuel data = some (.ok chunks) →
      ∀ d ∈ chunks, d ∈ D) :
    (∃ fuel st', st.put fuel block = some (st', .ok ())) ∧
      ∀ fuel st' r, st.put fuel block = some (st', r) → r = .ok () ∧ st'.config = st.config ∧
        Inv D st' (Function.update contents block.cid (some block.data)) := by
  obtain ⟨hsize, rfl⟩ := Block.new_eq_ok.mp hnew
  change (∃ fuel st', st.put fuel ⟨rawCid data, data⟩ = some (st', .ok ())) ∧
    ∀ fuel st' r, st.put fuel ⟨rawCid data, data⟩ = some (st', r) → r = .ok () ∧
      st'.config = st.config ∧ Inv D st' (Function.update contents (rawCid data) (some data))
  by_cases hmem : rawCid data ∈ st.manifests
  · -- the same data were put before
    have hput : ∀ fuel, st.put fuel ⟨rawCid data, data⟩ = some (st, .ok ()) := fun _ => if_pos hmem
    have hsame : contents (rawCid data) = some data := by
      cases hcontents : contents (rawCid data) with
      | none => exact absurd hmem (AList.lookup_eq_none.mp (h.absent _ hcontents))
      | some data' =>
        obtain ⟨hD', -, heq, -⟩ := h.block _ _ hcontents
        rw [(hfree.eq_of_ofData hD hD' heq).2]
    refine ⟨⟨0, st, hput 0⟩, fun fuel st' r h' => ?_⟩
    rw [hput] at h'
    obtain ⟨rfl, rfl⟩ := Prod.mk.inj (Option.some.inj h')
    refine ⟨rfl, rfl, ?_⟩
    rw [← hsame, Function.update_eq_self]
    exact h
  · have hlookup : st.manifests.lookup (rawCid data) = none := AList.lookup_eq_none.mpr hmem
    have hne : data ≠ [] := List.ne_nil_of_length_pos hsize.1
    -- whatever the number of rounds, the block is cut and its chunks are stored
    have hspec : ∀ fuel r, Chunker.chunk st.config fuel data = some r →
        ∃ st', st.put fuel ⟨rawCid data, data⟩ = some (st', .ok ()) ∧ st'.config = st.config ∧
          Inv D st' (Function.update contents (rawCid data) (some data)) := by
      intro fuel r hchunk
      obtain ⟨chunks, rfl, hflat, hnil⟩ := Chunker.chunk_ok hvalid hne hchunk
      have hin := hchunks fuel chunks hchunk
      have hsizes : ∀ d ∈ chunks, minBlockSize ≤ d.length ∧ d.length ≤ maxBlockSize := by
        intro d hd
        have hle : d.length ≤ data.length := by
          rw [← hflat]
          exact (List.sublist_flatten_of_mem hd).length_le
        exact ⟨List.length_pos_of_ne_nil (hnil d hd), hle.trans hsize.2⟩
      obtain ⟨st₁, hstore, hstored, hcounted, hsame⟩ :=
        storeChunks_ok h.stored h.counted hin hsizes []
      refine ⟨_, ?_, ?_, h.addManifest hD hsize hlookup hstored hcounted hsame hflat hin⟩
      · unfold DedupBlockStore.put
        rw [if_neg hmem, hchunk, Option.map_some]
        dsimp only
        rw [hstore]
        rfl
      · exact hsame.config
    constructor
    · obtain ⟨fuel, r, hchunk⟩ := Chunker.exists_chunk hvalid data
      obtain ⟨st', hput, -⟩ := hspec fuel r hchunk
      exact ⟨fuel, st', hput⟩
    · intro fuel st' r h'
      cases hchunk : Chunker.chunk st.config fuel data with
      | none =>
        unfold DedupBlockStore.put at h'
        rw [if_neg hmem, hchunk] at h'
        exact absurd h' (by simp)
      | some r' =>
        obtain ⟨st'', hput, hconfig, hinv⟩ := hspec fuel r' hchunk
        rw [hput] at h'
        obtain ⟨rfl, rfl⟩ := Prod.mk.inj (Option.some.inj h')
        exact ⟨rfl, hconfig, hinv⟩

omit [BlockStore S] [LawfulBlockStore S] [ReliableBlockStore S] in
/-- A manifest is taken away, and its chunks have been released: what is left of their references is
what the other manifests account for. -/
theorem Inv.removeManifest (h : Inv D st contents) {c : Cid}
    (hlookup : st.manifests.lookup c = some manifest) (hstored : Stored D st₁)
    (hcounted : Counted st₁
      (occurrences { st with manifests := st.manifests.erase c }) [])
    (hsame : SameBlocks { st with manifests := st.manifests.erase c } st₁) :
    Inv D
      { st₁ with
        stats := { st₁.stats with
          blocksStored := st₁.stats.blocksStored - 1
          bytesOriginal := st₁.stats.bytesOriginal - manifest.originalSize } }
      (Function.update contents c none) := by
  have hmanifests : st₁.manifests = st.manifests.erase c := hsame.manifests
  have hoccurrences : occurrences { st with manifests := st.manifests.erase c } =
      st₁.occurrences := by
    funext c'
    unfold occurrences
    rw [hmanifests]
  rw [hoccurrences] at hcounted
  refine ⟨⟨hstored.present, hstored.absent, hstored.uniqueChunks, hstored.bytesStored⟩,
    ⟨hcounted.refs, hcounted.mem_dead, hcounted.nodup⟩, fun c' data hc' => ?_, fun c' hc' => ?_,
    ?_, ?_⟩
  · -- the other blocks are where they were
    have hne : c' ≠ c := by
      rintro rfl
      rw [Function.update_self] at hc'
      exact absurd hc' (by simp)
    rw [Function.update_of_ne hne] at hc'
    rw [hmanifests, AList.lookup_erase_ne hne]
    exact h.block c' data hc'
  · rw [hmanifests]
    by_cases hne : c' = c
    · rw [hne]
      exact AList.lookup_erase _ _
    · rw [Function.update_of_ne hne] at hc'
      rw [AList.lookup_erase_ne hne]
      exact h.absent c' hc'
  · show st₁.stats.blocksStored - 1 = st₁.manifests.entries.length
    have hbefore : st₁.stats.blocksStored = st.manifests.entries.length :=
      hsame.blocksStored.trans h.blocksStored
    rw [hbefore, hmanifests, AssocMap.length_erase hlookup, Nat.add_sub_cancel]
  · show st₁.stats.bytesOriginal - manifest.originalSize = AssocMap.sum _ st₁.manifests
    have hbefore : st₁.stats.bytesOriginal = AssocMap.sum BlockManifest.originalSize st.manifests :=
      hsame.bytesOriginal.trans h.bytesOriginal
    rw [hbefore, hmanifests, AssocMap.sum_erase BlockManifest.originalSize hlookup,
      Nat.add_sub_cancel_left]

/-- **A block is deleted**, if it is there. -/
theorem Inv.delete (h : Inv D st contents) (c : Cid) :
    ∃ st', st.delete c = (st', .ok ()) ∧ st'.config = st.config ∧
      Inv D st' (Function.update contents c none) := by
  unfold DedupBlockStore.delete
  cases hlookup : st.manifests.lookup c with
  | none =>
    have hnone : contents c = none := by
      cases hcontents : contents c with
      | none => rfl
      | some data =>
        obtain ⟨-, -, -, manifest, hmanifest, -⟩ := h.block c data hcontents
        rw [hlookup] at hmanifest
        exact absurd hmanifest (by simp)
    refine ⟨st, rfl, rfl, ?_⟩
    rw [← hnone, Function.update_eq_self]
    exact h
  | some manifest =>
    -- the references of its chunks are counted still, but no manifest accounts for them
    set st₀ : DedupBlockStore S := { st with manifests := st.manifests.erase c }
    have hoccurrences : ∀ c', st.occurrences c' =
        st₀.occurrences c' + manifest.chunks.count c' := by
      intro c'
      unfold occurrences
      rw [AssocMap.sum_erase _ hlookup, Nat.add_comm]
    have hstored₀ : Stored D st₀ :=
      ⟨h.stored.present, h.stored.absent, h.stored.uniqueChunks, h.stored.bytesStored⟩
    have hcounted₀ : Counted st₀ (fun c' => st₀.occurrences c' + manifest.chunks.count c') [] := by
      rw [← funext hoccurrences]
      exact ⟨h.counted.refs, h.counted.mem_dead, h.counted.nodup⟩
    -- they are taken away, and then the chunks that have none left
    obtain ⟨st₁, dead, hdecrement, hstored₁, hcounted₁, hsame₁⟩ :=
      decrementRefs_ok hstored₀ hcounted₀
    obtain ⟨st₂, hremove, hstored₂, hcounted₂, hsame₂⟩ := removeChunks_ok hstored₁ hcounted₁
    have hrelease : decrementChunkRefs st₀ manifest.chunks = (st₂, .ok ()) := by
      unfold decrementChunkRefs
      rw [hdecrement]
      exact hremove
    have hsame := hsame₁.trans hsame₂
    dsimp only
    rw [hrelease]
    exact ⟨_, rfl, hsame.config, h.removeManifest hlookup hstored₂ hcounted₂ hsame⟩

end Operations

/-! ### The counters -/

section Counters

variable [StoreView S] [HashCrate] {D : Set Bytes} {st : DedupBlockStore S}
  {contents : Cid → Option Bytes}

theorem Inv.isSome_view_iff (h : Inv D st contents) (c : Cid) :
    (view st.inner c).isSome ↔ 0 < st.refCount c := by
  cases hlookup : st.chunkIndex.lookup c with
  | none =>
    rw [h.stored.absent c hlookup, refCount_of_lookup_eq_none hlookup]
    simp
  | some info =>
    obtain ⟨data, -, -, -, -, hview⟩ := h.stored.present c info hlookup
    rw [hview, h.counted.refs]
    simp [h.counted.pos (AssocMap.mem_of_lookup hlookup)]

theorem Inv.mem_listCids_iff (h : Inv D st contents) (c : Cid) :
    c ∈ st.listCids ↔ (contents c).isSome := by
  unfold listCids
  rw [← AList.mem_keys, ← AList.lookup_isSome]
  cases hcontents : contents c with
  | none =>
    rw [h.absent c hcontents]
    rfl
  | some data =>
    obtain ⟨-, -, -, manifest, hlookup, -⟩ := h.block c data hcontents
    rw [hlookup]
    rfl

theorem Inv.bytesOriginal_eq (h : Inv D st contents) : st.stats.bytesOriginal =
    (st.listCids.map fun c => ((contents c).getD []).length).sum := by
  rw [h.bytesOriginal, AssocMap.sum_eq_sum_keys]
  refine congrArg List.sum (List.map_congr_left fun c hc => ?_)
  obtain ⟨data, hcontents⟩ := Option.isSome_iff_exists.mp ((h.mem_listCids_iff c).mp hc)
  obtain ⟨-, -, -, manifest, hlookup, hsize, -⟩ := h.block c data hcontents
  rw [hlookup, hcontents]
  exact hsize

/-- `bytes_stored` and `unique_chunks` are the size and number of what is in the inner store. -/
theorem Inv.bytesStored_eq [BlockStore S] [LawfulBlockStore S] (h : Inv D st contents)
    {chunks : List Cid} (hlist : BlockStore.listCids st.inner = .ok chunks) :
    st.stats.uniqueChunks = chunks.length ∧
      st.stats.bytesStored = (chunks.map fun c => ((view st.inner c).getD []).length).sum := by
  obtain ⟨hnodup, hmem⟩ := LawfulBlockStore.listCids_ok hlist
  -- the index and the inner store have the same CIDs, in some order each
  have hperm : st.chunkIndex.keys.Perm chunks := by
    refine (List.perm_ext_iff_of_nodup st.chunkIndex.keys_nodup hnodup).mpr fun c => ?_
    rw [hmem, h.isSome_view_iff, h.counted.refs, ← AList.mem_keys]
    refine ⟨h.counted.pos, fun hpos => ?_⟩
    rw [← h.counted.refs] at hpos
    obtain ⟨info, hlookup⟩ := exists_lookup_of_refCount hpos
    exact AssocMap.mem_of_lookup hlookup
  constructor
  · rw [h.stored.uniqueChunks, ← hperm.length_eq]
    exact (List.length_map ..).symm
  · rw [h.stored.bytesStored, AssocMap.sum_eq_sum_keys, ← (hperm.map _).sum_eq]
    refine congrArg List.sum (List.map_congr_left fun c hc => ?_)
    obtain ⟨info, hlookup⟩ := Option.isSome_iff_exists.mp (AList.lookup_isSome.mpr hc)
    obtain ⟨data, -, -, hsize, -, hview⟩ := h.stored.present c info hlookup
    rw [hlookup, hview]
    exact hsize

end Counters

/-! ### Runs -/

/-- The operations that change the store. -/
inductive Op where
  | put (block : Block)
  | delete (cid : Cid)

/-- What an operation does to the blocks. -/
def Op.apply (contents : Cid → Option Bytes) : Op → Cid → Option Bytes
  | .put block => Function.update contents block.cid (some block.data)
  | .delete cid => Function.update contents cid none

/-- The blocks that were put and not deleted since. -/
def contents (ops : List Op) : Cid → Option Bytes := ops.foldl Op.apply fun _ => none

/-- The data of the blocks that are put, and of their chunks. -/
def touched (config : ChunkingConfig) (ops : List Op) : Set Bytes :=
  {d | ∃ block, .put block ∈ ops ∧ (d = block.data ∨
    ∃ fuel chunks, Chunker.chunk config fuel block.data = some (.ok chunks) ∧ d ∈ chunks)}

/-- A sequence of operations, each of which succeeds. -/
inductive Run [BlockStore S] [HashCrate] : DedupBlockStore S → List Op → DedupBlockStore S → Prop
  | nil {st} : Run st [] st
  | put {st st' st'' fuel block ops} : put st fuel block = some (st', .ok ()) →
      Run st' ops st'' → Run st (.put block :: ops) st''
  | delete {st st' st'' cid ops} : delete st cid = (st', .ok ()) →
      Run st' ops st'' → Run st (.delete cid :: ops) st''

section Runs

variable [BlockStore S] [StoreView S] [LawfulBlockStore S] [ReliableBlockStore S] [HashCrate]
  {config : ChunkingConfig} {D : Set Bytes}

/-- **Every sequence of operations succeeds and keeps the invariant**, by induction on the
operations. `D` stays fixed meanwhile: it has the data of all operations, so that the chunks of a
block do not collide with those that come later either. -/
theorem Inv.run (hvalid : config.Valid) (hfree : HashCrate.CollisionFree .sha256 D) {ops : List Op}
    (hnew : ∀ block, .put block ∈ ops → ∃ data, Block.new data = .ok block)
    (hD : touched config ops ⊆ D) {st : DedupBlockStore S} {f : Cid → Option Bytes}
    (hconfig : st.config = config) (h : Inv D st f) :
    (∃ st', Run st ops st') ∧ ∀ st', Run st ops st' → Inv D st' (ops.foldl Op.apply f) := by
  induction ops generalizing st f with
  | nil =>
    refine ⟨⟨st, .nil⟩, fun st' hrun => ?_⟩
    cases hrun
    exact h
  | cons op ops ih =>
    have hnew' : ∀ block, .put block ∈ ops → ∃ data, Block.new data = .ok block :=
      fun block hb => hnew block (List.mem_cons_of_mem _ hb)
    have hD' : touched config ops ⊆ D := by
      rintro d ⟨block, hb, hd⟩
      exact hD ⟨block, List.mem_cons_of_mem _ hb, hd⟩
    cases op with
    | put block =>
      -- the first operation succeeds and keeps the invariant, and the others follow
      obtain ⟨data, hblock⟩ := hnew block List.mem_cons_self
      have hdata : block.data = data := by
        obtain ⟨-, rfl⟩ := Block.new_eq_ok.mp hblock
        rfl
      have hin : data ∈ D := hD ⟨block, List.mem_cons_self, Or.inl hdata.symm⟩
      obtain ⟨⟨fuel, st₁, hput⟩, hspec⟩ := h.put hfree (hconfig ▸ hvalid) hblock hin
        fun fuel chunks hchunk d hd => by
          rw [hconfig, ← hdata] at hchunk
          exact hD ⟨block, List.mem_cons_self, Or.inr ⟨fuel, chunks, hchunk, hd⟩⟩
      constructor
      · obtain ⟨-, hconfig₁, h₁⟩ := hspec fuel st₁ _ hput
        obtain ⟨st', hrun⟩ := (ih hnew' hD' (hconfig₁.trans hconfig) h₁).1
        exact ⟨st', .put hput hrun⟩
      · intro st' hrun
        cases hrun with
        | put hput hrun =>
          obtain ⟨-, hconfig₁, h₁⟩ := hspec _ _ _ hput
          exact (ih hnew' hD' (hconfig₁.trans hconfig) h₁).2 st' hrun
    | delete cid =>
      obtain ⟨st₁, hdelete, hconfig₁, h₁⟩ := h.delete cid
      have hrest := ih hnew' hD' (hconfig₁.trans hconfig) h₁
      constructor
      · obtain ⟨st', hrun⟩ := hrest.1
        exact ⟨st', .delete hdelete hrun⟩
      · intro st' hrun
        cases hrun with
        | delete hdelete' hrun =>
          rw [hdelete] at hdelete'
          obtain ⟨rfl, -⟩ := Prod.mk.inj hdelete'
          exact hrest.2 st' hrun

/-- **The deduplicating store is a map of blocks.** From an empty store, every sequence of puts and
deletions succeeds. `get` returns the blocks that were put and not deleted since; the reference
count of a chunk is the number of its occurrences in the manifests; the inner store holds the chunks
that have references; and the statistics are the numbers and sizes of the blocks and of the chunks.

All of this is read off the invariant at the end of the run. The statistics of the chunks are
compared with what the inner store lists, which is not what they are computed from. -/
theorem Run.dedup_correct [CidText] (hvalid : config.Valid) {inner : S}
    (hempty : ∀ c, view inner c = none) {ops : List Op}
    (hnew : ∀ block, .put block ∈ ops → ∃ data, Block.new data = .ok block)
    (hfree : HashCrate.CollisionFree .sha256 (touched config ops)) :
    (∃ st, Run (new inner config) ops st) ∧ ∀ st, Run (new inner config) ops st →
      (∀ c, st.get c = .ok ((contents ops c).map (Block.mk c))) ∧
      (∀ c, st.refCount c = st.occurrences c) ∧
      (∀ c, (view st.inner c).isSome ↔ 0 < st.refCount c) ∧
      st.listCids.Nodup ∧ (∀ c, c ∈ st.listCids ↔ (contents ops c).isSome) ∧
      st.stats.blocksStored = st.listCids.length ∧
      st.stats.bytesOriginal =
        (st.listCids.map fun c => ((contents ops c).getD []).length).sum ∧
      ∀ chunks, BlockStore.listCids st.inner = .ok chunks →
        st.stats.uniqueChunks = chunks.length ∧
        st.stats.bytesStored = (chunks.map fun c => ((view st.inner c).getD []).length).sum := by
  obtain ⟨hexists, hinv⟩ := (inv_new hempty config).run hvalid hfree hnew subset_rfl rfl
  refine ⟨hexists, fun st hrun => ?_⟩
  have h : Inv (touched config ops) st (contents ops) := hinv st hrun
  refine ⟨h.get hfree, h.counted.refs, h.isSome_view_iff, st.manifests.keys_nodup,
    h.mem_listCids_iff, ?_, h.bytesOriginal_eq, fun chunks => h.bytesStored_eq⟩
  rw [h.blocksStored]
  exact (List.length_map ..).symm

end Runs

section Sample

open scoped CidReference

/-- The SHA2-256 digests of one and of two zero bytes. -/
def zerosDigest (data : Bytes) : Bytes :=
  if data = [0] then
    BigEndian.encode 32 0x6e340b9cffb37a989ca544e6bb780a2c78901d3fb33738768511a30617afa01d
  else
    BigEndian.encode 32 0x96a296d224f285c67bee93c30f8a309157f0daa35dc5b87e410b78630a09cfc7

theorem length_zerosDigest (data : Bytes) : (zerosDigest data).length = 32 := by
  unfold zerosDigest
  split <;> rfl

/-- The hash crate on these two inputs. -/
@[reducible]
def zerosHash : HashCrate := CidReference.hashOf zerosDigest length_zerosDigest

/-- Chunks of one byte. -/
def byteConfig : ChunkingConfig where
  minChunkSize := 1
  targetChunkSize := 1
  maxChunkSize := 1

/-- Put a block of two equal chunks, then one that is such a chunk, and delete the first. -/
def zerosOps : List Op :=
  letI := zerosHash
  [.put ⟨rawCid [0, 0], [0, 0]⟩, .put ⟨rawCid [0], [0]⟩, .delete (rawCid [0, 0])]

theorem touched_zerosOps {d : Bytes} (h : d ∈ touched byteConfig zerosOps) :
    d = [0, 0] ∨ d = [0] := by
  obtain ⟨block, hb, hd⟩ := h
  have hdata : block.data = [0, 0] ∨ block.data = [0] := by
    rcases List.mem_cons.mp hb with hb | hb
    · exact Or.inl (congrArg Block.data (Op.put.inj hb))
    · rcases List.mem_cons.mp hb with hb | hb
      · exact Or.inr (congrArg Block.data (Op.put.inj hb))
      · exact absurd (List.mem_singleton.mp hb) (by simp)
  rcases hd with rfl | ⟨fuel, chunks, hchunk, hd⟩
  · exact hdata
  rcases hdata with hdata | hdata
  · -- three rounds are enough for the first block
    rw [hdata] at hchunk
    have hrun : WhileLoop.run (Chunker.chunkStep byteConfig) 3 ([0, 0], []) =
        some (.ok [[0], [0]]) := rfl
    have hchunks := WhileLoop.Returns.unique ⟨fuel, hchunk⟩ ⟨3, hrun⟩
    rw [Except.ok.inj hchunks] at hd
    exact Or.inr (by simpa using hd)
  · rw [hdata] at hchunk
    have hchunks : chunks = [[0]] := (Except.ok.inj (Option.some.inj hchunk)).symm
    rw [hchunks] at hd
    exact Or.inr (List.mem_singleton.mp hd)

theorem dedup_correct_zeros :
    letI := zerosHash
    ∃ st, Run (new MemoryBlockStore.new byteConfig) zerosOps st ∧
      st.get (rawCid [0]) = .ok (some ⟨rawCid [0], [0]⟩) ∧ st.get (rawCid [0, 0]) = .ok none := by
  let := zerosHash
  have hnew : ∀ block, .put block ∈ zerosOps → ∃ data, Block.new data = .ok block := by
    intro block hb
    rcases List.mem_cons.mp hb with hb | hb
    · exact ⟨[0, 0], by rw [Op.put.inj hb]; rfl⟩
    · rcases List.mem_cons.mp hb with hb | hb
      · exact ⟨[0], by rw [Op.put.inj hb]; rfl⟩
      · exact absurd (List.mem_singleton.mp hb) (by simp)
  -- the two blocks that are touched have different digests
  have hfree : HashCrate.CollisionFree .sha256 (touched byteConfig zerosOps) := by
    intro d hd d' hd' heq
    have heq : zerosDigest d = zerosDigest d' := congrArg Subtype.val heq
    have hne : zerosDigest [0, 0] ≠ zerosDigest [0] := by decide +kernel
    rcases touched_zerosOps hd with rfl | rfl
    · rcases touched_zerosOps hd' with rfl | rfl
      · rfl
      · exact absurd heq hne
    · rcases touched_zerosOps hd' with rfl | rfl
      · exact absurd heq.symm hne
      · rfl
  have hempty : ∀ c, view MemoryBlockStore.new c = none := fun _ => rfl
  obtain ⟨⟨st, hrun⟩, hspec⟩ :=
    Run.dedup_correct ⟨le_refl 1, le_refl 1, le_refl 1⟩ hempty hnew hfree
  obtain ⟨hget, -⟩ := hspec st hrun
  have hone : contents zerosOps (rawCid [0]) = some [0] := by decide +kernel
  have htwo : contents zerosOps (rawCid [0, 0]) = none := by decide +kernel
  refine ⟨st, hrun, ?_, ?_⟩
  · rw [hget, hone]
    rfl
  · rw [hget, htwo]
    rfl

end Sample

end DedupBlockStore

end Ipfrs.Storage
