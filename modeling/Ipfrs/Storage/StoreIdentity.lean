import Ipfrs.Storage.DedupCorrect
import Ipfrs.Storage.EventualStore

/-!
# Blocks that come back under another CID

The trait `BlockStore` keeps a block under its CID, whatever codec and hash function the CID has.
`DedupBlockStore` and `EventualStore` keep the data alone and make a new block of it when they are
asked (`Block::new`), which has the raw codec and SHA2-256.

The blocks that are put are content-addressed (`Addressed`): the hash in the CID is that of the
data, under any of the hash functions, with any codec and version. Over the data at hand no two
collide, so a CID determines the data (`Addressed.unique`); but it is the CID that is lost.

* `DedupBlockStore.Holds` — the invariant of a deduplicating store in which blocks of any size, with
  any CIDs, have been put: chunks may have more references than the manifests account for, since a
  `put` that fails half way leaves those it has made.
* `EventualStore.Holds` — the recorded values and the inner store have the data of their CIDs.
-/

namespace Ipfrs

section Canonical

variable [HashCrate] {d : Bytes}

/-- A block that `Block::new` could have made. -/
def Canonical (block : Block) : Prop :=
  block.cid = Cid.ofData Codec.raw .sha256 block.data ∧
    minBlockSize ≤ block.data.length ∧ block.data.length ≤ maxBlockSize

/-- `Block::new` makes the canonical blocks, each of its own data. -/
theorem new_eq_ok_iff_canonical {block : Block} :
    Block.new d = .ok block ↔ block.data = d ∧ Canonical block := by
  rw [Block.new_eq_ok]
  constructor
  · rintro ⟨hsize, rfl⟩
    exact ⟨rfl, rfl, hsize⟩
  · rintro ⟨rfl, hcid, hsize⟩
    refine ⟨hsize, ?_⟩
    obtain ⟨cid, data⟩ := block
    exact congrArg (Block.mk · data) hcid

end Canonical

variable {config : Storage.ChunkingConfig}

theorem Storage.Chunker.flatten_of_chunk (hvalid : config.Valid) {fuel : ℕ} {data : Bytes}
    {chunks : List Bytes} (h : Storage.Chunker.chunk config fuel data = some (.ok chunks)) :
    chunks.flatten = data := by
  by_cases hne : data = []
  · subst hne
    have hshort : ([] : Bytes).length ≤ config.minChunkSize := Nat.zero_le _
    rw [Storage.Chunker.chunk, if_pos hshort] at h
    obtain rfl := Except.ok.inj (Option.some.inj h)
    rfl
  · obtain ⟨chunks', heq, hflat, -⟩ := Storage.Chunker.chunk_ok hvalid hne h
    obtain rfl := Except.ok.inj heq
    exact hflat

namespace Storage.DedupBlockStore

variable {S : Type} [BlockStore S] [StoreView S] [LawfulBlockStore S] [ReliableBlockStore S]
  [HashCrate] {D : Set Bytes} {st st' : DedupBlockStore S} {want : Cid → ℕ}

/-! ### The deduplicating store -/

/-- `put` returns with `Ok`, and then `get` returns the block. -/
def PutGet [CidText] (st : DedupBlockStore S) (block : Block) : Prop :=
  (∃ fuel st', st.put fuel block = some (st', .ok ())) ∧
    ∀ fuel st' r, st.put fuel block = some (st', r) →
      r = .ok () ∧ st'.get block.cid = .ok (some block)

/-- The data of a chunk are among `D`, and so are those of every block. -/
def Closed (config : ChunkingConfig) (D : Set Bytes) : Prop :=
  ∀ d ∈ D, ∀ fuel chunks, Chunker.chunk config fuel d = some (.ok chunks) → ∀ d' ∈ chunks, d' ∈ D

/-- The chunks in the index are in the inner store, and every block of the inner store has the hash
of its data. The inner store may hold other blocks. -/
structure Kept (D : Set Bytes) (st : DedupBlockStore S) : Prop where
  present : ∀ c info, st.chunkIndex.lookup c = some info →
    info.cid = c ∧ (view st.inner c).isSome
  inner : StoresAddressed D st.inner

/-- **What holds whatever was put**: every chunk of a manifest has a reference, and the manifest
under a CID describes data with that hash. -/
structure Holds (D : Set Bytes) (st : DedupBlockStore S) : Prop where
  kept : Kept D st
  counted : ∃ want, Counted st want [] ∧ ∀ c, st.occurrences c ≤ want c
  manifest : ∀ c manifest, st.manifests.lookup c = some manifest →
    ∃ data, Addressed D c data ∧ Describes D manifest data

variable {inner : S} {c : Cid} {block : Block} {info : ChunkMeta} {data : Bytes}
  {chunks : List Bytes} {dead : List Cid} {st₁ : DedupBlockStore S} {fuel : ℕ}
  {r : Except Fault Unit}

omit [LawfulBlockStore S] [ReliableBlockStore S] [BlockStore S] in
theorem holds_new (hinner : StoresAddressed D inner) (config : ChunkingConfig) :
    Holds D (new inner config) where
  kept := ⟨fun c info h => absurd h (by simp [new]), hinner⟩
  counted := by
    refine ⟨fun _ => 0, .of_pos (fun _ => rfl) fun c hc => ?_, fun _ => le_refl _⟩
    exact absurd hc (AList.notMem_empty c)
  manifest c manifest h := absurd h (by simp [new])

omit [StoreView S] [LawfulBlockStore S] [ReliableBlockStore S] in
/-- Only a block that `Block::new` could have made comes back, from any store. -/
theorem canonical_of_get [CidText] (h : st.get c = .ok (some block)) : Canonical block := by
  unfold DedupBlockStore.get at h
  cases hlookup : st.manifests.lookup c with
  | none =>
    rw [hlookup] at h
    exact absurd h (by simp)
  | some manifest =>
    rw [hlookup] at h
    dsimp only at h
    unfold reconstructBlock at h
    cases hread : st.readChunks manifest.chunks [] with
    | error e =>
      rw [hread] at h
      exact absurd h (by simp [Bind.bind, Except.bind, Except.map])
    | ok data =>
      rw [hread] at h
      have hnew : (Block.new data).map some = .ok (some block) := h
      cases hblock : Block.new data with
      | error e =>
        rw [hblock] at hnew
        exact absurd hnew (by simp [Except.map])
      | ok block' =>
        -- the answer is what `Block::new` has made
        rw [hblock] at hnew
        obtain rfl := Option.some.inj (Except.ok.inj hnew)
        exact (new_eq_ok_iff_canonical.mp hblock).2

/-! #### The chunks -/

omit [BlockStore S] [LawfulBlockStore S] [ReliableBlockStore S] in
theorem Kept.recount (h : Kept D st) (hlookup : st.chunkIndex.lookup c = some info) (n : ℕ)
    (hindex : st'.chunkIndex = st.chunkIndex.insert c { info with refCount := n })
    (hinner : st'.inner = st.inner) : Kept D st' := by
  refine ⟨fun c' info' hlookup' => ?_, fun c' data hview => ?_⟩
  · rw [hindex] at hlookup'
    rw [hinner]
    obtain ⟨rfl, rfl⟩ | ⟨-, hold⟩ := AssocMap.lookup_insert_eq_some.mp hlookup'
    · exact h.present c' info hlookup
    · exact h.present c' info' hold
  · rw [hinner] at hview
    exact h.inner c' data hview

omit [ReliableBlockStore S] in
/-- A chunk that is put into the inner store, which may have it already. -/
theorem Kept.insert (hfree : ∀ a, HashCrate.CollisionFree a D) (h : Kept D st) (hD : data ∈ D)
    (hput : BlockStore.put st.inner ⟨rawCid data, data⟩ = .ok inner)
    (hinfo : info.cid = rawCid data)
    (hindex : st'.chunkIndex = st.chunkIndex.insert (rawCid data) info)
    (hinner : st'.inner = inner) : Kept D st' := by
  have haddressed : Addressed D (rawCid data) data := addressed_ofData _ _ hD
  subst hinner
  refine ⟨fun c info' hlookup => ?_, h.inner.put hfree haddressed hput⟩
  rw [hindex] at hlookup
  obtain ⟨rfl, rfl⟩ | ⟨hne, hold⟩ := AssocMap.lookup_insert_eq_some.mp hlookup
  · refine ⟨hinfo, ?_⟩
    rw [(h.inner.fits hfree haddressed).view_put hput]
    rfl
  · rw [(LawfulBlockStore.put_ok hput).2 c hne]
    exact h.present c info' hold

omit [ReliableBlockStore S] in
theorem Kept.erase (h : Kept D st) (hdelete : BlockStore.delete st.inner c = .ok inner)
    (hindex : st'.chunkIndex = st.chunkIndex.erase c) (hinner : st'.inner = inner) :
    Kept D st' := by
  subst hinner
  refine ⟨fun c' info hlookup => ?_, h.inner.delete hdelete⟩
  rw [hindex] at hlookup
  have hne : c' ≠ c := by
    rintro rfl
    rw [AList.lookup_erase] at hlookup
    exact absurd hlookup (by simp)
  rw [(LawfulBlockStore.delete_ok hdelete).2 c' hne]
  exact h.present c' info (AssocMap.lookup_of_lookup_erase hlookup)

/-- A chunk of a valid size is stored, and has one reference more. -/
theorem Kept.storeChunk (hfree : ∀ a, HashCrate.CollisionFree a D) (h : Kept D st)
    (hcounted : Counted st want []) (hD : data ∈ D)
    (hsize : minBlockSize ≤ data.length ∧ data.length ≤ maxBlockSize) :
    ∃ st', st.storeChunk data = (st', .ok (rawCid data)) ∧ Kept D st' ∧
      Counted st' (fun c => want c + [rawCid data].count c) [] ∧ SameBlocks st st' := by
  refine storeChunk_keeps hsize hcounted (fun info hlookup => ?_) fun inner _ hput => ?_
  · exact ⟨(h.present _ info hlookup).1, h.recount hlookup (info.refCount + 1) rfl rfl⟩
  · exact h.insert hfree hD hput rfl rfl rfl

/-- When the loop ends with the error of a chunk that is no block, the chunks before it have been
stored. So there may be more references than any manifest accounts for, but never fewer. -/
theorem Kept.storeChunks (hfree : ∀ a, HashCrate.CollisionFree a D) (h : Kept D st)
    (hcounted : Counted st want []) (hD : ∀ d ∈ chunks, d ∈ D) (cids : List Cid) :
    ∃ st' r want', storeChunks chunks cids st = (st', r) ∧ Kept D st' ∧ Counted st' want' [] ∧
      (∀ c, want c ≤ want' c) ∧ SameBlocks st st' ∧
      ((∀ d ∈ chunks, minBlockSize ≤ d.length ∧ d.length ≤ maxBlockSize) → ∃ cids', r = .ok cids') ∧
        ∀ cids', r = .ok cids' → cids' = cids ++ chunks.map rawCid ∧
          ∀ c, want c + (chunks.map rawCid).count c ≤ want' c := by
  induction chunks generalizing st want cids with
  | nil =>
    refine ⟨st, _, want, rfl, h, hcounted, fun c => le_refl _, .refl st, fun _ => ⟨_, rfl⟩, ?_⟩
    intro cids' hcids
    rw [List.map_nil, List.append_nil]
    exact ⟨(Except.ok.inj hcids).symm, fun c => le_refl _⟩
  | cons chunk chunks ih =>
    by_cases hsize : minBlockSize ≤ chunk.length ∧ chunk.length ≤ maxBlockSize
    · obtain ⟨st₁, hchunk, hkept₁, hcounted₁, hsame₁⟩ :=
        h.storeChunk hfree hcounted (hD chunk List.mem_cons_self) hsize
      obtain ⟨st', r, want', hrest, hkept', hcounted', hle, hsame', hall, hok⟩ :=
        ih hkept₁ hcounted₁ (fun d hd => hD d (List.mem_cons_of_mem _ hd)) (cids ++ [rawCid chunk])
      refine ⟨st', r, want', ?_, hkept', hcounted',
        fun c => (Nat.le_add_right _ _).trans (hle c), hsame₁.trans hsame',
        fun hsizes => hall fun d hd => hsizes d (List.mem_cons_of_mem _ hd), ?_⟩
      · unfold DedupBlockStore.storeChunks
        rw [hchunk]
        exact hrest
      · intro cids' hcids
        obtain ⟨rfl, hcount⟩ := hok cids' hcids
        refine ⟨by rw [List.append_assoc]; rfl, fun c => ?_⟩
        have hcons : ([rawCid chunk] ++ chunks.map rawCid).count c = _ := List.count_append
        rw [List.map_cons, ← List.singleton_append, hcons, ← Nat.add_assoc]
        exact hcount c
    · -- a chunk that is no block ends the loop
      obtain ⟨e, he⟩ : ∃ e, Block.new chunk = .error e := by
        cases hnew : Block.new chunk with
        | error e => exact ⟨e, rfl⟩
        | ok block => exact absurd (Block.new_eq_ok.mp hnew).1 hsize
      refine ⟨st, .error e, want, ?_, h, hcounted, fun c => le_refl _, .refl st,
        fun hsizes => absurd (hsizes chunk List.mem_cons_self) hsize, ?_⟩
      · unfold DedupBlockStore.storeChunks DedupBlockStore.storeChunk
        rw [he]
      · intro cids' hcids
        exact absurd hcids (by simp)

omit [BlockStore S] [LawfulBlockStore S] [ReliableBlockStore S] in
/-- References are taken away, and the chunks that have none left are noted. -/
theorem Kept.decrementRefs {cids : List Cid} (h : Kept D st)
    (hcounted : Counted st (fun c => want c + cids.count c) dead) :
    ∃ st' dead', decrementRefs cids (st, dead) = (st', dead') ∧ Kept D st' ∧
      Counted st' want dead' ∧ SameBlocks st st' :=
  decrementRefs_keeps h (fun h hlookup => h.recount hlookup _ rfl rfl) hcounted

theorem Kept.removeChunks (h : Kept D st) (hcounted : Counted st want dead) :
    ∃ st', removeChunks dead st = (st', .ok ()) ∧ Kept D st' ∧ Counted st' want [] ∧
      SameBlocks st st' :=
  removeChunks_keeps h (fun h _ hdelete => h.erase hdelete rfl rfl) hcounted

/-! #### The blocks -/

omit [BlockStore S] [LawfulBlockStore S] [ReliableBlockStore S] in
/-- A new manifest, with chunks that have references of their own. -/
theorem Holds.addManifest (h : Holds D st) (hkept : Kept D st₁) (hcounted : Counted st₁ want [])
    (hsame : SameBlocks st st₁) (hlookup : st.manifests.lookup c = none)
    (hwant : ∀ c', st.occurrences c' + (chunks.map rawCid).count c' ≤ want c')
    (haddressed : Addressed D c data) (hflat : chunks.flatten = data)
    (hchunks : ∀ d ∈ chunks, d ∈ D) :
    Holds D (st₁.addManifest c ⟨data.length, chunks.map rawCid⟩) := by
  refine ⟨⟨hkept.present, hkept.inner⟩,
    ⟨want, ⟨hcounted.refs, hcounted.mem_dead, hcounted.nodup⟩, fun c' => ?_⟩, ?_⟩
  · -- the CID had no manifest
    have herase : st₁.manifests.erase c = st.manifests := by
      rw [hsame.manifests]
      exact AssocMap.erase_of_lookup_eq_none hlookup
    calc occurrences (st₁.addManifest c ⟨data.length, chunks.map rawCid⟩) c'
        = (chunks.map rawCid).count c' + st.occurrences c' := by
          unfold occurrences DedupBlockStore.addManifest
          rw [AssocMap.sum_insert, herase]
      _ = st.occurrences c' + (chunks.map rawCid).count c' := Nat.add_comm _ _
      _ ≤ want c' := hwant c'
  · intro c' manifest hmanifest
    have hmanifest : (st₁.manifests.insert c ⟨data.length, chunks.map rawCid⟩).lookup c' =
        some manifest := hmanifest
    obtain ⟨rfl, rfl⟩ | ⟨-, hold⟩ := AssocMap.lookup_insert_eq_some.mp hmanifest
    · exact ⟨data, haddressed, rfl, chunks, rfl, hflat, hchunks⟩
    · rw [hsame.manifests] at hold
      exact h.manifest c' manifest hold

omit [BlockStore S] [LawfulBlockStore S] [ReliableBlockStore S] in
/-- The chunks of a put block, stored to the end or not, leave the manifests as they are. -/
theorem Holds.sameBlocks (h : Holds D st) (hkept : Kept D st₁) (hcounted : Counted st₁ want [])
    (hsame : SameBlocks st st₁) (hwant : ∀ c, st.occurrences c ≤ want c) : Holds D st₁ := by
  refine ⟨hkept, ⟨want, hcounted, fun c => ?_⟩, fun c manifest hmanifest => ?_⟩
  · have hoccurrences : st₁.occurrences c = st.occurrences c := by
      unfold occurrences
      rw [hsame.manifests]
    rw [hoccurrences]
    exact hwant c
  · rw [hsame.manifests] at hmanifest
    exact h.manifest c manifest hmanifest

/-- **`put` keeps the invariant**, whatever it answers, and an `Ok` leaves a manifest. -/
theorem Holds.put (hfree : ∀ a, HashCrate.CollisionFree a D) (hvalid : st.config.Valid)
    (hclosed : Closed st.config D) (h : Holds D st) (haddressed : Addressed D block.cid block.data)
    {st' : DedupBlockStore S} (hput : st.put fuel block = some (st', r)) :
    st'.config = st.config ∧ Holds D st' ∧ (r = .ok () → block.cid ∈ st'.manifests) := by
  unfold DedupBlockStore.put at hput
  split at hput
  · next hmem =>
    obtain ⟨rfl, rfl⟩ := Prod.mk.inj (Option.some.inj hput)
    exact ⟨rfl, h, fun _ => hmem⟩
  next hmem =>
  have hlookup : st.manifests.lookup block.cid = none := AList.lookup_eq_none.mpr hmem
  cases hchunk : Chunker.chunk st.config fuel block.data with
  | none =>
    rw [hchunk] at hput
    exact absurd hput (by simp)
  | some answer =>
    rw [hchunk, Option.map_some] at hput
    cases answer with
    | error f =>
      obtain ⟨rfl, rfl⟩ := Prod.mk.inj (Option.some.inj hput)
      exact ⟨rfl, h, fun hok => absurd hok (by simp)⟩
    | ok chunks =>
      have hchunks := hclosed _ haddressed.mem fuel chunks hchunk
      obtain ⟨want, hcounted, hwant⟩ := h.counted
      obtain ⟨st₁, r₁, want', hstore, hkept', hcounted', hle, hsame, -, hok⟩ :=
        h.kept.storeChunks hfree hcounted hchunks []
      dsimp only at hput
      rw [hstore] at hput
      cases r₁ with
      | error e =>
        -- the chunks stored so far keep the references they were given
        obtain ⟨rfl, rfl⟩ := Prod.mk.inj (Option.some.inj hput)
        refine ⟨hsame.config, ?_, fun hok => absurd hok (by simp)⟩
        exact h.sameBlocks hkept' hcounted' hsame fun c => (hwant c).trans (hle c)
      | ok cids =>
        obtain ⟨rfl, rfl⟩ := Prod.mk.inj (Option.some.inj hput)
        obtain ⟨rfl, hcount⟩ := hok cids rfl
        have hmem' : block.cid ∈ (st₁.addManifest block.cid
            ⟨block.data.length, chunks.map rawCid⟩).manifests :=
          (AList.mem_insert _).mpr (Or.inl rfl)
        refine ⟨hsame.config, ?_, fun _ => hmem'⟩
        refine h.addManifest hkept' hcounted' hsame hlookup (fun c => ?_) haddressed
          (Chunker.flatten_of_chunk hvalid hchunk) hchunks
        exact (Nat.add_le_add_right (hwant c) _).trans (hcount c)

/-- **`delete` keeps the invariant.** The references of the block's chunks are taken away, and those
that a failed `put` has left are not touched. -/
theorem Holds.delete (h : Holds D st) {r : Except Error Unit} (hdelete : st.delete c = (st', r)) :
    st'.config = st.config ∧ Holds D st' := by
  unfold DedupBlockStore.delete at hdelete
  cases hlookup : st.manifests.lookup c with
  | none =>
    rw [hlookup] at hdelete
    obtain ⟨rfl, -⟩ := Prod.mk.inj hdelete
    exact ⟨rfl, h⟩
  | some manifest =>
    obtain ⟨want, hcounted, hwant⟩ := h.counted
    set st₀ : DedupBlockStore S := { st with manifests := st.manifests.erase c }
    have hoccurrences : ∀ c', st.occurrences c' =
        st₀.occurrences c' + manifest.chunks.count c' := by
      intro c'
      unfold occurrences
      rw [AssocMap.sum_erase _ hlookup, Nat.add_comm]
    -- what is left when the references of this manifest are gone
    have hsplit : want =
        fun c' => want c' - manifest.chunks.count c' + manifest.chunks.count c' := by
      funext c'
      have hle := hwant c'
      rw [hoccurrences] at hle
      exact (Nat.sub_add_cancel ((Nat.le_add_left _ _).trans hle)).symm
    have hkept₀ : Kept D st₀ := ⟨h.kept.present, h.kept.inner⟩
    have hcounted₀ : Counted st₀
        (fun c' => want c' - manifest.chunks.count c' + manifest.chunks.count c') [] := by
      rw [← hsplit]
      exact ⟨hcounted.refs, hcounted.mem_dead, hcounted.nodup⟩
    obtain ⟨st₁, dead, hdecrement, hkept₁, hcounted₁, hsame₁⟩ := hkept₀.decrementRefs hcounted₀
    obtain ⟨st₂, hremove, hkept₂, hcounted₂, hsame₂⟩ := hkept₁.removeChunks hcounted₁
    have hrelease : decrementChunkRefs st₀ manifest.chunks = (st₂, .ok ()) := by
      unfold decrementChunkRefs
      rw [hdecrement]
      exact hremove
    have hsame := hsame₁.trans hsame₂
    rw [hlookup] at hdelete
    dsimp only at hdelete
    rw [hrelease] at hdelete
    obtain ⟨rfl, -⟩ := Prod.mk.inj hdelete
    have hmanifests : st₂.manifests = st.manifests.erase c := hsame.manifests
    refine ⟨hsame.config,
      ⟨hkept₂.present, hkept₂.inner⟩,
      ⟨_, ⟨hcounted₂.refs, hcounted₂.mem_dead, hcounted₂.nodup⟩, fun c' => ?_⟩,
      fun c' manifest' hmanifest => ?_⟩
    · have hsame' : st₂.occurrences c' = st₀.occurrences c' := by
        unfold occurrences
        rw [hmanifests]
      have hle := hwant c'
      rw [hoccurrences] at hle
      show st₂.occurrences c' ≤ want c' - manifest.chunks.count c'
      rw [hsame']
      exact Nat.le_sub_of_add_le hle
    · have hmanifest : st₂.manifests.lookup c' = some manifest' := hmanifest
      rw [hmanifests] at hmanifest
      exact h.manifest c' manifest' (AssocMap.lookup_of_lookup_erase hmanifest)

/-- **`get` makes a block of the data** that belong to the CID. -/
theorem Holds.get [CidText] (hfree : ∀ a, HashCrate.CollisionFree a D) (h : Holds D st)
    (hmem : c ∈ st.manifests) (haddressed : Addressed D c data) :
    st.get c = (Block.new data).map some := by
  obtain ⟨manifest, hlookup⟩ := Option.isSome_iff_exists.mp (AList.lookup_isSome.mpr hmem)
  obtain ⟨data', haddressed', -, chunks, hchunks, hflat, hD⟩ := h.manifest c manifest hlookup
  obtain rfl := haddressed'.unique hfree haddressed
  obtain ⟨want, hcounted, hwant⟩ := h.counted
  -- a chunk of the manifest has a reference, and so the inner store has it
  have hview : ∀ d ∈ chunks, view st.inner (rawCid d) = some d := by
    intro d hd
    have hpos : 0 < st.refCount (rawCid d) := by
      rw [hcounted.refs]
      refine lt_of_lt_of_le ?_ (hwant _)
      unfold occurrences
      rw [AssocMap.sum_erase _ hlookup, hchunks]
      exact Nat.add_pos_left (List.count_pos_iff.mpr (List.mem_map_of_mem hd)) _
    obtain ⟨info, hinfo⟩ := exists_lookup_of_refCount hpos
    obtain ⟨d', hview⟩ := Option.isSome_iff_exists.mp (h.kept.present _ info hinfo).2
    obtain rfl := (h.kept.inner _ _ hview).unique hfree (addressed_ofData _ _ (hD d hd))
    exact hview
  unfold DedupBlockStore.get reconstructBlock
  rw [hlookup]
  dsimp only
  rw [hchunks, readChunks_ok hview [], List.nil_append, hflat]
  rfl

theorem Holds.put_eq_ok (hfree : ∀ a, HashCrate.CollisionFree a D) (hvalid : st.config.Valid)
    (hclosed : Closed st.config D) (h : Holds D st) (hD : block.data ∈ D)
    (hsize : minBlockSize ≤ block.data.length ∧ block.data.length ≤ maxBlockSize)
    (hput : st.put fuel block = some (st', r)) : r = .ok () := by
  unfold DedupBlockStore.put at hput
  split at hput
  · exact (Prod.mk.inj (Option.some.inj hput)).2.symm
  cases hchunk : Chunker.chunk st.config fuel block.data with
  | none =>
    rw [hchunk] at hput
    exact absurd hput (by simp)
  | some answer =>
    obtain ⟨chunks, rfl, hflat, hnil⟩ :=
      Chunker.chunk_ok hvalid (List.ne_nil_of_length_pos hsize.1) hchunk
    -- a chunk is not empty and not larger than the block
    have hsizes : ∀ d ∈ chunks, minBlockSize ≤ d.length ∧ d.length ≤ maxBlockSize := by
      intro d hd
      have hle : d.length ≤ block.data.length := by
        rw [← hflat]
        exact (List.sublist_flatten_of_mem hd).length_le
      exact ⟨List.length_pos_of_ne_nil (hnil d hd), hle.trans hsize.2⟩
    obtain ⟨want, hcounted, -⟩ := h.counted
    obtain ⟨st₁, r₁, want', hstore, -, -, -, -, hall, -⟩ :=
      h.kept.storeChunks hfree hcounted (hclosed _ hD fuel chunks hchunk) []
    obtain ⟨cids, rfl⟩ := hall hsizes
    rw [hchunk, Option.map_some] at hput
    dsimp only at hput
    rw [hstore] at hput
    exact (Prod.mk.inj (Option.some.inj hput)).2.symm

omit [LawfulBlockStore S] [ReliableBlockStore S] [StoreView S] in
theorem exists_put (hvalid : st.config.Valid) (block : Block) :
    ∃ fuel st' r, st.put fuel block = some (st', r) := by
  obtain ⟨fuel, answer, hchunk⟩ := Chunker.exists_chunk hvalid block.data
  have hsome : (st.put fuel block).isSome := by
    unfold DedupBlockStore.put
    split
    · rfl
    · rw [hchunk]
      rfl
  obtain ⟨⟨st', r⟩, hput⟩ := Option.isSome_iff_exists.mp hsome
  exact ⟨fuel, st', r, hput⟩

/-- **Which blocks come back**: the ones that `Block::new` could have made. -/
theorem Holds.putGet_iff [CidText] (hvalid : st.config.Valid) (hclosed : Closed st.config D)
    (hfree : ∀ a, HashCrate.CollisionFree a D) (h : Holds D st)
    (haddressed : Addressed D block.cid block.data) : st.PutGet block ↔ Canonical block := by
  constructor
  · rintro ⟨⟨fuel, st', hput⟩, hget⟩
    exact canonical_of_get (hget fuel st' _ hput).2
  · intro hcanonical
    have hnew : Block.new block.data = .ok block := new_eq_ok_iff_canonical.mpr ⟨rfl, hcanonical⟩
    -- a `put` that returns has stored the block
    have hback : ∀ fuel st' r, st.put fuel block = some (st', r) →
        r = .ok () ∧ st'.get block.cid = .ok (some block) := by
      intro fuel st' r hput
      have hr := h.put_eq_ok hfree hvalid hclosed haddressed.mem hcanonical.2 hput
      obtain ⟨-, h', hmem⟩ := h.put hfree hvalid hclosed haddressed hput
      refine ⟨hr, ?_⟩
      rw [h'.get hfree (hmem hr) haddressed, hnew]
      rfl
    obtain ⟨fuel, st', r, hput⟩ := exists_put hvalid block
    obtain ⟨rfl, -⟩ := hback fuel st' r hput
    exact ⟨⟨fuel, st', hput⟩, hback⟩

/-- The states of a store in use: blocks whose CIDs have the hash of the data are put, and blocks
are deleted, with whatever answers. -/
inductive Reachable (D : Set Bytes) (config : ChunkingConfig) : DedupBlockStore S → Prop
  | new {inner : S} (hinner : StoresAddressed D inner) : Reachable D config (new inner config)
  | put {st st' : DedupBlockStore S} {fuel : ℕ} {block : Block} {r : Except Fault Unit}
      (h : Reachable D config st) (haddressed : Addressed D block.cid block.data)
      (hput : st.put fuel block = some (st', r)) : Reachable D config st'
  | delete {st st' : DedupBlockStore S} {c : Cid} {r : Except Error Unit}
      (h : Reachable D config st) (hdelete : st.delete c = (st', r)) : Reachable D config st'

theorem Reachable.holds {config : ChunkingConfig} (hfree : ∀ a, HashCrate.CollisionFree a D)
    (hvalid : config.Valid) (hclosed : Closed config D) (h : Reachable D config st) :
    st.config = config ∧ Holds D st := by
  induction h with
  | new hinner => exact ⟨rfl, holds_new hinner config⟩
  | put _ haddressed hput ih =>
    obtain ⟨rfl, hst⟩ := ih
    obtain ⟨hconfig, hst', -⟩ := hst.put hfree hvalid hclosed haddressed hput
    exact ⟨hconfig, hst'⟩
  | delete _ hdelete ih =>
    obtain ⟨rfl, hst⟩ := ih
    exact hst.delete hdelete

end Storage.DedupBlockStore

/-! ### The eventually consistent store -/

namespace EventualStore

variable {S : Type} [BlockStore S] [HashCrate] {D : Set Bytes} {s s' : EventualStore S} {c : Cid}

/-- `put` returns with `Ok`, and then `get` returns the block, at whatever times. -/
def PutGet [DashMapCrate] (s : EventualStore S) (block : Block) : Prop :=
  ∀ now now', ∃ s', s.put block now = some (s', .ok ()) ∧
    (s'.get block.cid now').2 = .ok (some block)

/-- **What holds whatever was put**: the data under a CID have the hash in it. -/
structure Holds [StoreView S] (D : Set Bytes) (s : EventualStore S) : Prop where
  versions : ∀ c value, s.versions.lookup c = some value → Addressed D c value.data
  inner : StoresAddressed D s.inner

variable {block : Block} {value : VersionedValue}

/-- Only a block that `Block::new` could have made comes back, from any store. -/
theorem canonical_of_get {now : UInt64} (h : (s.get c now).2 = .ok (some block)) :
    Canonical block := by
  unfold EventualStore.get at h
  cases hget : s.getVersioned c now with
  | mk s' r =>
    rw [hget] at h
    cases r with
    | error e => exact absurd h (by simp)
    | ok found =>
      cases found with
      | none => exact absurd h (by simp)
      | some versioned =>
        have hnew : (Block.new versioned.data).map some = .ok (some block) := h
        cases hblock : Block.new versioned.data with
        | error e =>
          rw [hblock] at hnew
          exact absurd hnew (by simp [Except.map])
        | ok block' =>
          -- the answer is what `Block::new` has made
          rw [hblock] at hnew
          obtain rfl := Option.some.inj (Except.ok.inj hnew)
          exact (new_eq_ok_iff_canonical.mp hblock).2

variable [StoreView S] [LawfulBlockStore S]

theorem Holds.record (hfree : ∀ a, HashCrate.CollisionFree a D) (h : Holds D s)
    (haddressed : Addressed D c value.data) : Holds D (s.record c value).1 := by
  have hversions : ∀ c' value', (s.versions.insert c value).lookup c' = some value' →
      Addressed D c' value'.data := by
    intro c' value' hlookup
    obtain ⟨rfl, rfl⟩ | ⟨-, hold⟩ := AssocMap.lookup_insert_eq_some.mp hlookup
    · exact haddressed
    · exact h.versions c' value' hold
  unfold EventualStore.record
  dsimp only
  split
  · exact ⟨hversions, h.inner⟩
  next block hblock =>
  split
  · exact ⟨hversions, h.inner⟩
  next inner hput =>
  -- the inner store gets a raw block of the data
  obtain ⟨hdata, hcid, -⟩ := new_eq_ok_iff_canonical.mp hblock
  refine ⟨hversions, h.inner.put hfree ?_ hput⟩
  rw [hcid]
  exact addressed_ofData _ _ (hdata ▸ haddressed.mem)

theorem Holds.putVersioned [DashMapCrate] (hfree : ∀ a, HashCrate.CollisionFree a D) (h : Holds D s)
    (haddressed : Addressed D c value.data) {r : Except Error Unit}
    (hput : s.putVersioned c value = some (s', r)) : Holds D s' := by
  unfold EventualStore.putVersioned at hput
  cases hlookup : s.versions.lookup c with
  | none =>
    rw [hlookup] at hput
    have heq := Option.some.inj hput
    have hrecord := h.record hfree haddressed
    rw [heq] at hrecord
    exact hrecord
  | some existing =>
    rw [hlookup] at hput
    dsimp only at hput
    split at hput
    · -- the insertion returns
      have heq := Option.some.inj hput
      have hwinner : Addressed D c (resolveConflict s.conflictResolution existing value).data := by
        obtain hold | hnew := selective_resolveConflict s.conflictResolution existing value
        · rw [hold]
          exact h.versions c existing hlookup
        · rw [hnew]
          exact haddressed
      have hrecord := h.record hfree hwinner
      rw [heq] at hrecord
      exact hrecord
    · exact absurd hput (by simp)

theorem Holds.get (h : Holds D s) (c : Cid) (now : UInt64) : Holds D (s.get c now).1 := by
  have hversioned : Holds D (s.getVersioned c now).1 := by
    unfold getVersioned
    cases hlookup : s.versions.lookup c with
    | some value => exact h
    | none =>
      dsimp only
      cases hget : BlockStore.get s.inner c with
      | error e => exact h
      | ok found =>
        cases found with
        | none => exact h
        | some block =>
          refine ⟨fun c' value' hvalue => ?_, h.inner⟩
          obtain ⟨rfl, rfl⟩ | ⟨-, hold⟩ := AssocMap.lookup_insert_eq_some.mp hvalue
          · -- the inner store has the block under its CID
            have hfound := (LawfulBlockStore.get_ok hget).symm
            obtain ⟨data, hview, rfl⟩ := Option.map_eq_some_iff.mp hfound
            exact h.inner c' data hview
          · exact h.versions c' value' hold
  unfold EventualStore.get
  split <;> next heq => rw [heq] at hversioned; exact hversioned

theorem Holds.delete (h : Holds D s) (c : Cid) : Holds D (s.delete c).1 := by
  have hversions : ∀ c' value, (s.versions.erase c).lookup c' = some value →
      Addressed D c' value.data :=
    fun c' value hlookup => h.versions c' value (AssocMap.lookup_of_lookup_erase hlookup)
  unfold EventualStore.delete
  dsimp only
  split
  · exact ⟨hversions, h.inner⟩
  next inner hdelete =>
  exact ⟨hversions, h.inner.delete hdelete⟩

omit [StoreView S] [LawfulBlockStore S] in
theorem get_of_lookup (h : s.versions.lookup c = some value) (now : UInt64) :
    (s.get c now).2 = (Block.new value.data).map some := by
  unfold EventualStore.get getVersioned
  rw [h]

omit [LawfulBlockStore S] in
/-- A call that returns has recorded a value with the data of the CID. -/
theorem Holds.exists_winner [DashMapCrate] (hfree : ∀ a, HashCrate.CollisionFree a D)
    (h : Holds D s) (haddressed : Addressed D c value.data)
    (hreturns : s.versions.lookup c = none ∨ DashMapCrate.insertWhileHeld = true) :
    ∃ winner, winner.data = value.data ∧ s.putVersioned c value = some (s.record c winner) := by
  refine ⟨_, ?_, putVersioned_eq hreturns⟩
  cases hlookup : s.versions.lookup c with
  | none => rfl
  | some existing =>
    have hsame : existing.data = value.data :=
      (h.versions c existing hlookup).unique hfree haddressed
    obtain hold | hnew := selective_resolveConflict s.conflictResolution existing value
    · rw [Knockout.absorb, hold, hsame]
    · rw [Knockout.absorb, hnew]

omit [LawfulBlockStore S] in
/-- **Which blocks come back**: the ones that `Block::new` could have made, where the call
returns. -/
theorem Holds.putGet_iff [ReliableBlockStore S] [DashMapCrate]
    (hfree : ∀ a, HashCrate.CollisionFree a D) (h : Holds D s)
    (haddressed : Addressed D block.cid block.data) :
    s.PutGet block ↔ Canonical block ∧
      (s.versions.lookup block.cid = none ∨ DashMapCrate.insertWhileHeld = true) := by
  constructor
  · intro hput
    obtain ⟨s', hput, hget⟩ := hput 0 0
    refine ⟨canonical_of_get hget, ?_⟩
    cases hlookup : s.versions.lookup block.cid with
    | none => exact Or.inl rfl
    | some existing =>
      -- otherwise the insertion would not have returned
      right
      by_contra hheld
      rw [put, putVersioned_eq_none hlookup (Bool.eq_false_of_not_eq_true hheld)] at hput
      exact absurd hput (by simp)
  · rintro ⟨hcanonical, hreturns⟩ now now'
    have hnew : Block.new block.data = .ok block := new_eq_ok_iff_canonical.mpr ⟨rfl, hcanonical⟩
    have hvalue : Addressed D block.cid (VersionedValue.new block.data s.nodeId now).data :=
      haddressed
    obtain ⟨winner, hdata, hput⟩ := h.exists_winner hfree hvalue hreturns
    have hdata : winner.data = block.data := hdata
    obtain ⟨inner, hinner⟩ := ReliableBlockStore.put s.inner block
    -- the value that was recorded has the data of the block, whichever it is
    have hok : (s.record block.cid winner).2 = .ok () := by
      rw [EventualStore.record, hdata, hnew]
      dsimp only
      rw [hinner]
    refine ⟨(s.record block.cid winner).1, ?_, ?_⟩
    · rw [put, hput, ← hok]
    · have hlookup : (s.record block.cid winner).1.versions.lookup block.cid = some winner := by
        rw [record_versions, AList.lookup_insert]
      rw [get_of_lookup hlookup, hdata, hnew]
      rfl

/-- The states of a store in use over an inner store whose blocks have the hash of their data. -/
inductive Reachable [DashMapCrate] (D : Set Bytes) : EventualStore S → Prop
  | new {inner : S} {level : ConsistencyLevel} {strategy : ConflictResolution} {nodeId : UInt64}
      (hinner : StoresAddressed D inner) :
      Reachable D (new inner level strategy nodeId)
  | put {s s' : EventualStore S} {block : Block} {now : UInt64} {r : Except Error Unit}
      (h : Reachable D s) (haddressed : Addressed D block.cid block.data)
      (hput : s.put block now = some (s', r)) : Reachable D s'
  | get {s : EventualStore S} (c : Cid) (now : UInt64) (h : Reachable D s) :
      Reachable D (s.get c now).1
  | delete {s : EventualStore S} (c : Cid) (h : Reachable D s) : Reachable D (s.delete c).1

theorem Reachable.holds [DashMapCrate] (hfree : ∀ a, HashCrate.CollisionFree a D)
    (h : Reachable D s) : Holds D s := by
  induction h with
  | new hinner =>
    refine ⟨fun c value hlookup => ?_, hinner⟩
    exact absurd hlookup (by simp [EventualStore.new])
  | put _ haddressed hput ih => exact ih.putVersioned hfree haddressed hput
  | get c now _ ih => exact ih.get c now
  | delete c _ ih => exact ih.delete c

end EventualStore

/-- **Which blocks come back** from the two stores, whatever codec and hash function their CIDs
have: the ones that `Block::new` could have made. The eventually consistent store has to return, in
addition. -/
theorem putGet_iff_canonical [HashCrate] [CidText] [DashMapCrate] {S : Type} [BlockStore S]
    [StoreView S] [LawfulBlockStore S] [ReliableBlockStore S] {D : Set Bytes}
    (hfree : ∀ a, HashCrate.CollisionFree a D) (hvalid : config.Valid)
    (hclosed : Storage.DedupBlockStore.Closed config D) :
    (∀ (st : Storage.DedupBlockStore S) (block : Block),
      Storage.DedupBlockStore.Reachable D config st → Addressed D block.cid block.data →
        (st.PutGet block ↔ Canonical block)) ∧
    ∀ (s : EventualStore S) (block : Block),
      EventualStore.Reachable D s → Addressed D block.cid block.data →
        (s.PutGet block ↔ Canonical block ∧
          (s.versions.lookup block.cid = none ∨ DashMapCrate.insertWhileHeld = true)) := by
  constructor
  · intro st block hst haddressed
    obtain ⟨rfl, h⟩ := hst.holds hfree hvalid hclosed
    exact h.putGet_iff hvalid hclosed hfree haddressed
  · intro s block hs haddressed
    exact (hs.holds hfree).putGet_iff hfree haddressed

section Sample

open scoped CidReference

/-- The DAG-CBOR node of the integer 0, which is the byte 0. -/
def zeroNode : Block :=
  let _ := CidReference.byteHash
  ⟨Cid.ofData Codec.dagCbor .sha256 [0], [0]⟩

/-- The same byte as a raw block. -/
def zeroRaw : Block :=
  let _ := CidReference.byteHash
  ⟨Cid.ofData Codec.raw .sha256 [0], [0]⟩

theorem not_canonical_zeroNode :
    let _ := CidReference.byteHash
    ¬ Canonical zeroNode := by
  rintro _ ⟨hcid, -⟩
  have hcodec : Codec.dagCbor = Codec.raw := congrArg Cid.codec hcid
  exact absurd hcodec (by decide)

theorem putGet_iff_canonical_zero :
    let _ := CidReference.byteHash
    let _ : DashMapCrate := ⟨false⟩
    let st : Storage.DedupBlockStore MemoryBlockStore := .new .new {}
    let s : EventualStore MemoryBlockStore := .new .new .eventual .lastWriteWins 0
    st.PutGet zeroRaw ∧ ¬ st.PutGet zeroNode ∧ s.PutGet zeroRaw ∧ ¬ s.PutGet zeroNode := by
  intro _ _ st s
  have hfree : ∀ a, HashCrate.CollisionFree a {([0] : Bytes)} := fun a => Set.injOn_singleton _ _
  have hvalid : ({} : Storage.ChunkingConfig).Valid := ⟨by decide, by decide, by decide⟩
  -- the block is its own only chunk
  have hclosed : Storage.DedupBlockStore.Closed {} {([0] : Bytes)} := by
    rintro d rfl fuel chunks hchunk d' hd'
    have hone : Storage.Chunker.chunk {} fuel [0] = some (.ok [[0]]) := if_pos (by decide)
    rw [hone] at hchunk
    obtain rfl := Except.ok.inj (Option.some.inj hchunk)
    exact List.mem_singleton.mp hd'
  have hempty : StoresAddressed {([0] : Bytes)} MemoryBlockStore.new :=
    fun c data h => absurd h.symm (Option.some_ne_none data)
  have hraw : Addressed {([0] : Bytes)} zeroRaw.cid zeroRaw.data := addressed_ofData _ _ rfl
  have hnode : Addressed {([0] : Bytes)} zeroNode.cid zeroNode.data := addressed_ofData _ _ rfl
  have hcanonical : Canonical zeroRaw := ⟨rfl, by decide, by decide⟩
  obtain ⟨hdedup, heventual⟩ := putGet_iff_canonical (S := MemoryBlockStore) hfree hvalid hclosed
  refine ⟨?_, ?_, ?_, ?_⟩
  · exact (hdedup st zeroRaw (.new hempty) hraw).mpr hcanonical
  · exact fun h => not_canonical_zeroNode ((hdedup st zeroNode (.new hempty) hnode).mp h)
  · exact (heventual s zeroRaw (.new hempty) hraw).mpr ⟨hcanonical, Or.inl rfl⟩
  · exact fun h => not_canonical_zeroNode ((heventual s zeroNode (.new hempty) hnode).mp h).1

/-- A DAG-CBOR node comes back under another CID from either store. -/
theorem not_forall_putGet :
    let _ := CidReference.byteHash
    let _ : DashMapCrate := ⟨false⟩
    (¬ ∀ block : Block, Addressed {[0]} block.cid block.data →
      (Storage.DedupBlockStore.new MemoryBlockStore.new {}).PutGet block) ∧
    ¬ ∀ block : Block, Addressed {[0]} block.cid block.data →
      (EventualStore.new MemoryBlockStore.new .eventual .lastWriteWins 0).PutGet block := by
  intro _ _
  have hnode : Addressed {([0] : Bytes)} zeroNode.cid zeroNode.data := addressed_ofData _ _ rfl
  constructor
  · intro h
    obtain ⟨⟨fuel, st', hput⟩, hget⟩ := h zeroNode hnode
    exact not_canonical_zeroNode
      (Storage.DedupBlockStore.canonical_of_get (hget fuel st' _ hput).2)
  · intro h
    obtain ⟨s', -, hget⟩ := h zeroNode hnode 0 0
    exact not_canonical_zeroNode (EventualStore.canonical_of_get hget)

end Sample

end Ipfrs
