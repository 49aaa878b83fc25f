import Ipfrs.Core.Streaming
import Ipfrs.Core.DagCborRoundTrip

/-!
# Reading back what was chunked

`Chunker::chunk` builds its DAG bottom-up, grouping links; `read_chunked_file` reads it top-down,
breadth-first, through the DAG-CBOR codec. The two meet at `Holds`: a CID holds some data at height
`h` when `h` levels of nodes lie above its leaves, all leaves at the same depth.

* `run_levelStep_holds` — the level loop keeps this: a group of links of height `h` becomes one link
  of height `h + 1`, whatever the length of the group.
* `returns_of_level` — a queue of nodes of one height is read in order. While the nodes of one
  height are being expanded, the queue holds the rest of them and then their children, so data of
  the children still comes out in order.
* `readChunkedFile_chunk` — reading a chunked file gives the file.
-/

namespace Ipfrs

section Holds

variable [CidCrate]

/-- `c` holds `data` at height `h`: a raw block with the data, or a node whose links hold the parts
of the data at height `h - 1`. `stored c b` says that block `b` is found under `c`. -/
def Holds (stored : Cid → Block → Prop) : ℕ → Cid → Bytes → Prop
  | 0, c, data => ∃ b, stored c b ∧ b.cid.codec = Codec.raw ∧ b.data = data
  | h + 1, c, data => ∃ b links parts, stored c b ∧ b.cid.codec = Codec.dagCbor ∧
      Ipld.fromDagCbor b.data = .ok (DagNode.intermediate links).toIpld ∧
        (∀ l ∈ links, l.name = none) ∧
          List.Forall₂ (fun l part => Holds stored h l.cid part) links parts ∧
            data = parts.flatten

theorem Holds.mono {stored stored' : Cid → Block → Prop} (hsub : ∀ c b, stored c b → stored' c b)
    {h : ℕ} {c : Cid} {data : Bytes} (hc : Holds stored h c data) : Holds stored' h c data := by
  induction h generalizing c data with
  | zero =>
    obtain ⟨b, hb, hrest⟩ := hc
    exact ⟨b, hsub c b hb, hrest⟩
  | succ h ih =>
    obtain ⟨b, links, parts, hb, hcodec, hdec, hname, hall, hdata⟩ := hc
    exact ⟨b, links, parts, hsub c b hb, hcodec, hdec, hname,
      hall.imp fun l part hl => ih hl, hdata⟩

end Holds

/-! ### Nodes in IPLD -/

variable {link : DagLink} {α β : Type}

theorem DagLink.toIpld_of_unnamed (h : link.name = none) :
    link.toIpld = .map [("cid", .link link.cid), ("size", .integer link.size.toNat)] := by
  unfold DagLink.toIpld
  rw [h]
  rfl

theorem DagNode.toIpld_intermediate (links : List DagLink) :
    (DagNode.intermediate links).toIpld = .map [("links", .list (links.map DagLink.toIpld)),
      ("totalSize", .integer (DagNode.intermediate links).totalSize.toNat)] := by
  rfl

theorem DagLink.valid_toIpld (h : link.name = none) : link.toIpld.Valid ∧ link.toIpld.IntsFit := by
  obtain ⟨hvalid, hfit⟩ := Ipld.valid_u64 link.size
  rw [DagLink.toIpld_of_unnamed h]
  exact ⟨Ipld.valid_pair (by decide) (by decide) (by decide) trivial hvalid,
    trivial, hfit, trivial⟩

theorem DagNode.valid_toIpld {links : List DagLink} (hname : ∀ l ∈ links, l.name = none)
    (hlen : links.length < 2 ^ 64) :
    (DagNode.intermediate links).toIpld.Valid ∧ (DagNode.intermediate links).toIpld.IntsFit := by
  obtain ⟨hvalid, hfit⟩ := Ipld.valid_u64 (DagNode.intermediate links).totalSize
  have hvalids : (Ipld.list (links.map DagLink.toIpld)).Valid :=
    ⟨by simpa using hlen, Ipld.validList_iff.mpr
      (List.forall_mem_map.mpr fun l hl => (DagLink.valid_toIpld (hname l hl)).1)⟩
  have hfits : Ipld.IntsFitList (links.map DagLink.toIpld) :=
    Ipld.intsFitList_iff.mpr
      (List.forall_mem_map.mpr fun l hl => (DagLink.valid_toIpld (hname l hl)).2)
  rw [DagNode.toIpld_intermediate]
  exact ⟨Ipld.valid_pair (by decide) (by decide) (by decide) hvalids hvalid, hfits, hfit, trivial⟩

section Encoding

variable [CidCrate]

theorem length_le_encode_intermediate (links : List DagLink) :
    links.length ≤ (encodeDagCbor (DagNode.intermediate links).toIpld).length := by
  have h := length_le_encodeItems (links.map DagLink.toIpld)
  rw [List.length_map] at h
  simp only [DagNode.toIpld_intermediate, encodeDagCbor, encodeEntries, List.length_append]
  omega

theorem fromDagCbor_intermediate [LawfulCidCrate] {links : List DagLink}
    (hname : ∀ l ∈ links, l.name = none)
    (hfits : (encodeDagCbor (DagNode.intermediate links).toIpld).length ≤ maxBlockSize) :
    Ipld.fromDagCbor (encodeDagCbor (DagNode.intermediate links).toIpld)
      = .ok (DagNode.intermediate links).toIpld := by
  have hlen := length_le_encode_intermediate links
  have hmax : maxBlockSize < 2 ^ 64 := by decide
  obtain ⟨hvalid, hfit⟩ := DagNode.valid_toIpld hname (by omega)
  exact fromDagCbor_encodeDagCbor hvalid hfit

end Encoding

/-! ### The writer -/

/-- `b` is one of the blocks, and has the CID `c`. -/
def StoredIn (blocks : List Block) (c : Cid) (b : Block) : Prop := b ∈ blocks ∧ b.cid = c

theorem forall₂_append_left {R : α → β → Prop} {g l : List α} {ps : List β}
    (h : List.Forall₂ R (g ++ l) ps) :
    ∃ p q, ps = p ++ q ∧ List.Forall₂ R g p ∧ List.Forall₂ R l q := by
  induction g generalizing ps with
  | nil => exact ⟨[], ps, rfl, .nil, h⟩
  | cons x g ih =>
    obtain _ | ⟨hx, h⟩ := h
    obtain ⟨p, q, rfl, hp, hq⟩ := ih h
    exact ⟨_ :: p, q, rfl, .cons hx hp, hq⟩

/-- What is related to a grouped list can be grouped the same way. -/
theorem forall₂_flatten_left {R : α → β → Prop} {gs : List (List α)} {ps : List β}
    (h : List.Forall₂ R gs.flatten ps) :
    ∃ pss, pss.flatten = ps ∧ List.Forall₂ (List.Forall₂ R) gs pss := by
  induction gs generalizing ps with
  | nil =>
    obtain rfl : ps = [] := by simpa using h
    exact ⟨[], rfl, .nil⟩
  | cons g gs ih =>
    rw [List.flatten_cons] at h
    obtain ⟨p, q, rfl, hp, hq⟩ := forall₂_append_left h
    obtain ⟨pss, rfl, hpss⟩ := ih hq
    exact ⟨p :: pss, rfl, .cons hp hpss⟩

section Writer

variable [HashCrate] [CidCrate]

/-- What the level loop knows: the links of the current level make up the data, all at one height,
and every block made so far carries the CID of its data. -/
structure LevelInv (data : Bytes) (h : ℕ) (blocks : List Block) (links : List DagLink) : Prop where
  holds : ∃ parts, List.Forall₂ (fun l part => Holds (StoredIn blocks) h l.cid part) links parts ∧
    parts.flatten = data
  unnamed : ∀ l ∈ links, l.name = none
  cid_eq : ∀ b ∈ blocks, b.cid = Cid.ofData b.cid.codec .sha256 b.data

variable {data : Bytes} {blocks blocks' : List Block} {h n fuel : ℕ} {links : List DagLink}

theorem LevelInv.leaves {slices : List Bytes} (h : slices.flatten = data) :
    LevelInv data 0 (slices.map Chunker.leafBlock) (slices.map Chunker.leafLink) where
  holds := by
    refine ⟨slices, List.forall₂_map_left_iff.mpr (List.forall₂_same.mpr fun d hd => ?_), h⟩
    exact ⟨Chunker.leafBlock d, ⟨List.mem_map_of_mem hd, rfl⟩, rfl, rfl⟩
  unnamed := List.forall_mem_map.mpr fun _ _ => rfl
  cid_eq := List.forall_mem_map.mpr fun _ _ => rfl

variable [LawfulCidCrate]

/-- A node over links of height `h` holds their data at height `h + 1`. -/
theorem Holds.node {parts : List Bytes} (hmem : Chunker.nodeBlock links ∈ blocks)
    (hfits : (Chunker.nodeBlock links).data.length ≤ maxBlockSize)
    (hname : ∀ l ∈ links, l.name = none)
    (hall : List.Forall₂ (fun l part => Holds (StoredIn blocks) h l.cid part) links parts) :
    Holds (StoredIn blocks) (h + 1) (Chunker.nodeLink links).cid parts.flatten :=
  ⟨_, links, parts, ⟨hmem, rfl⟩, rfl, fromDagCbor_intermediate hname hfits, hname, hall, rfl⟩

/-- **One round of the level loop** turns a level of height `h` into one of height `h + 1`, with the
same data. -/
theorem LevelInv.next {links' : List DagLink} (hI : LevelInv data h blocks links)
    (hstep : Chunker.levelStep n (blocks, links) = .inl (blocks', links')) :
    LevelInv data (h + 1) blocks' links' := by
  obtain ⟨⟨parts, hparts, hdata⟩, hname, hcid⟩ := hI
  obtain ⟨-, hfits, rfl, rfl⟩ := Chunker.levelStep_eq_inl hstep
  set groups := ListChunks.chunks n links with hgroups
  -- the parts of the data are grouped as the links are
  have hflat : groups.flatten = links := ListChunks.flatten_chunks n links
  rw [← hflat] at hparts
  obtain ⟨pss, rfl, hpss⟩ := forall₂_flatten_left hparts
  -- blocks are only added
  have hmono : ∀ c b, StoredIn blocks c b →
      StoredIn (blocks ++ groups.map Chunker.nodeBlock) c b :=
    fun c b hb => ⟨List.mem_append_left _ hb.1, hb.2⟩
  refine ⟨⟨pss.map List.flatten, ?_, ?_⟩, List.forall_mem_map.mpr fun _ _ => rfl, ?_⟩
  · rw [List.forall₂_map_left_iff, List.forall₂_map_right_iff]
    refine List.forall₂_iff_get.mpr ⟨hpss.length_eq, fun i hi hi' => ?_⟩
    have hg : groups.get ⟨i, hi⟩ ∈ groups := List.get_mem groups ⟨i, hi⟩
    refine Holds.node (List.mem_append_right _ (List.mem_map_of_mem hg)) (hfits _ hg) ?_ ?_
    · intro l hl
      exact hname l (hflat ▸ List.mem_flatten.mpr ⟨_, hg, hl⟩)
    · exact (hpss.get hi hi').imp fun l part hl => hl.mono hmono
  · -- grouping does not change what the parts make up
    rw [← List.flatten_flatten, hdata]
  · intro b hb
    rcases List.mem_append.mp hb with hb | hb
    · exact hcid b hb
    · obtain ⟨g, -, rfl⟩ := List.mem_map.mp hb
      rfl

/-- **The level loop** ends with a root that holds the data at some height. -/
theorem run_levelStep_holds {root : Cid} (hI : LevelInv data 0 blocks links)
    (hrun : WhileLoop.run (Chunker.levelStep n) fuel (blocks, links) = some (.ok (root, blocks'))) :
    (∃ h, Holds (StoredIn blocks') h root data) ∧
      ∀ b ∈ blocks', b.cid = Cid.ofData b.cid.codec .sha256 b.data := by
  refine WhileLoop.run_inv (fun st => ∃ h, LevelInv data h st.1 st.2)
    (fun r => ∀ root blocks, r = .ok (root, blocks) → (∃ h, Holds (StoredIn blocks) h root data) ∧
      ∀ b ∈ blocks, b.cid = Cid.ofData b.cid.codec .sha256 b.data)
    ?_ ?_ ⟨0, hI⟩ hrun root blocks' rfl
  · rintro ⟨blocks, links⟩ ⟨blocks', links'⟩ ⟨h, hI⟩ hstep
    exact ⟨h + 1, hI.next hstep⟩
  · rintro ⟨blocks, links⟩ r ⟨h, ⟨parts, hparts, hdata⟩, -, hcid⟩ hstep root blocks' rfl
    obtain ⟨link, rfl, rfl, rfl⟩ := Chunker.levelStep_eq_inr_ok hstep
    -- one link is left, and it holds everything
    obtain _ | ⟨hpart, hnil⟩ := hparts
    obtain rfl := List.forall₂_nil_left_iff.mp hnil
    rw [List.flatten_cons, List.flatten_nil, List.append_nil] at hdata
    exact ⟨⟨h, hdata ▸ hpart⟩, hcid⟩

/-- What chunking leaves behind: a root that holds the data in the blocks of the file. -/
theorem Chunker.chunk_holds {cfg : ChunkingConfig} (hsize : 0 < cfg.chunkSize) {file : ChunkedFile}
    (h : Chunker.chunk fuel cfg data = some (.ok file)) :
    (∃ n, Holds (StoredIn file.blocks) n file.rootCid data) ∧
      ∀ b ∈ file.blocks, b.cid = Cid.ofData b.cid.codec .sha256 b.data := by
  obtain ⟨hne, ⟨hroot, hblocks⟩ | ⟨slices, hslices, hrun⟩⟩ := Chunker.chunk_eq_ok h
  · -- one block holds all of the data
    rw [hroot, hblocks]
    refine ⟨⟨0, Chunker.leafBlock data, ⟨List.mem_singleton_self _, rfl⟩, rfl, rfl⟩, ?_⟩
    intro b hb
    obtain rfl := List.mem_singleton.mp hb
    rfl
  · -- the leaves make up the data, and the level loop keeps it
    obtain ⟨slices', hslices', hflat⟩ := ChunkingConfig.chunkSlices_flatten hsize hne
    obtain rfl := Except.ok.inj (hslices.symm.trans hslices')
    exact run_levelStep_holds (LevelInv.leaves hflat) hrun

end Writer

/-! ### The reader -/

section Reader

variable [CidCrate] {F : Type} [BlockFetcher F] {fetcher : F}

/-- The fetcher returns `b` for `c`. -/
def FetchedFrom (fetcher : F) (c : Cid) (b : Block) : Prop := fetch fetcher c = .ok b

/-- `x` is a node whose links hold the parts of `data` at height `h`. -/
def NodeHolds (fetcher : F) (h : ℕ) (x : Ipld) (data : Bytes) : Prop :=
  ∃ links parts, x = (DagNode.intermediate links).toIpld ∧ (∀ l ∈ links, l.name = none) ∧
    List.Forall₂ (fun l part => Holds (FetchedFrom fetcher) h l.cid part) links parts ∧
      data = parts.flatten

variable {links : List DagLink} {parts : List Bytes} {h : ℕ}

theorem foldlM_readLink_leaves
    (hall : List.Forall₂ (fun l part => Holds (FetchedFrom fetcher) 0 l.cid part) links parts)
    (result : Bytes) (queue : List Ipld) :
    (links.map DagLink.toIpld).foldlM (readLink fetcher) (result, queue)
      = .ok (result ++ parts.flatten, queue) := by
  induction hall generalizing result with
  | nil => simp
  | cons hpart _ ih =>
    -- its codec is raw, so the data of the block is the part
    obtain ⟨b, hb, hcodec, rfl⟩ := hpart
    rw [List.map_cons, List.foldlM_cons, readLink_toIpld hb,
      if_pos hcodec, Except.ok_bind, ih]
    simp

theorem foldlM_readLink_nodes
    (hall : List.Forall₂ (fun l part => Holds (FetchedFrom fetcher) (h + 1) l.cid part) links parts)
    (result : Bytes) (queue : List Ipld) :
    ∃ children, List.Forall₂ (NodeHolds fetcher h) children parts ∧
      (links.map DagLink.toIpld).foldlM (readLink fetcher) (result, queue)
        = .ok (result, queue ++ children) := by
  induction hall generalizing queue with
  | nil => exact ⟨[], .nil, by simp⟩
  | cons hpart _ ih =>
    obtain ⟨b, links', parts', hb, hcodec, hdec, hname', hall', rfl⟩ := hpart
    obtain ⟨children, hchildren, hfold⟩ :=
      ih (queue ++ [(DagNode.intermediate links').toIpld])
    refine ⟨_ :: children, .cons ⟨links', parts', rfl, hname', hall', rfl⟩ hchildren, ?_⟩
    -- its codec is DAG-CBOR, so the block is decoded and waits
    have hraw : b.cid.codec ≠ Codec.raw := by
      rw [hcodec]
      decide
    rw [List.map_cons, List.foldlM_cons, readLink_toIpld hb,
      if_neg hraw, hdec, Except.ok_bind]
    change List.foldlM _ (result, queue ++ [_]) _ = _
    rw [hfold, List.append_assoc, List.singleton_append]

/-- A node of the chunker has no data of its own, so a round of the queue loop only follows its
links. -/
theorem readStep_intermediate (links : List DagLink) (result : Bytes) (queue : List Ipld) :
    readStep fetcher (result, (DagNode.intermediate links).toIpld :: queue) =
      match (links.map DagLink.toIpld).foldlM (readLink fetcher) (result, queue) with
      | .ok st => .inl st
      | .error e => .inr (.error e) := by
  have hread := readStep_toIpld fetcher (DagNode.intermediate links) result queue
  have hdata : result ++ (DagNode.intermediate links).data.getD [] = result :=
    List.append_nil result
  rw [hdata] at hread
  exact hread

/-- **The queue loop reads nodes of one height in order.** The induction is on the height. Nodes
just above the leaves are read one by one; higher nodes are first replaced, one by one, by their
children, which all wait behind the nodes still to be replaced. -/
theorem returns_of_level {nodes : List Ipld}
    (hnodes : List.Forall₂ (NodeHolds fetcher h) nodes parts) (result : Bytes) :
    WhileLoop.Returns (readStep fetcher) (result, nodes) (.ok (result ++ parts.flatten)) := by
  induction h generalizing nodes parts result with
  | zero =>
    induction hnodes generalizing result with
    | nil => exact .of_done (by simp [readStep])
    | @cons x part nodes parts hx _ ih =>
      obtain ⟨links, ps, rfl, hname, hall, rfl⟩ := hx
      have hstep : readStep fetcher (result, (DagNode.intermediate links).toIpld :: nodes)
          = .inl (result ++ ps.flatten, nodes) := by
        rw [readStep_intermediate, foldlM_readLink_leaves hall]
      rw [List.flatten_cons, ← List.append_assoc]
      exact .of_next hstep (ih _)
  | succ h ih =>
    -- `below` are the children of the nodes that have already been replaced
    suffices hmix : ∀ below belowParts, List.Forall₂ (NodeHolds fetcher h) below belowParts →
        WhileLoop.Returns (readStep fetcher) (result, nodes ++ below)
          (.ok (result ++ (belowParts.flatten ++ parts.flatten))) by
      simpa using hmix [] [] .nil
    induction hnodes with
    | nil =>
      -- all of them replaced: what is left is one level lower
      intro below belowParts hbelow
      simpa using ih hbelow result
    | @cons x part nodes parts hx _ ihnodes =>
      intro below belowParts hbelow
      obtain ⟨links, ps, rfl, hname, hall, rfl⟩ := hx
      obtain ⟨children, hchildren, hfold⟩ :=
        foldlM_readLink_nodes hall result (nodes ++ below)
      have hstep : readStep fetcher (result, (DagNode.intermediate links).toIpld :: nodes ++ below)
          = .inl (result, nodes ++ below ++ children) := by
        rw [List.cons_append, readStep_intermediate, hfold]
      refine .of_next hstep ?_
      have hrest :=
        ihnodes (below ++ children) (belowParts ++ ps) (List.rel_append hbelow hchildren)
      simpa using hrest

theorem readChunkedFile_of_holds {root : Cid} {data : Bytes}
    (hroot : Holds (FetchedFrom fetcher) h root data) :
    ∃ n, ∀ fuel ≥ n, readChunkedFile fuel fetcher root = some (.ok data) := by
  cases h with
  | zero =>
    -- the root is the only block
    obtain ⟨b, hb, hcodec, rfl⟩ := hroot
    refine ⟨0, fun fuel _ => ?_⟩
    simp only [readChunkedFile, show fetch fetcher root = .ok b from hb, if_pos hcodec]
  | succ h =>
    obtain ⟨b, links, parts, hb, hcodec, hdec, hname, hall, rfl⟩ := hroot
    have hraw : b.cid.codec ≠ Codec.raw := by
      rw [hcodec]
      decide
    -- the root alone is a level
    have hlevel : List.Forall₂ (NodeHolds fetcher h) [(DagNode.intermediate links).toIpld]
        [parts.flatten] := .cons ⟨links, parts, rfl, hname, hall, rfl⟩ .nil
    obtain ⟨n, hn⟩ := returns_of_level hlevel []
    refine ⟨n, fun fuel hfuel => ?_⟩
    simp only [readChunkedFile, show fetch fetcher root = .ok b from hb, if_neg hraw, hdec]
    simpa using WhileLoop.run_mono hfuel hn

end Reader

/-! ### The round trip -/

/-- **Chunk-then-read round trip.** Reading a chunked file from its blocks gives the file, whatever
the strategy, the size of the file and the depth of its DAG. Of the hash it is only used that the
blocks of this file do not collide. -/
theorem readChunkedFile_chunk [HashCrate] [CidCrate] [LawfulCidCrate] [CidText]
    {cfg : ChunkingConfig} (hmin : minChunkSize ≤ cfg.chunkSize) {fuel : ℕ} {data : Bytes}
    {file : ChunkedFile} (h : Chunker.chunk fuel cfg data = some (.ok file))
    (hfree : HashCrate.CollisionFree .sha256 { d | ∃ b ∈ file.blocks, b.data = d }) :
    ∃ n, ∀ fuel' ≥ n, readChunkedFile fuel' (MemoryBlockFetcher.new.addBlocks file.blocks)
      file.rootCid = some (.ok data) := by
  have hsize : 0 < cfg.chunkSize := lt_of_lt_of_le (by decide) hmin
  obtain ⟨⟨height, hroot⟩, hcid⟩ := Chunker.chunk_holds hsize h
  -- without collisions, no block of the file replaces another in the fetcher
  have hinj : ∀ b ∈ file.blocks, ∀ b' ∈ file.blocks, b.cid = b'.cid → b = b' := by
    intro b hb b' hb' heq
    have hdata := heq
    rw [hcid b hb, hcid b' hb'] at hdata
    obtain ⟨cid, d⟩ := b
    obtain ⟨cid', d'⟩ := b'
    obtain rfl : cid = cid' := heq
    obtain rfl : d = d' := (hfree.eq_of_ofData ⟨_, hb, rfl⟩ ⟨_, hb', rfl⟩ hdata).2
    rfl
  refine readChunkedFile_of_holds (h := height) (hroot.mono fun c b hb => ?_)
  obtain ⟨hmem, rfl⟩ := hb
  exact MemoryBlockFetcher.fetch_addBlocks hinj hmem

section Sample

open scoped CidReference

/-- 1025 zero bytes. -/
def zeros : Bytes := List.replicate 1025 0

/-- The SHA2-256 digests of the three blocks of `zeros` at chunk size 1024. -/
def zerosDigest (data : Bytes) : Bytes :=
  if data.length = 1024 then
    BigEndian.encode 32 0x5f70bf18a086007016e948b04aed3b82103a36bea41755b6cddfaf10ace3c6ef
  else if data.length = 1 then
    BigEndian.encode 32 0x6e340b9cffb37a989ca544e6bb780a2c78901d3fb33738768511a30617afa01d
  else
    BigEndian.encode 32 0x356950bbc5682c9a241612f97c3db8a6690564254cd2a8169085151a3dadc9f6

theorem length_zerosDigest (data : Bytes) : (zerosDigest data).length = 32 := by
  unfold zerosDigest
  split
  · rfl
  · split <;> rfl

/-- The hash crate on the blocks of `zeros`. -/
@[reducible]
def zerosHash : HashCrate := CidReference.hashOf zerosDigest length_zerosDigest

/-- The links to the two leaves of `zeros`. -/
def zerosLinks : List DagLink :=
  letI := zerosHash
  [Chunker.leafLink (List.replicate 1024 0), Chunker.leafLink [0]]

/-- What `Chunker::chunk` makes of `zeros`: two leaves and the root. -/
def zerosFile : ChunkedFile :=
  letI := zerosHash
  { rootCid := (Chunker.nodeBlock zerosLinks).cid
    blocks := [Chunker.leafBlock (List.replicate 1024 0), Chunker.leafBlock [0],
      Chunker.nodeBlock zerosLinks]
    totalSize := 1025
    chunkCount := 2
    dedupStats := some ⟨2, 2, 0, 1025, 1025⟩ }

theorem readChunkedFile_chunk_zeros :
    letI := zerosHash
    Chunker.chunk 2 { chunkSize := 1024 } zeros = some (.ok zerosFile) ∧
      ∃ n, ∀ fuel ≥ n, readChunkedFile fuel (MemoryBlockFetcher.new.addBlocks zerosFile.blocks)
        zerosFile.rootCid = some (.ok zeros) := by
  let := zerosHash
  have hchunk : Chunker.chunk 2 { chunkSize := 1024 } zeros = some (.ok zerosFile) := by
    decide +kernel
  refine ⟨hchunk, readChunkedFile_chunk (by decide) hchunk ?_⟩
  -- the three blocks have three digests
  have hdistinct : ∀ b ∈ zerosFile.blocks, ∀ b' ∈ zerosFile.blocks,
      zerosDigest b.data = zerosDigest b'.data → b.data = b'.data := by
    decide +kernel
  rintro d ⟨b, hb, rfl⟩ d' ⟨b', hb', rfl⟩ heq
  exact hdistinct b hb b' hb' (congrArg Subtype.val heq)

end Sample

end Ipfrs
