import Mathlib.Algebra.Group.Action.Defs
import Ipfrs.Core.ChunkSizes

/-!
# Which configurations can chunk which data

The builders of `ChunkingConfig` check the chunk size and nothing else
(`ipfrs-core/src/chunking.rs`). Chunking may still fail after that: content-defined chunks grow to
four times the chunk size, which may be more than a block takes, and the number of links decides
whether the level loop ends and whether its nodes fit into blocks.

* `run_levelStep_ok_iff` — the level loop returns when nodes of two links are allowed and the nodes
  of all levels fit. How long these are depends on the sizes of the chunks only
  (`length_nodeBlock`).
* `chunk_total_iff` — chunking succeeds exactly under these conditions.
* `chunkable_of_small` — they are met when a node has at most 34951 links and a chunk at most
  512 KiB.
-/

namespace Ipfrs

/-! ### The builders -/

/-- The check of a chunk size that all builders make, under the name they give it. -/
def checkChunkSize (what : String) (chunkSize : ℕ) : Except Error Unit :=
  if chunkSize < minChunkSize then
    .error (.invalidInput (what ++ " " ++ toString chunkSize ++ " is below minimum "
      ++ toString minChunkSize))
  else if chunkSize > maxChunkSize then
    .error (.invalidInput (what ++ " " ++ toString chunkSize ++ " exceeds maximum "
      ++ toString maxChunkSize))
  else .ok ()

namespace ChunkingConfig

def withChunkSize (chunkSize : ℕ) : Except Error ChunkingConfig := do
  checkChunkSize "Chunk size" chunkSize
  return { chunkSize }

def contentDefinedWithSize (targetSize : ℕ) : Except Error ChunkingConfig := do
  checkChunkSize "Target chunk size" targetSize
  return { chunkSize := targetSize, strategy := .contentDefined }

end ChunkingConfig

structure ChunkingConfigBuilder where
  chunkSize : Option ℕ := none
  strategy : Option ChunkingStrategy := none
  maxLinksPerNode : Option ℕ := none
  deriving DecidableEq, Repr

/-- `ChunkingConfigBuilder::build`. The number of links is taken as it is. -/
def ChunkingConfigBuilder.build (b : ChunkingConfigBuilder) : Except Error ChunkingConfig := do
  let chunkSize := b.chunkSize.getD defaultChunkSize
  let strategy := b.strategy.getD .fixedSize
  let maxLinksPerNode := b.maxLinksPerNode.getD Ipfrs.maxLinksPerNode
  checkChunkSize "Chunk size" chunkSize
  return { chunkSize, strategy, maxLinksPerNode }

/-- One of the builders returns the configuration. -/
def ChunkingConfig.Accepted (cfg : ChunkingConfig) : Prop :=
  (∃ b : ChunkingConfigBuilder, b.build = .ok cfg) ∨
    (∃ n, ChunkingConfig.withChunkSize n = .ok cfg) ∨
      ∃ n, ChunkingConfig.contentDefinedWithSize n = .ok cfg

theorem checkChunkSize_eq_ok {what : String} {chunkSize : ℕ} {u : Unit}
    (h : checkChunkSize what chunkSize = .ok u) :
    minChunkSize ≤ chunkSize ∧ chunkSize ≤ maxChunkSize := by
  unfold checkChunkSize at h
  split at h
  · exact absurd h (by simp)
  split at h
  · exact absurd h (by simp)
  · omega

theorem ChunkingConfig.Accepted.chunkSize {cfg : ChunkingConfig} (h : cfg.Accepted) :
    minChunkSize ≤ cfg.chunkSize ∧ cfg.chunkSize ≤ maxChunkSize := by
  rcases h with ⟨b, h⟩ | ⟨n, h⟩ | ⟨n, h⟩
  all_goals
    obtain ⟨u, hcheck, h⟩ := Except.bind_eq_ok_iff.mp h
    obtain rfl := Except.ok.inj h
    exact checkChunkSize_eq_ok hcheck

/-! ### The length of a node -/

/-- The number of bytes that a CBOR header takes for an argument. -/
def headLength (n : ℕ) : ℕ :=
  if n < 24 then 1 else if n < 256 then 2 else if n < 65536 then 3
  else if n < 4294967296 then 5 else 9

/-- The number of bytes of a node over links of these sizes: 17 for the map and its keys, 51 for
every link but its size. -/
def nodeLength (sizes : List ℕ) : ℕ :=
  17 + headLength sizes.length + (sizes.map fun s => 51 + headLength s).sum + headLength sizes.sum

theorem headLength_bounds (n : ℕ) : 1 ≤ headLength n ∧ headLength n ≤ 9 := by
  unfold headLength
  repeat' split
  all_goals omega

theorem nodeLength_pos (sizes : List ℕ) : 0 < nodeLength sizes := by
  unfold nodeLength
  omega

/-- The sizes of the links one level up. -/
def upSizes (n : ℕ) (sizes : List ℕ) : List ℕ := (ListChunks.chunks n sizes).map List.sum

/-- The nodes of all levels over links of these sizes fit in blocks. -/
def NodesFit (n : ℕ) (sizes : List ℕ) : Prop :=
  ∀ k, ∀ g ∈ ListChunks.chunks n ((upSizes n)^[k] sizes), nodeLength g ≤ maxBlockSize

/-- A link alone in its level is below a small node, and so is the link to that node. -/
theorem nodesFit_singleton (n s : ℕ) : NodesFit n [s] := by
  have hone : ListChunks.chunks n [s] = [[s]] := by
    rw [ListChunks.chunks_cons, List.take_nil, List.drop_nil, ListChunks.chunks_nil]
  have hup : upSizes n [s] = [s] := by
    rw [upSizes, hone, List.map_singleton, List.sum_singleton]
  have hfix : ∀ k, (upSizes n)^[k] [s] = [s] := fun k => Function.iterate_fixed hup k
  intro k g hg
  rw [hfix k, hone, List.mem_singleton] at hg
  subst hg
  have hs := headLength_bounds s
  have hlen : nodeLength [s] = 17 + 1 + (51 + headLength s) + headLength s := by
    simp [nodeLength, headLength]
  rw [hlen, maxBlockSize]
  omega

theorem length_encodeCborLength (mt : UInt8) (len : UInt64) :
    (encodeCborLength mt len).length = headLength len.toNat := by
  have h24 : len < 24 ↔ len.toNat < 24 := UInt64.lt_iff_toNat_lt
  have h256 : len < 256 ↔ len.toNat < 256 := UInt64.lt_iff_toNat_lt
  have h16 : len < 65536 ↔ len.toNat < 65536 := UInt64.lt_iff_toNat_lt
  have h32 : len < 4294967296 ↔ len.toNat < 4294967296 := UInt64.lt_iff_toNat_lt
  unfold encodeCborLength headLength
  simp only [h24, h256, h16, h32]
  repeat' split
  all_goals simp

theorem length_encode_u64 [CidCrate] (v : UInt64) :
    (encodeDagCbor (.integer v.toNat)).length = headLength v.toNat := by
  have hcast : asU64 v.toNat = v := by
    have hv := v.toNat_lt
    refine UInt64.toNat_inj.mp ?_
    rw [asU64, UInt64.toNat_ofNat_of_lt' (by change _ < 2 ^ 64; omega)]
    omega
  rw [encodeDagCbor, encodeCborInteger, if_pos (Int.natCast_nonneg _), hcast,
    length_encodeCborLength]

section Lengths

variable [HashCrate] [CidCrate]

/-- The CIDs of blocks take 36 bytes: one each for the version, the codec, the hash code and the
length of the digest, and 32 for the digest. -/
def Cids36 : Prop :=
  ∀ codec ∈ [Codec.raw, Codec.dagCbor], ∀ d : Bytes,
    (CidCrate.toBytes (Cid.ofData codec .sha256 d)).length = 36

/-- What the level loop knows of its links. -/
structure Plain (links : List DagLink) : Prop where
  unnamed : ∀ l ∈ links, l.name = none
  cid36 : ∀ l ∈ links, (CidCrate.toBytes l.cid).length = 36
  sum_lt : (links.map fun l => l.size.toNat).sum < 2 ^ 64
  length_lt : links.length < 2 ^ 64

omit [HashCrate] in
theorem length_encode_link {l : DagLink} (hname : l.name = none)
    (hcid : (CidCrate.toBytes l.cid).length = 36) :
    (encodeDagCbor l.toIpld).length = 51 + headLength l.size.toNat := by
  have hsize := length_encode_u64 l.size
  have hkeys : (utf8 "cid").length = 3 ∧ (utf8 "size").length = 4 := by decide
  rw [DagLink.toIpld_of_unnamed hname]
  simp only [encodeDagCbor, encodeEntries, encodeCborTag, List.length_append, List.length_cons,
    List.length_nil, length_encodeCborLength, hcid, hkeys.1, hkeys.2] at hsize ⊢
  rw [hsize]
  have hhead : headLength (UInt64.ofNat (0 + 1 + 1)).toNat = 1 ∧ headLength cidTag.toNat = 2 ∧
      headLength (UInt64.ofNat (36 + 1)).toNat = 2 ∧ headLength (UInt64.ofNat 3).toNat = 1 ∧
        headLength (UInt64.ofNat 4).toNat = 1 := by decide
  obtain ⟨h₁, h₂, h₃, h₄, h₅⟩ := hhead
  rw [h₁, h₂, h₃, h₄, h₅]
  omega

variable {links : List DagLink} {n : ℕ} {cfg : ChunkingConfig} {data : Bytes}

/-- **The length of a node** depends only on the sizes of its links. -/
theorem length_nodeBlock (h : Plain links) :
    (Chunker.nodeBlock links).data.length = nodeLength (links.map fun l => l.size.toNat) := by
  -- the links, the total size, and then the keys and heads around them
  have hitems : ∀ ls : List DagLink, ls ⊆ links →
      (encodeItems (ls.map DagLink.toIpld)).length
        = (ls.map fun l => 51 + headLength l.size.toNat).sum := by
    intro ls hls
    induction ls with
    | nil => rfl
    | cons l ls ih =>
      have hl : l ∈ links := hls List.mem_cons_self
      rw [List.map_cons, encodeItems, List.length_append,
        length_encode_link (h.unnamed l hl) (h.cid36 l hl),
        ih fun x hx => hls (List.mem_cons_of_mem _ hx), List.map_cons, List.sum_cons]
  have htotal := length_encode_u64 (DagNode.intermediate links).totalSize
  rw [toNat_totalSize h.sum_lt] at htotal
  have hcount : (UInt64.ofNat (links.map DagLink.toIpld).length).toNat = links.length := by
    rw [List.length_map, UInt64.toNat_ofNat_of_lt' h.length_lt]
  have hkeys : (utf8 "links").length = 5 ∧ (utf8 "totalSize").length = 9 := by decide
  have hhead : headLength (UInt64.ofNat (0 + 1 + 1)).toNat = 1 ∧
      headLength (UInt64.ofNat 5).toNat = 1 ∧ headLength (UInt64.ofNat 9).toNat = 1 := by decide
  rw [Chunker.nodeBlock, DagNode.toIpld_intermediate]
  dsimp only
  rw [toNat_totalSize h.sum_lt]
  rw [encodeDagCbor]
  simp only [encodeEntries, List.length_append, List.length_cons, List.length_nil, htotal,
    length_encodeCborLength, hkeys.1, hkeys.2, hhead.1, hhead.2.1, hhead.2.2]
  rw [encodeDagCbor, List.length_append, length_encodeCborLength, hcount,
    hitems links (List.Subset.refl _), nodeLength, List.length_map, List.map_map]
  simp only [Function.comp_def]
  omega

/-! ### The level loop -/

omit [HashCrate] in
theorem Plain.group {g : List DagLink} (h : Plain links) (hg : g ∈ ListChunks.chunks n links) :
    Plain g := by
  have hsub : g.Sublist links := by
    have hsub := List.sublist_flatten_of_mem hg
    rwa [ListChunks.flatten_chunks] at hsub
  have hsum := (hsub.map fun l : DagLink => l.size.toNat).sum_le_sum fun _ _ => Nat.zero_le _
  have hlt := h.sum_lt
  have hlen := h.length_lt
  have hle := hsub.length_le
  exact ⟨fun l hl => h.unnamed l (hsub.subset hl), fun l hl => h.cid36 l (hsub.subset hl),
    by omega, by omega⟩

theorem Plain.sizes_next (h : Plain links) (n : ℕ) :
    (((ListChunks.chunks n links).map Chunker.nodeLink).map fun l => l.size.toNat)
      = upSizes n (links.map fun l => l.size.toNat) := by
  rw [upSizes, ListChunks.chunks_map, List.map_map, List.map_map]
  refine List.map_congr_left fun g hg => ?_
  exact toNat_totalSize (h.group hg).sum_lt

theorem Plain.next (hcids : Cids36) (h : Plain links) (n : ℕ) :
    Plain ((ListChunks.chunks n links).map Chunker.nodeLink) where
  unnamed := List.forall_mem_map.mpr fun _ _ => rfl
  cid36 := List.forall_mem_map.mpr fun _ _ => hcids _ (by simp) _
  sum_lt := by
    -- the sum does not change
    rw [h.sizes_next, upSizes, ← List.sum_flatten, ListChunks.flatten_chunks]
    exact h.sum_lt
  length_lt := by
    rw [List.length_map]
    exact lt_of_le_of_lt (ListChunks.length_chunks_le n links) h.length_lt

theorem Plain.forall_fits_iff (h : Plain links) (n : ℕ) :
    (∀ g ∈ ListChunks.chunks n links, (Chunker.nodeBlock g).data.length ≤ maxBlockSize) ↔
      ∀ g ∈ ListChunks.chunks n (links.map fun l => l.size.toNat),
        nodeLength g ≤ maxBlockSize := by
  rw [ListChunks.chunks_map, List.forall_mem_map]
  refine forall₂_congr fun g hg => ?_
  rw [length_nodeBlock (h.group hg)]

namespace Chunker

theorem levelNode_of_le {g : List DagLink} (hpos : minBlockSize ≤ (nodeBlock g).data.length)
    (hle : (nodeBlock g).data.length ≤ maxBlockSize) :
    levelNode g = .ok (nodeBlock g, nodeLink g) := by
  have hbuild : BlockBuilder.build { cidBuilder := { codec := Codec.dagCbor } } (nodeBlock g).data
      = .ok (nodeBlock g) :=
    BlockBuilder.build_eq_ok.mpr ⟨⟨hpos, hle⟩, CidBuilder.build_v1 rfl _, rfl⟩
  change (do
    let nodeBytes ← (Except.ok (nodeBlock g).data : Except Error Bytes)
    if nodeBytes.length > maxBlockSize then _ else _) = _
  rw [Except.ok_bind, if_neg (Nat.not_lt_of_le hle), hbuild]
  rfl

theorem levelNodes_of_le {groups : List (List DagLink)}
    (h : ∀ g ∈ groups, minBlockSize ≤ (nodeBlock g).data.length ∧
      (nodeBlock g).data.length ≤ maxBlockSize) :
    levelNodes groups = .ok (groups.map nodeBlock, groups.map nodeLink) := by
  induction groups with
  | nil => rfl
  | cons g groups ih =>
    obtain ⟨hg, hgs⟩ := List.forall_mem_cons.mp h
    rw [levelNodes, levelNode_of_le hg.1 hg.2, ih hgs]
    rfl

variable {n : ℕ} {links : List DagLink} {blocks : List Block} {slices : List Bytes}

theorem levelStep_of_fits (hn : 0 < n) (hplain : Plain links) (hlen : 1 < links.length)
    (hfits : ∀ g ∈ ListChunks.chunks n links, (nodeBlock g).data.length ≤ maxBlockSize)
    (blocks : List Block) :
    levelStep n (blocks, links) = .inl (blocks ++ (ListChunks.chunks n links).map nodeBlock,
      (ListChunks.chunks n links).map nodeLink) := by
  have hnodes : levelNodes (ListChunks.chunks n links)
      = .ok ((ListChunks.chunks n links).map nodeBlock,
        (ListChunks.chunks n links).map nodeLink) := by
    refine levelNodes_of_le fun g hg => ⟨?_, hfits g hg⟩
    rw [length_nodeBlock (hplain.group hg)]
    exact nodeLength_pos _
  have hgroups : (sliceChunks n links >>= fun groups => liftResult (levelNodes groups))
      = .ok ((ListChunks.chunks n links).map nodeBlock,
        (ListChunks.chunks n links).map nodeLink) := by
    rw [sliceChunks, if_neg (by omega), Except.ok_bind, hnodes]
    rfl
  refine (if_pos hlen).trans ?_
  rw [hgroups]

/-- Groups of no links are a panic, so a round that goes on has had another size. -/
theorem pos_of_levelStep {st st' : List Block × List DagLink} (h : levelStep n st = .inl st') :
    0 < n := by
  obtain ⟨blocks, links⟩ := st
  by_contra hn
  obtain rfl : n = 0 := by omega
  simp only [levelStep] at h
  split at h
  · exact absurd h (by simp [sliceChunks])
  · split at h <;> exact absurd h (by simp)

/-- If the level loop returns and has more than one link to start with, nodes of two links are
allowed and the nodes of all levels fit. -/
theorem nodesFit_of_run (hcids : Cids36) {fuel : ℕ} {p : Cid × List Block} (hplain : Plain links)
    (hne : links ≠ []) (h : WhileLoop.run (levelStep n) fuel (blocks, links) = some (.ok p)) :
    links.length = 1 ∨ 2 ≤ n ∧ NodesFit n (links.map fun l => l.size.toNat) := by
  induction fuel generalizing blocks links with
  | zero => exact absurd h (by simp [WhileLoop.run])
  | succ fuel ih =>
    cases hstep : levelStep n (blocks, links) with
    | inr r =>
      rw [WhileLoop.run_succ_of_done hstep] at h
      obtain rfl := Option.some.inj h
      obtain ⟨link, rfl, -, -⟩ := levelStep_eq_inr_ok hstep
      exact Or.inl rfl
    | inl st =>
      rw [WhileLoop.run_succ_of_next hstep] at h
      have hn := pos_of_levelStep hstep
      obtain ⟨blocks', links'⟩ := st
      obtain ⟨hlen, hfits, -, rfl⟩ := levelStep_eq_inl hstep
      have hne' : (ListChunks.chunks n links).map nodeLink ≠ [] := fun hnil =>
        ListChunks.chunks_ne_nil n hne (List.map_eq_nil_iff.mp hnil)
      have hup := ih (hplain.next hcids n) hne' h
      rw [hplain.sizes_next] at hup
      -- the levels above: one link, or nodes that fit
      obtain ⟨htwo, hrest⟩ :
          2 ≤ n ∧ NodesFit n (upSizes n (links.map fun l => l.size.toNat)) := by
        rcases hup with hone | hup
        · rw [List.length_map] at hone
          obtain ⟨g, hg⟩ := List.length_eq_one_iff.mp hone
          refine ⟨?_, ?_⟩
          · -- one group of more than one link
            have hcount := ListChunks.length_le_mul_chunks hn links
            rw [hone] at hcount
            omega
          · rw [← hplain.sizes_next, hg]
            exact nodesFit_singleton n _
        · exact hup
      refine Or.inr ⟨htwo, fun k => ?_⟩
      cases k with
      | zero => exact (hplain.forall_fits_iff n).mp hfits
      | succ k => exact hrest k

theorem run_levelStep_singleton (n : ℕ) (blocks : List Block) (hone : links.length = 1) :
    ∃ fuel p, WhileLoop.run (levelStep n) fuel (blocks, links) = some (.ok p) := by
  obtain ⟨link, rfl⟩ := List.length_eq_one_iff.mp hone
  exact ⟨1, _, rfl⟩

/-- With nodes of two links or more every level is shorter than the one below. -/
theorem exists_run_of_nodesFit (hcids : Cids36) (htwo : 2 ≤ n) (hplain : Plain links)
    (hne : links ≠ []) (hfit : NodesFit n (links.map fun l => l.size.toNat)) :
    ∃ fuel p, WhileLoop.run (levelStep n) fuel (blocks, links) = some (.ok p) := by
  induction hm : links.length using Nat.strongRecOn generalizing blocks links with
  | ind m ih =>
    by_cases hlen : 1 < links.length
    · have hn : 0 < n := by omega
      have hstep := levelStep_of_fits hn hplain hlen
        ((hplain.forall_fits_iff n).mpr (hfit 0)) blocks
      have hne' : (ListChunks.chunks n links).map nodeLink ≠ [] := fun hnil =>
        ListChunks.chunks_ne_nil n hne (List.map_eq_nil_iff.mp hnil)
      -- the next level is shorter, and its nodes fit as well
      have hshorter : ((ListChunks.chunks n links).map nodeLink).length < m := by
        rw [← hm, List.length_map]
        exact ListChunks.length_chunks_lt htwo hlen
      have hfit' : NodesFit n
          (((ListChunks.chunks n links).map nodeLink).map fun l => l.size.toNat) := by
        rw [hplain.sizes_next]
        exact fun k => hfit (k + 1)
      obtain ⟨fuel, p, hrun⟩ := ih _ hshorter (hplain.next hcids n) hne' hfit' rfl
      exact ⟨fuel + 1, p, by rw [WhileLoop.run_succ_of_next hstep]; exact hrun⟩
    · have hpos := List.length_pos_iff.mpr hne
      exact run_levelStep_singleton n blocks (by omega)

/-- **The level loop returns** exactly when there is one link, or when nodes of two links are
allowed and the nodes of all levels fit. With groups of one link the levels never get shorter. -/
theorem run_levelStep_ok_iff (hcids : Cids36) (hplain : Plain links) (hne : links ≠ []) :
    (∃ fuel p, WhileLoop.run (levelStep n) fuel (blocks, links) = some (.ok p)) ↔
      links.length = 1 ∨ 2 ≤ n ∧ NodesFit n (links.map fun l => l.size.toNat) := by
  constructor
  · rintro ⟨fuel, p, h⟩
    exact nodesFit_of_run hcids hplain hne h
  · rintro (hone | ⟨htwo, hfit⟩)
    · exact run_levelStep_singleton n blocks hone
    · exact exists_run_of_nodesFit hcids htwo hplain hne hfit

/-! ### The chunker -/

omit [CidCrate] in
/-- The leaf loop succeeds when every piece is of the size of a block. -/
theorem foldlM_leafStep_ok_iff {st : Leaves} :
    (∃ leaves, slices.foldlM leafStep st = .ok leaves) ↔
      ∀ c ∈ slices, minBlockSize ≤ c.length ∧ c.length ≤ maxBlockSize := by
  induction slices generalizing st with
  | nil => exact ⟨fun _ => by simp, fun _ => ⟨st, rfl⟩⟩
  | cons c slices ih =>
    rw [List.forall_mem_cons, List.foldlM_cons]
    constructor
    · rintro ⟨leaves, h⟩
      obtain ⟨st', hstep, h⟩ := Except.bind_eq_ok_iff.mp h
      exact ⟨(leafStep_eq_ok hstep).1, ih.mp ⟨leaves, h⟩⟩
    · rintro ⟨⟨hmin, hmax⟩, hrest⟩
      rw [leafStep, Block.new_of_size hmin hmax]
      exact ih.mpr hrest

theorem plain_leafLinks (hcids : Cids36) (hpos : ∀ c ∈ slices, c ≠ [])
    (hlen : slices.flatten.length < 2 ^ 64) :
    Plain (slices.map leafLink) ∧
      ((slices.map leafLink).map fun l => l.size.toNat) = slices.map List.length := by
  have hsizes : ((slices.map leafLink).map fun l => l.size.toNat) = slices.map List.length := by
    rw [List.map_map]
    refine List.map_congr_left fun c hc => ?_
    have hle := (List.sublist_flatten_of_mem hc).length_le
    exact UInt64.toNat_ofNat_of_lt' (lt_of_le_of_lt hle hlen)
  refine ⟨⟨List.forall_mem_map.mpr fun _ _ => rfl,
    List.forall_mem_map.mpr fun c _ => hcids _ (by simp) c, ?_, ?_⟩, hsizes⟩
  · rwa [hsizes, ← List.length_flatten]
  · -- there are no more pieces than bytes
    have hcount : slices.length ≤ (slices.map List.length).sum := by
      have hle := List.card_nsmul_le_sum (slices.map List.length) 1 (by
        rw [List.forall_mem_map]
        exact fun c hc => List.length_pos_iff.mpr (hpos c hc))
      rwa [List.length_map, smul_eq_mul, Nat.mul_one] at hle
    rw [← List.length_flatten] at hcount
    rw [List.length_map]
    omega

/-- When a file of more than one chunk is chunked, given the pieces into which it is cut. -/
theorem chunk_ok_iff_of_slices (hcids : Cids36) {cfg : ChunkingConfig} {data : Bytes}
    (hlong : cfg.chunkSize < data.length) (hlen : data.length < 2 ^ 64)
    (hslices : cfg.chunkSlices data = .ok slices) (hpos : ∀ c ∈ slices, c ≠ []) :
    (∃ fuel file, chunk fuel cfg data = some (.ok file)) ↔
      (∀ c ∈ slices, c.length ≤ maxBlockSize) ∧
        (slices.length = 1 ∨
          2 ≤ cfg.maxLinksPerNode ∧ NodesFit cfg.maxLinksPerNode (slices.map List.length)) := by
  have hflat := ChunkingConfig.flatten_of_chunkSlices hslices
  obtain ⟨hplain, hsizes⟩ := plain_leafLinks hcids hpos (by rw [hflat]; exact hlen)
  have hne : slices.map leafLink ≠ [] := by
    intro hnil
    rw [List.map_eq_nil_iff.mp hnil, List.flatten_nil] at hflat
    rw [← hflat] at hlong
    exact absurd hlong (Nat.not_lt_zero _)
  -- the leaves that come before the loop do not decide whether it ends
  have hloop := fun blocks => @run_levelStep_ok_iff _ _ cfg.maxLinksPerNode
    (slices.map leafLink) blocks hcids hplain hne
  rw [hsizes, List.length_map] at hloop
  constructor
  · rintro ⟨fuel, file, h⟩
    obtain ⟨slices', leaves, root, blocks, hslices', hleaves, hrun, -⟩ :=
      (chunk_eq_ok_of_lt hlong).mp h
    obtain rfl := Except.ok.inj (hslices.symm.trans hslices')
    obtain ⟨hblocks, hlinks⟩ := foldlM_leafStep_eq_ok hleaves
    rw [hblocks, hlinks] at hrun
    exact ⟨fun c hc => (foldlM_leafStep_ok_iff.mp ⟨leaves, hleaves⟩ c hc).2,
      (hloop _).mp ⟨fuel, (root, blocks), hrun⟩⟩
  · rintro ⟨hmax, hnodes⟩
    obtain ⟨leaves, hleaves⟩ : ∃ leaves, slices.foldlM leafStep {} = .ok leaves :=
      foldlM_leafStep_ok_iff.mpr fun c hc => ⟨List.length_pos_iff.mpr (hpos c hc), hmax c hc⟩
    obtain ⟨hblocks, hlinks⟩ := foldlM_leafStep_eq_ok hleaves
    obtain ⟨fuel, ⟨root, blocks⟩, hrun⟩ := (hloop leaves.leafBlocks).mpr hnodes
    have hstart : leaves.leafLinks = slices.map leafLink := hlinks
    exact ⟨fuel, _, (chunk_eq_ok_of_lt hlong).mpr
      ⟨slices, leaves, root, blocks, hslices, hleaves, by rw [hstart]; exact hrun, rfl⟩⟩

end Chunker

omit [HashCrate] [CidCrate] in
/-- An accepted configuration cuts the data into pieces that are not empty. -/
theorem ChunkingConfig.Accepted.exists_slices (h : cfg.Accepted) (hne : data ≠ []) :
    ∃ slices, cfg.chunkSlices data = .ok slices ∧ (∀ c ∈ slices, c ≠ []) ∧
      ∀ c ∈ slices, c.length ≤ 4 * cfg.chunkSize ∧
        (cfg.strategy = .fixedSize → c.length ≤ cfg.chunkSize) := by
  obtain ⟨hmin, -⟩ := h.chunkSize
  rw [minChunkSize] at hmin
  unfold ChunkingConfig.chunkSlices
  cases hstrategy : cfg.strategy with
  | fixedSize =>
    refine ⟨_, if_neg (by omega), fun c hc => ListChunks.ne_nil_of_mem_chunks hc, fun c hc => ?_⟩
    have hle := ListChunks.length_piece_le (by omega) hc
    exact ⟨by omega, fun _ => hle⟩
  | contentDefined =>
    have hsizes : (RabinChunker.new cfg.chunkSize).minSize = cfg.chunkSize / 4 ∧
        (RabinChunker.new cfg.chunkSize).maxSize = cfg.chunkSize * 4 := ⟨rfl, rfl⟩
    obtain ⟨pieces, last, hpieces, hlen, hpos, hlast⟩ := RabinChunker.slicesAt_findBoundaries
      (r := RabinChunker.new cfg.chunkSize) (by omega) (by omega) data
    refine ⟨_, hpieces, fun c hc => ?_, fun c hc => ⟨?_, fun h => absurd h (by decide)⟩⟩
    all_goals rcases List.mem_append.mp hc with hc | hc
    · have hc := hlen c hc
      exact List.length_pos_iff.mp (by omega)
    · obtain rfl := List.mem_singleton.mp hc
      exact List.length_pos_iff.mp (hpos hne)
    · have hc := hlen c hc
      omega
    · obtain rfl := List.mem_singleton.mp hc
      omega

/-- The condition under which data can be chunked: it is one chunk, or it is cut into pieces that
fit in blocks and, if there is more than one of them, the level loop ends with nodes that fit. -/
def Chunkable (cfg : ChunkingConfig) (data : Bytes) : Prop :=
  data.length ≤ cfg.chunkSize ∨
    ∃ slices, cfg.chunkSlices data = .ok slices ∧ (∀ c ∈ slices, c.length ≤ maxBlockSize) ∧
      (slices.length = 1 ∨
        2 ≤ cfg.maxLinksPerNode ∧ NodesFit cfg.maxLinksPerNode (slices.map List.length))

/-- **Totality of chunking.** For every configuration that a builder returns and all data that are
not empty, chunking ends and succeeds if and only if the data are chunkable. -/
theorem chunk_total_iff (hcids : Cids36) (hcfg : cfg.Accepted) (hne : data ≠ [])
    (hlen : data.length < 2 ^ 63) :
    (∃ fuel file, Chunker.chunk fuel cfg data = some (.ok file)) ↔ Chunkable cfg data := by
  obtain ⟨-, hmax⟩ := hcfg.chunkSize
  by_cases hshort : data.length ≤ cfg.chunkSize
  · -- one chunk is a block
    have hblock : maxChunkSize ≤ maxBlockSize := by decide
    have hmin : minBlockSize ≤ data.length := List.length_pos_iff.mpr hne
    have hnew := Block.new_of_size hmin (by omega)
    refine ⟨fun _ => Or.inl hshort, fun _ => ⟨0, ?_⟩⟩
    rw [Chunker.chunk, if_neg hne, if_pos hshort, hnew]
    exact ⟨_, rfl⟩
  · obtain ⟨slices, hslices, hpos, -⟩ := hcfg.exists_slices hne
    rw [Chunker.chunk_ok_iff_of_slices hcids (by omega) (by omega) hslices hpos]
    constructor
    · rintro ⟨hfits, hnodes⟩
      exact Or.inr ⟨slices, hslices, hfits, hnodes⟩
    · rintro (h | ⟨slices', hslices', hfits, hnodes⟩)
      · exact absurd h hshort
      · obtain rfl := Except.ok.inj (hslices.symm.trans hslices')
        exact ⟨hfits, hnodes⟩

omit [HashCrate] [CidCrate] in
theorem nodesFit_of_le (hpos : 0 < n) (hn : n ≤ 34951) (sizes : List ℕ) : NodesFit n sizes := by
  intro k g hg
  have hlen := ListChunks.length_piece_le hpos hg
  have hsum : (g.map fun s => 51 + headLength s).sum ≤ g.length * 60 := by
    have hle := List.sum_le_card_nsmul (g.map fun s => 51 + headLength s) 60 (by
      rw [List.forall_mem_map]
      intro s _
      have hs := headLength_bounds s
      omega)
    rwa [List.length_map, smul_eq_mul] at hle
  have hcount := headLength_bounds g.length
  have htotal := headLength_bounds g.sum
  rw [nodeLength, maxBlockSize]
  omega

omit [HashCrate] [CidCrate] in
/-- **Configurations that chunk all data**: few links in a node, though at least two, and chunks
that fit in a block. -/
theorem chunkable_of_small (hcfg : cfg.Accepted)
    (hlinks : 2 ≤ cfg.maxLinksPerNode ∧ cfg.maxLinksPerNode ≤ 34951)
    (hsize : cfg.strategy = .fixedSize ∨ cfg.chunkSize ≤ 512 * 1024) (hne : data ≠ []) :
    Chunkable cfg data := by
  obtain ⟨-, hmax⟩ := hcfg.chunkSize
  obtain ⟨slices, hslices, -, hlen⟩ := hcfg.exists_slices hne
  refine Or.inr ⟨slices, hslices, fun c hc => ?_,
    Or.inr ⟨hlinks.1, nodesFit_of_le (by omega) hlinks.2 _⟩⟩
  obtain ⟨hfour, hfixed⟩ := hlen c hc
  rw [maxChunkSize] at hmax
  rw [maxBlockSize]
  rcases hsize with hstrategy | hsmall
  · have hle := hfixed hstrategy
    omega
  · omega

end Lengths

section Sample

open scoped CidReference

theorem cids36_hashOf {sha256 : Bytes → Bytes} (hlen : ∀ d, (sha256 d).length = 32) :
    letI := CidReference.hashOf sha256 hlen
    Cids36 := by
  intro codec hcodec d
  refine CidReference.length_toBytes_hashOf hlen ?_ d
  rcases List.mem_pair.mp hcodec with rfl | rfl <;> decide

theorem chunk_total_zeros :
    letI := zerosHash
    ∃ fuel file, Chunker.chunk fuel { chunkSize := 1024 } zeros = some (.ok file) := by
  let := zerosHash
  have haccepted : ChunkingConfig.Accepted { chunkSize := 1024 } := Or.inr (Or.inl ⟨1024, rfl⟩)
  have hlen : zeros.length = 1025 := List.length_replicate
  have hne : zeros ≠ [] := List.ne_nil_of_length_eq_add_one hlen
  exact (chunk_total_iff (cids36_hashOf _) haccepted hne (by rw [hlen]; decide)).mpr
    (chunkable_of_small haccepted (by decide) (Or.inl rfl) hne)

/-- Two chunks under one link in a node: the level loop makes a node for each of them, again and
again. -/
theorem not_forall_chunk_total :
    letI := zerosHash
    ¬ ∀ cfg : ChunkingConfig, cfg.Accepted → ∀ data : Bytes, data ≠ [] → data.length < 2 ^ 63 →
      ∃ fuel file, Chunker.chunk fuel cfg data = some (.ok file) := by
  let := zerosHash
  intro h
  have haccepted : ChunkingConfig.Accepted { chunkSize := 1024, maxLinksPerNode := 1 } :=
    Or.inl ⟨{ chunkSize := some 1024, maxLinksPerNode := some 1 }, rfl⟩
  have hlen : zeros.length = 1025 := List.length_replicate
  have hne : zeros ≠ [] := List.ne_nil_of_length_eq_add_one hlen
  -- two leaves, and nodes with one link
  have hslices : ChunkingConfig.chunkSlices { chunkSize := 1024, maxLinksPerNode := 1 } zeros
      = .ok [List.replicate 1024 0, [0]] := by
    decide +kernel
  have hpos : ∀ c ∈ [List.replicate 1024 (0 : UInt8), [0]], c ≠ [] := by
    intro c hc
    rcases List.mem_pair.mp hc with rfl | rfl
    · exact List.ne_nil_of_length_eq_add_one (n := 1023) List.length_replicate
    · exact List.cons_ne_nil _ _
  have hiff := Chunker.chunk_ok_iff_of_slices (cids36_hashOf length_zerosDigest)
    (by rw [hlen]; decide) (by rw [hlen]; decide) hslices hpos
  rcases (hiff.mp (h _ haccepted zeros hne (by rw [hlen]; decide))).2 with hone | ⟨htwo, -⟩
  · exact absurd hone (by decide)
  · exact absurd htwo (by decide)

end Sample

end Ipfrs
