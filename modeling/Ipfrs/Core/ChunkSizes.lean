import Mathlib.Algebra.Order.BigOperators.Group.List
import Ipfrs.Core.ChunkRead

/-!
# Sizes in a chunked file

How long the pieces of content-defined chunking are, and what the sizes say that `Chunker::chunk`
writes into links, nodes and statistics.

* `findBoundaries_chunks` — every piece but the last one has between a quarter of the target size
  and four times the target size, whatever the mask.
* `chunk_sizes` — a link carries the number of bytes that its block holds, a node the sum of the
  sizes of its links, and the statistics of the leaves add up.
-/

namespace Ipfrs

/-! ### Pieces between boundaries -/

namespace Spaced

variable {lo hi start stop : ℕ} {bs : List ℕ}

theorem pairwise_lt (h : Spaced lo hi start bs stop) (hlo : 0 < lo) :
    (∀ b ∈ bs, start < b ∧ b ≤ stop) ∧ bs.Pairwise (· < ·) := by
  induction bs generalizing start with
  | nil => exact ⟨by simp, .nil⟩
  | cons b bs ih =>
    obtain ⟨hstep, -, hrest⟩ := h
    obtain ⟨hbounds, hincr⟩ := ih hrest
    have hstop := hrest.start_le
    refine ⟨List.forall_mem_cons.mpr ⟨⟨by omega, hstop⟩, fun c hc => ?_⟩, ?_⟩
    · have hc := hbounds c hc
      omega
    · exact List.pairwise_cons.mpr ⟨fun c hc => (hbounds c hc).1, hincr⟩

/-- The pieces between the boundaries are as long as the steps, and one more boundary makes one more
piece. -/
theorem slicesAt_concat {data : Bytes} (h : Spaced lo hi start bs stop) {last : ℕ}
    (hlast : stop ≤ last) (hdata : last ≤ data.length) :
    ∃ slices, slicesAt data start (bs ++ [last])
        = .ok (slices ++ [(data.drop stop).take (last - stop)]) ∧
      ∀ c ∈ slices, lo ≤ c.length ∧ c.length ≤ hi := by
  induction bs generalizing start with
  | nil =>
    obtain rfl : start = stop := h
    exact ⟨[], slicesAt_cons_eq_ok.mpr ⟨hlast, hdata, [], rfl, rfl⟩, by simp⟩
  | cons b bs ih =>
    obtain ⟨hlo, hhi, hrest⟩ := h
    have hstop := hrest.start_le
    obtain ⟨slices, hslices, hlen⟩ := ih hrest
    refine ⟨(data.drop start).take (b - start) :: slices,
      slicesAt_cons_eq_ok.mpr ⟨by omega, by omega, _, hslices, rfl⟩, ?_⟩
    refine List.forall_mem_cons.mpr ⟨?_, hlen⟩
    rw [List.length_take, List.length_drop]
    omega

end Spaced

variable {data : Bytes} {slices : List Bytes}

/-- Slices that are in range make up what lies between the first and the last boundary. -/
theorem flatten_slicesAt {start : ℕ} {bs : List ℕ} (h : slicesAt data start bs = .ok slices) :
    slices.flatten ++ data.drop (bs.getLastD start) = data.drop start := by
  induction bs generalizing start slices with
  | nil =>
    obtain rfl := Except.ok.inj h
    rfl
  | cons b bs ih =>
    obtain ⟨hle, -, rest, hrest, rfl⟩ := slicesAt_cons_eq_ok.mp h
    rw [List.getLastD_cons, List.flatten_cons, List.append_assoc, ih hrest,
      take_append_drop_between hle]

namespace RabinChunker

/-- The loop of `find_boundaries` sets no boundary after the last byte, whatever the sizes. -/
theorem lastBoundary_scanFrom (r : RabinChunker) {i : ℕ} {s : Scan} (hs : s.lastBoundary ≤ i - 1)
    (data : Bytes) : (r.scanFrom i data s).lastBoundary ≤ i + data.length - 1 := by
  induction data generalizing i s with
  | nil => exact hs
  | cons byte data ih =>
    have hstep : (r.scanByte s byte i).lastBoundary ≤ i + 1 - 1 := by
      unfold scanByte
      dsimp only
      split
      · split
        · exact Nat.le_refl i
        · split
          · exact Nat.le_refl i
          · simp only
            omega
      · simp only
        omega
    have hrest := ih hstep
    rwa [Nat.add_assoc, Nat.add_comm 1] at hrest

theorem getLast?_findBoundaries (r : RabinChunker) (data : Bytes) :
    (r.findBoundaries data).getLast? = some data.length := by
  unfold findBoundaries
  split
  · rfl
  · next hlong =>
    have hlast := r.lastBoundary_scanFrom (i := 0) (s := Scan.init r) (Nat.le_refl 0) data
    dsimp only
    rw [if_pos (by omega), List.getLast?_concat]

variable {r : RabinChunker}

/-- The boundaries but the last one are spaced, and the end of the data is not far from them. -/
theorem findBoundaries_split (hmin : r.minSize ≤ r.maxSize) (hmax : 0 < r.maxSize) (data : Bytes) :
    ∃ bs last, r.findBoundaries data = bs ++ [data.length] ∧
      Spaced r.minSize r.maxSize 0 bs last ∧ (data ≠ [] → last < data.length) ∧
        last ≤ data.length ∧ data.length ≤ last + r.maxSize := by
  by_cases hne : data = []
  · -- no data is one piece, which is empty
    subst hne
    exact ⟨[], 0, rfl, rfl, fun h => absurd rfl h, Nat.le_refl _, Nat.zero_le _⟩
  · obtain ⟨bs, last, hbs, hspaced, hlt, hle⟩ := findBoundaries_spec hmin hmax hne
    exact ⟨bs, last, hbs, hspaced, fun _ => hlt, hlt.le, hle⟩

theorem slicesAt_findBoundaries (hmin : r.minSize ≤ r.maxSize) (hmax : 0 < r.maxSize)
    (data : Bytes) :
    ∃ pieces last, slicesAt data 0 (r.findBoundaries data) = .ok (pieces ++ [last]) ∧
      (∀ c ∈ pieces, r.minSize ≤ c.length ∧ c.length ≤ r.maxSize) ∧
      (data ≠ [] → 1 ≤ last.length) ∧ last.length ≤ r.maxSize := by
  obtain ⟨bs, last, hbs, hspaced, hlt, hle, hmaxle⟩ := findBoundaries_split hmin hmax data
  obtain ⟨pieces, hpieces, hlen⟩ := hspaced.slicesAt_concat hle (Nat.le_refl _)
  have hlast : ((data.drop last).take (data.length - last)).length = data.length - last := by
    rw [List.length_take, List.length_drop, Nat.min_self]
  refine ⟨pieces, _, hbs ▸ hpieces, hlen, fun hne => ?_, ?_⟩
  · have hend := hlt hne
    omega
  · omega

/-- **Content-defined boundaries.** For every target size of at least four bytes and every mask, the
boundaries increase up to the end of the data; the pieces between them have between a quarter of the
target size and four times the target size, of which the last one only keeps the upper bound; and
they make up the data. -/
theorem findBoundaries_chunks {target : ℕ} (htarget : 4 ≤ target) (mask : UInt64) (data : Bytes) :
    let r := { RabinChunker.new target with mask := mask }
    (r.findBoundaries data).Pairwise (· < ·) ∧
      (r.findBoundaries data).getLast? = some data.length ∧
      ∃ pieces last, slicesAt data 0 (r.findBoundaries data) = .ok (pieces ++ [last]) ∧
        (∀ c ∈ pieces, target / 4 ≤ c.length ∧ c.length ≤ 4 * target) ∧
        (data ≠ [] → 1 ≤ last.length) ∧ last.length ≤ 4 * target ∧
        (pieces ++ [last]).flatten = data := by
  intro r
  have hmin : r.minSize = target / 4 := rfl
  have hmax : r.maxSize = 4 * target := Nat.mul_comm target 4
  have hgetLast := r.getLast?_findBoundaries data
  obtain ⟨pieces, last, hpieces, hlen, hpos, hlast⟩ :=
    slicesAt_findBoundaries (r := r) (by omega) (by omega) data
  rw [hmin, hmax] at hlen
  rw [hmax] at hlast
  refine ⟨?_, hgetLast, pieces, last, hpieces, hlen, hpos, hlast, ?_⟩
  · -- the steps are longer than zero, and so is the last one if there is any data
    obtain ⟨bs, last, hbs, hspaced, hlt, hle, -⟩ :=
      findBoundaries_split (r := r) (by omega) (by omega) data
    obtain ⟨hbounds, hincr⟩ := hspaced.pairwise_lt (by omega)
    rw [hbs, List.pairwise_append]
    refine ⟨hincr, List.pairwise_singleton _ _, fun b hb c hc => ?_⟩
    obtain rfl := List.mem_singleton.mp hc
    have hb := hbounds b hb
    have hdata : data ≠ [] := by
      rintro rfl
      simp only [List.length_nil] at hle
      omega
    have hend := hlt hdata
    omega
  · have hflat := flatten_slicesAt hpieces
    rw [List.getLastD_eq_getLast?, hgetLast, Option.getD_some, List.drop_length,
      List.append_nil] at hflat
    exact hflat

/-- A mask that cuts wherever it may: the pieces have the least length, and the last one is
shorter. -/
theorem findBoundaries_chunks_eight :
    ∃ pieces last, slicesAt [1, 2, 3, 4, 5] 0
        ({ RabinChunker.new 8 with mask := 0 }.findBoundaries [1, 2, 3, 4, 5])
          = .ok (pieces ++ [last]) ∧
      (∀ c ∈ pieces, 2 ≤ c.length ∧ c.length ≤ 32) ∧ last.length ≤ 32 ∧
      (pieces ++ [last]).flatten = [1, 2, 3, 4, 5] := by
  obtain ⟨-, -, pieces, last, hslices, hlen, -, hlast, hflat⟩ :=
    findBoundaries_chunks (show 4 ≤ 8 by decide) 0 [1, 2, 3, 4, 5]
  exact ⟨pieces, last, hslices, hlen, hlast, hflat⟩

end RabinChunker

/-- What is cut makes up the data, also for sizes that no builder accepts. -/
theorem ChunkingConfig.flatten_of_chunkSlices {cfg : ChunkingConfig}
    (h : cfg.chunkSlices data = .ok slices) : slices.flatten = data := by
  unfold ChunkingConfig.chunkSlices at h
  cases hstrategy : cfg.strategy with
  | fixedSize =>
    rw [hstrategy] at h
    dsimp only [sliceChunks] at h
    split at h
    · exact absurd h (by simp)
    · obtain rfl := Except.ok.inj h
      exact ListChunks.flatten_chunks _ _
  | contentDefined =>
    rw [hstrategy] at h
    have hflat := flatten_slicesAt h
    rw [List.getLastD_eq_getLast?, RabinChunker.getLast?_findBoundaries, Option.getD_some,
      List.drop_length, List.append_nil] at hflat
    exact hflat

/-! ### Sums of sizes -/

theorem toNat_sum_u64 {l : List UInt64} (h : (l.map UInt64.toNat).sum < 2 ^ 64) :
    l.sum.toNat = (l.map UInt64.toNat).sum := by
  induction l with
  | nil => rfl
  | cons x l ih =>
    rw [List.map_cons, List.sum_cons] at h
    rw [List.sum_cons, List.map_cons, List.sum_cons, UInt64.toNat_add, ih (by omega),
      Nat.mod_eq_of_lt h]

namespace Chunker

section Leaves

variable [HashCrate]

/-- What the leaf loop may enter into `seen_cids` for a chunk. -/
def seenEntry (chunk : Bytes) : Cid × ℕ := ((leafBlock chunk).cid, chunk.length)

variable {st st' : Leaves}

theorem leafStep_seenCids {chunk : Bytes} (h : leafStep st chunk = .ok st') :
    st'.seenCids = st.seenCids ∨ st'.seenCids = st.seenCids ++ [seenEntry chunk] := by
  obtain ⟨block, hb, h⟩ := Except.bind_eq_ok_iff.mp h
  obtain ⟨-, rfl⟩ := Block.new_eq_ok.mp hb
  obtain rfl := Except.ok.inj h
  dsimp only
  split
  · exact Or.inl rfl
  · exact Or.inr rfl

/-- **The first chunks with their CIDs.** What the leaf loop enters into `seen_cids` are entries for
some of the chunks, each of them at most once. -/
theorem foldlM_leafStep_seenCids {chunks : List Bytes} (h : chunks.foldlM leafStep st = .ok st') :
    ∃ seen, seen.Sublist (chunks.map seenEntry) ∧ st'.seenCids = st.seenCids ++ seen := by
  induction chunks generalizing st with
  | nil =>
    obtain rfl := Except.ok.inj h
    exact ⟨[], .slnil, (List.append_nil _).symm⟩
  | cons chunk chunks ih =>
    rw [List.foldlM_cons] at h
    obtain ⟨st₁, h₁, h⟩ := Except.bind_eq_ok_iff.mp h
    obtain ⟨seen, hsub, hseen⟩ := ih h
    rcases leafStep_seenCids h₁ with hold | hnew
    · -- the CID has been met before
      exact ⟨seen, hsub.cons _, by rw [hseen, hold]⟩
    · exact ⟨seenEntry chunk :: seen, hsub.cons_cons _, by rw [hseen, hnew]; simp⟩

/-- **The statistics add up**: chunks are unique or reused, and the unique ones are no longer than
the data. -/
theorem dedupStats_spec {slices : List Bytes} {leaves : Leaves} {data : Bytes}
    (hleaves : slices.foldlM leafStep {} = .ok leaves) (hflat : slices.flatten = data)
    (hlen : data.length < 2 ^ 64) :
    let stats := dedupStats slices.length data leaves.seenCids
    stats.totalChunks = stats.uniqueChunks + stats.reusedChunks ∧
      stats.deduplicatedSize ≤ stats.totalDataSize := by
  obtain ⟨seen, hsub, hseen⟩ := foldlM_leafStep_seenCids hleaves
  rw [List.nil_append] at hseen
  rw [hseen]
  -- the chunks that have been seen are among the chunks
  have hcount : seen.length ≤ slices.length := by
    simpa using hsub.length_le
  have hsum : (seen.map Prod.snd).sum ≤ data.length := by
    have hall : (slices.map seenEntry).map Prod.snd = slices.map List.length := by
      rw [List.map_map]
      rfl
    have hle := (hsub.map Prod.snd).sum_le_sum fun _ _ => Nat.zero_le _
    rwa [hall, ← List.length_flatten, hflat] at hle
  -- and their sizes do not overflow
  have hsizes : (seen.map fun e => UInt64.ofNat e.2).map UInt64.toNat = seen.map Prod.snd := by
    rw [List.map_map]
    refine List.map_congr_left fun e he => ?_
    have hmem : e.2 ≤ (seen.map Prod.snd).sum :=
      List.single_le_sum (fun _ _ => Nat.zero_le _) _ (List.mem_map_of_mem he)
    exact UInt64.toNat_ofNat_of_lt' (by change e.2 < 2 ^ 64; omega)
  refine ⟨?_, ?_⟩
  · change slices.length = seen.length + (slices.length - seen.length)
    omega
  · rw [UInt64.le_iff_toNat_le]
    change (seen.map fun e => UInt64.ofNat e.2).sum.toNat ≤ (UInt64.ofNat data.length).toNat
    rw [toNat_sum_u64 (by rw [hsizes]; omega), hsizes, UInt64.toNat_ofNat_of_lt' hlen]
    exact hsum

end Leaves

end Chunker

/-! ### The levels -/

section Levels

variable [HashCrate] [CidCrate]

/-- The link points to data of this height in the blocks, and has its length. -/
def Sized (blocks : List Block) (h : ℕ) (l : DagLink) (part : Bytes) : Prop :=
  Holds (StoredIn blocks) h l.cid part ∧ l.size.toNat = part.length

/-- The block is an intermediate node with between one and `n` links, each with the number of bytes
below it, and with their sum. -/
def SizedNode (n : ℕ) (blocks : List Block) (b : Block) : Prop :=
  ∃ h links parts, b = Chunker.nodeBlock links ∧ 1 ≤ links.length ∧ links.length ≤ n ∧
    List.Forall₂ (Sized blocks h) links parts ∧
    (DagNode.intermediate links).totalSize.toNat = (links.map fun l => l.size.toNat).sum

/-- What the level loop knows of the sizes. The links of the current level have been made from
blocks, and carry the lengths of the parts of the data. -/
structure SizeInv (n : ℕ) (data : Bytes) (h : ℕ) (blocks : List Block) (links : List DagLink) :
    Prop where
  parts : ∃ parts, List.Forall₂ (Sized blocks h) links parts ∧ parts.flatten = data
  unnamed : ∀ l ∈ links, l.name = none
  made : ∀ l ∈ links, (∃ piece, l = Chunker.leafLink piece) ∨
    ∃ g, l = Chunker.nodeLink g ∧ Chunker.nodeBlock g ∈ blocks
  nodes : ∀ b ∈ blocks, (∃ piece, b = Chunker.leafBlock piece) ∨ SizedNode n blocks b

variable {blocks blocks' : List Block} {h n fuel : ℕ} {links : List DagLink} {data : Bytes}

omit [HashCrate] in
theorem Sized.mono {l : DagLink} {part : Bytes} (hl : Sized blocks h l part) (new : List Block) :
    Sized (blocks ++ new) h l part :=
  ⟨hl.1.mono fun _ _ hb => ⟨List.mem_append_left _ hb.1, hb.2⟩, hl.2⟩

theorem SizedNode.mono {b : Block} (hb : SizedNode n blocks b) (new : List Block) :
    SizedNode n (blocks ++ new) b := by
  obtain ⟨h, links, parts, hb, hpos, hmax, hall, htotal⟩ := hb
  exact ⟨h, links, parts, hb, hpos, hmax, hall.imp fun _ _ hl => hl.mono new, htotal⟩

omit [HashCrate] in
/-- The sizes of links sum up to the length of what they hold together. -/
theorem sum_sizes {parts : List Bytes} (hall : List.Forall₂ (Sized blocks h) links parts) :
    (links.map fun l => l.size.toNat).sum = parts.flatten.length := by
  induction hall with
  | nil => rfl
  | cons hl _ ih =>
    rw [List.map_cons, List.sum_cons, ih, List.flatten_cons, List.length_append, hl.2]

omit [HashCrate] [CidCrate] in
theorem toNat_totalSize (h : (links.map fun l => l.size.toNat).sum < 2 ^ 64) :
    (DagNode.intermediate links).totalSize.toNat = (links.map fun l => l.size.toNat).sum := by
  have hmap : (links.map DagLink.size).map UInt64.toNat = links.map fun l => l.size.toNat :=
    List.map_map
  rw [DagNode.intermediate, toNat_sum_u64 (by rw [hmap]; exact h), hmap]

theorem SizeInv.leaves {slices : List Bytes} (hflat : slices.flatten = data)
    (hlen : data.length < 2 ^ 64) :
    SizeInv n data 0 (slices.map Chunker.leafBlock) (slices.map Chunker.leafLink) where
  parts := by
    refine ⟨slices, List.forall₂_map_left_iff.mpr (List.forall₂_same.mpr fun d hd => ⟨?_, ?_⟩),
      hflat⟩
    · exact ⟨Chunker.leafBlock d, ⟨List.mem_map_of_mem hd, rfl⟩, rfl, rfl⟩
    · -- a slice is no longer than the data
      have hle := (List.sublist_flatten_of_mem hd).length_le
      rw [hflat] at hle
      exact UInt64.toNat_ofNat_of_lt' (lt_of_le_of_lt hle hlen)
  unnamed := List.forall_mem_map.mpr fun _ _ => rfl
  made := List.forall_mem_map.mpr fun d _ => Or.inl ⟨d, rfl⟩
  nodes := List.forall_mem_map.mpr fun d _ => Or.inl ⟨d, rfl⟩

variable [LawfulCidCrate]

/-- **One round of the level loop** keeps the sizes. -/
theorem SizeInv.next {links' : List DagLink} (hI : SizeInv n data h blocks links) (hn : 0 < n)
    (hlen : data.length < 2 ^ 64)
    (hstep : Chunker.levelStep n (blocks, links) = .inl (blocks', links')) :
    SizeInv n data (h + 1) blocks' links' := by
  obtain ⟨⟨parts, hparts, hdata⟩, hname, hmade, hnodes⟩ := hI
  obtain ⟨-, hfits, rfl, rfl⟩ := Chunker.levelStep_eq_inl hstep
  set groups := ListChunks.chunks n links with hgroups
  set new := groups.map Chunker.nodeBlock with hnew
  -- the parts of the data are grouped as the links are
  have hflat : groups.flatten = links := ListChunks.flatten_chunks n links
  rw [← hflat] at hparts
  obtain ⟨pss, rfl, hpss⟩ := forall₂_flatten_left hparts
  -- what one group and its parts have
  have hgroup : ∀ g ps, g ∈ groups → ps ∈ pss → List.Forall₂ (Sized blocks h) g ps →
      Sized (blocks ++ new) (h + 1) (Chunker.nodeLink g) ps.flatten ∧
        (DagNode.intermediate g).totalSize.toNat = (g.map fun l => l.size.toNat).sum := by
    intro g ps hg hps hall
    have hmem : Chunker.nodeBlock g ∈ blocks ++ new :=
      List.mem_append_right _ (List.mem_map_of_mem hg)
    have hle : ps.flatten.length ≤ data.length := by
      rw [← hdata, List.flatten_flatten]
      exact (List.sublist_flatten_of_mem (List.mem_map_of_mem hps)).length_le
    have hsum : (g.map fun l => l.size.toNat).sum < 2 ^ 64 := by
      rw [sum_sizes hall]
      omega
    have htotal := toNat_totalSize hsum
    refine ⟨⟨?_, ?_⟩, htotal⟩
    · exact Holds.node hmem (hfits g hg)
        (fun l hl => hname l (hflat ▸ List.mem_flatten.mpr ⟨g, hg, hl⟩))
        (hall.imp fun l part hl => (hl.mono new).1)
    · exact htotal.trans (sum_sizes hall)
  refine ⟨⟨pss.map List.flatten, ?_, ?_⟩, List.forall_mem_map.mpr fun _ _ => rfl,
    List.forall_mem_map.mpr fun g hg => Or.inr ⟨g, rfl, ?_⟩, ?_⟩
  · rw [List.forall₂_map_left_iff, List.forall₂_map_right_iff]
    refine List.forall₂_iff_get.mpr ⟨hpss.length_eq, fun i hi hi' => ?_⟩
    exact (hgroup _ _ (List.get_mem groups ⟨i, hi⟩) (List.get_mem pss ⟨i, hi'⟩)
      (hpss.get hi hi')).1
  · -- grouping does not change what the parts make up
    rw [← List.flatten_flatten, hdata]
  · exact List.mem_append_right _ (List.mem_map_of_mem hg)
  · intro b hb
    rcases List.mem_append.mp hb with hb | hb
    · exact (hnodes b hb).imp_right fun hb => hb.mono new
    · -- a new node
      obtain ⟨g, hg, rfl⟩ := List.mem_map.mp hb
      obtain ⟨i, hi, rfl⟩ := List.getElem_of_mem hg
      have hi' : i < pss.length := hpss.length_eq ▸ hi
      have hall := hpss.get hi hi'
      refine Or.inr ⟨h, _, _, rfl, ?_, ListChunks.length_piece_le hn hg,
        hall.imp fun _ _ hl => hl.mono new, ?_⟩
      · exact List.length_pos_iff.mpr (ListChunks.ne_nil_of_mem_chunks hg)
      · exact (hgroup _ _ hg (List.getElem_mem hi') hall).2

/-- What the root is: the only block, with all of the data, or a node with its length. -/
def SizedRoot (blocks : List Block) (root : Cid) (data : Bytes) : Prop :=
  (∃ b ∈ blocks, b.cid = root ∧ b.cid.codec = Codec.raw ∧ b.data = data) ∨
    ∃ links, Chunker.nodeBlock links ∈ blocks ∧ root = (Chunker.nodeBlock links).cid ∧
      (DagNode.intermediate links).totalSize.toNat = data.length

omit [LawfulCidCrate] in
theorem SizeInv.root {link : DagLink} (hI : SizeInv n data h blocks [link]) :
    SizedRoot blocks link.cid data := by
  obtain ⟨⟨parts, hparts, hdata⟩, -, hmade, -⟩ := hI
  obtain _ | ⟨⟨hholds, hsize⟩, hnil⟩ := hparts
  obtain rfl := List.forall₂_nil_left_iff.mp hnil
  rw [List.flatten_cons, List.flatten_nil, List.append_nil] at hdata
  subst hdata
  rcases hmade link (List.mem_singleton_self _) with ⟨piece, rfl⟩ | ⟨g, rfl, hmem⟩
  · -- a leaf: its codec says that the height is zero
    cases h with
    | zero =>
      obtain ⟨b, ⟨hb, hcid⟩, hcodec, hdata⟩ := hholds
      exact Or.inl ⟨b, hb, hcid, hcodec, hdata⟩
    | succ h =>
      obtain ⟨b, -, -, ⟨-, hcid⟩, hcodec, -⟩ := hholds
      rw [hcid] at hcodec
      change Codec.raw = Codec.dagCbor at hcodec
      exact absurd hcodec (by decide)
  · exact Or.inr ⟨g, hmem, rfl, hsize⟩

theorem run_levelStep_sized {root : Cid} (hn : 0 < n) (hlen : data.length < 2 ^ 64)
    (hI : SizeInv n data 0 blocks links)
    (hrun : WhileLoop.run (Chunker.levelStep n) fuel (blocks, links) = some (.ok (root, blocks'))) :
    (∀ b ∈ blocks', (∃ piece, b = Chunker.leafBlock piece) ∨ SizedNode n blocks' b) ∧
      SizedRoot blocks' root data := by
  refine WhileLoop.run_inv (fun st => ∃ h, SizeInv n data h st.1 st.2)
    (fun r => ∀ root blocks, r = .ok (root, blocks) →
      (∀ b ∈ blocks, (∃ piece, b = Chunker.leafBlock piece) ∨ SizedNode n blocks b) ∧
        SizedRoot blocks root data)
    ?_ ?_ ⟨0, hI⟩ hrun root blocks' rfl
  · rintro ⟨blocks, links⟩ ⟨blocks', links'⟩ ⟨h, hI⟩ hstep
    exact ⟨h + 1, hI.next hn hlen hstep⟩
  · rintro ⟨blocks, links⟩ r ⟨h, hI⟩ hstep root blocks' rfl
    obtain ⟨link, rfl, rfl, rfl⟩ := Chunker.levelStep_eq_inr_ok hstep
    exact ⟨hI.nodes, hI.root⟩

/-- **Sizes of a DAG.** In a file of more than one chunk, every block is a leaf or a node with
between one and `max_links_per_node` links, whose sizes are the numbers of bytes below them and
which it has the sum of; the root has the length of the data; and the statistics add up. -/
theorem chunk_sizes {cfg : ChunkingConfig} {file : ChunkedFile} (hlinks : 2 ≤ cfg.maxLinksPerNode)
    (hlong : cfg.chunkSize < data.length) (hlen : data.length < 2 ^ 64)
    (h : Chunker.chunk fuel cfg data = some (.ok file)) :
    (∀ b ∈ file.blocks, (∃ piece, b = Chunker.leafBlock piece) ∨
        SizedNode cfg.maxLinksPerNode file.blocks b) ∧
      SizedRoot file.blocks file.rootCid data ∧ file.totalSize.toNat = data.length ∧
      ∃ stats, file.dedupStats = some stats ∧
        stats.totalChunks = stats.uniqueChunks + stats.reusedChunks ∧
        stats.deduplicatedSize ≤ stats.totalDataSize := by
  obtain ⟨slices, leaves, root, blocks, hslices, hleaves, hrun, rfl⟩ :=
    (Chunker.chunk_eq_ok_of_lt hlong).mp h
  have hflat := ChunkingConfig.flatten_of_chunkSlices hslices
  obtain ⟨hblocks, hlinks'⟩ := Chunker.foldlM_leafStep_eq_ok hleaves
  rw [hblocks, hlinks'] at hrun
  obtain ⟨hnodes, hroot⟩ :=
    run_levelStep_sized (by omega) hlen (SizeInv.leaves hflat hlen) hrun
  exact ⟨hnodes, hroot, UInt64.toNat_ofNat_of_lt' hlen, _, rfl,
    Chunker.dedupStats_spec hleaves hflat hlen⟩

end Levels

section Sample

open scoped CidReference

theorem chunk_sizes_zeros :
    letI := zerosHash
    (∀ b ∈ zerosFile.blocks, (∃ piece, b = Chunker.leafBlock piece) ∨
        SizedNode maxLinksPerNode zerosFile.blocks b) ∧
      SizedRoot zerosFile.blocks zerosFile.rootCid zeros := by
  let := zerosHash
  have hchunk : Chunker.chunk 2 { chunkSize := 1024 } zeros = some (.ok zerosFile) := by
    decide +kernel
  have hlen : zeros.length = 1025 := List.length_replicate
  have hlinks : 2 ≤ maxLinksPerNode := by decide
  obtain ⟨hnodes, hroot, -⟩ := chunk_sizes hlinks (by rw [hlen]; decide) (by rw [hlen]; decide)
    hchunk
  exact ⟨hnodes, hroot⟩

end Sample

end Ipfrs
