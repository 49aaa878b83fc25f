import Ipfrs.Lib.Recency
import Ipfrs.Core.BlockCache

/-!
# The order of evictions

`evict_lru` takes the block with the least `last_access_index`, which is the length that `lru_list`
had when the block was last accessed. The list also gets shorter: a removal and an eviction take one
occurrence of a CID out of it. An access after that gets an index that a block accessed earlier can
already have, or is even below it.

* `FreshStep` — an access gets an index above those of all the other blocks;
* `FreshRun.agrees` — in a run of such steps the indices are in the order of the accesses;
* `FreshRun.evictsOldest` — so every eviction is of the block that was accessed least recently;
* `not_evictsOldest` — indices out of order lead to an eviction out of order;
* `not_forall_evictsOldest` — two removals, and the younger of two blocks is evicted.
-/

namespace Ipfrs.BlockCache

open AssocMap Recency

/-- The CIDs that a history accesses, the last one first. -/
def accesses (h : History) : List Cid :=
  h.filterMap fun op =>
    match op.1 with
    | .insert block => some block.cid
    | .get cid => some cid
    | _ => none

/-- **Evictions are in LRU order.** Whenever the insertion of a new block takes a block out, no
cached block was last accessed before that one. -/
def EvictsOldest (log : List Cid) (cache : BlockCache) (block : Block) : Prop :=
  cache.blocks.lookup block.cid = none → ∀ seen seen' : BlockCache,
    Relation.ReflTransGen (fun c c' => evictStep block.data.length c = .inl c') cache seen →
    evictStep block.data.length seen = .inl seen' →
      ∀ victim ∈ seen.blocks, victim ∉ seen'.blocks →
        ∀ cid ∈ seen.blocks, cid ∈ log ∧ log.idxOf cid ≤ log.idxOf victim

/-- An access of `cid` now gets an index above those of the other blocks. -/
def Fresh (cache : BlockCache) (cid : Cid) : Prop :=
  ∀ cid' entry, cid' ≠ cid → cache.blocks.lookup cid' = some entry →
    entry.lastAccessIndex < cache.lruList.length

/-- The access that an operation makes, if it makes one, gets an index above those of the other
blocks. An insertion makes its access after its evictions. -/
def FreshStep (cache : BlockCache) : Op → Prop
  | .insert block =>
    if (cache.blocks.lookup block.cid).isSome then cache.Fresh block.cid
    else ∀ fuel room, WhileLoop.run (evictStep block.data.length) fuel cache = some (.ok room) →
      room.Fresh block.cid
  | .get cid => (cache.blocks.lookup cid).isSome → cache.Fresh cid
  | _ => True

/-- The runs all of whose accesses get an index above those of the other blocks. -/
inductive FreshRun (maxSizeBytes : ℕ) (maxBlocks : Option ℕ) : History → BlockCache → Prop
  | new : FreshRun maxSizeBytes maxBlocks [] (BlockCache.new maxSizeBytes maxBlocks)
  | reorder {h : History} {cache : BlockCache} {blocks : AList fun _ : Cid => CacheEntry}
      (hrun : FreshRun maxSizeBytes maxBlocks h cache)
      (hperm : cache.blocks.entries.Perm blocks.entries) :
      FreshRun maxSizeBytes maxBlocks h { cache with blocks := blocks }
  | step {h : History} {cache cache' : BlockCache} {op : Op} {fuel : ℕ} {out : Option Block}
      (hrun : FreshRun maxSizeBytes maxBlocks h cache) (hfresh : cache.FreshStep op)
      (hop : cache.perform fuel op = some (.ok (out, cache'))) :
      FreshRun maxSizeBytes maxBlocks ((op, cache'.blocks.keys) :: h) cache'

variable {maxSizeBytes : ℕ} {maxBlocks : Option ℕ} {h : History} {cache cache' : BlockCache}

theorem FreshRun.run (hrun : FreshRun maxSizeBytes maxBlocks h cache) :
    Run maxSizeBytes maxBlocks h cache := by
  induction hrun with
  | new => exact .new
  | reorder _ hperm ih => exact ih.reorder hperm
  | step _ _ hop ih => exact ih.step hop

/-! ### The indices as stamps -/

/-- The index that a cached block has. -/
def stamp (cache : BlockCache) (cid : Cid) : Option ℕ :=
  (cache.blocks.lookup cid).map CacheEntry.lastAccessIndex

variable {cid : Cid} {entry : CacheEntry} {log : List Cid} {size : ℕ} {block : Block}

theorem stamp_eq_some {i : ℕ} :
    cache.stamp cid = some i ↔
      ∃ entry, cache.blocks.lookup cid = some entry ∧ entry.lastAccessIndex = i :=
  Option.map_eq_some_iff

theorem stamp_of_lookup (h : cache.blocks.lookup cid = some entry) :
    cache.stamp cid = some entry.lastAccessIndex := by
  rw [stamp, h]
  rfl

theorem agrees_of_lookup_imp (hagrees : Agrees log cache.stamp)
    (h : ∀ cid entry, cache'.blocks.lookup cid = some entry →
      cache.blocks.lookup cid = some entry) : Agrees log cache'.stamp := by
  refine hagrees.mono fun cid i hi => ?_
  obtain ⟨entry, hentry, rfl⟩ := stamp_eq_some.mp hi
  exact stamp_of_lookup (h cid entry hentry)

/-- A block that is put in with an index above those of the others. -/
theorem agrees_insert (hagrees : Agrees log cache.stamp) (hfresh : cache.Fresh cid)
    (hindex : entry.lastAccessIndex = cache.lruList.length)
    (hblocks : cache'.blocks = cache.blocks.insert cid entry) :
    Agrees (cid :: log) cache'.stamp := by
  refine hagrees.touch (i := cache.lruList.length) ?_ (fun cid' hne => ?_) fun cid' i hne hi => ?_
  · rw [stamp, hblocks, AList.lookup_insert, ← hindex]
    rfl
  · -- the others keep their stamps
    rw [stamp, hblocks, AList.lookup_insert_ne hne]
    rfl
  · obtain ⟨entry', hentry', rfl⟩ := stamp_eq_some.mp hi
    exact hfresh cid' entry' hne hentry'

theorem agrees_updateAccess (hagrees : Agrees log cache.stamp)
    (hlookup : cache.blocks.lookup cid = some entry) (hfresh : cache.Fresh cid) :
    Agrees (cid :: log) (cache.updateAccess cid).stamp := by
  have hblocks : (cache.updateAccess cid).blocks
      = cache.blocks.insert cid { entry with lastAccessIndex := cache.lruList.length } := by
    rw [updateAccess, hlookup]
  exact agrees_insert hagrees hfresh rfl hblocks

theorem agrees_get (hagrees : Agrees log cache.stamp)
    (hfresh : (cache.blocks.lookup cid).isSome → cache.Fresh cid) :
    Agrees (cid :: log) (cache.get cid).2.stamp := by
  unfold get
  split
  · next entry hentry =>
    let counted : BlockCache :=
      { cache with stats := { cache.stats with hits := cache.stats.hits + 1 } }
    have hagrees' : Agrees log counted.stamp := hagrees
    exact agrees_updateAccess hagrees' hentry (hfresh (by rw [hentry]; rfl))
  · next hnone =>
    -- a miss is in the log, and stamps nothing
    refine hagrees.skip ?_
    rw [stamp, hnone]
    rfl

/-! ### Steps and runs -/

/-- **A step whose access gets a fresh index keeps the order.** -/
theorem agrees_perform (hI : Inv cache) (hagrees : Agrees (accesses h) cache.stamp) {op : Op}
    (hfresh : cache.FreshStep op) {fuel : ℕ} {out : Option Block}
    (hop : cache.perform fuel op = some (.ok (out, cache'))) (cached : List Cid) :
    Agrees (accesses ((op, cached) :: h)) cache'.stamp := by
  cases perform_spec hI hop with
  | hit hhit =>
    obtain ⟨entry, hentry⟩ := Option.isSome_iff_exists.mp hhit
    exact agrees_updateAccess hagrees hentry ((if_pos hhit).mp hfresh)
  | @new block room _ hnew hrun hshrinks hadded =>
    have hmiss : ¬ (cache.blocks.lookup block.cid).isSome := by simp [hnew]
    have hfresh' := (if_neg hmiss).mp hfresh fuel room hrun
    exact agrees_insert (agrees_of_lookup_imp hagrees hshrinks.lookup) hfresh' rfl hadded.blocks_eq
  | get cid => exact agrees_get hagrees hfresh
  | remove => exact agrees_of_lookup_imp hagrees fun _ _ => lookup_of_lookup_erase
  | removeMiss => exact hagrees
  | clear => exact .empty fun cid => rfl

/-- **In a run of fresh steps the indices are in the order of the accesses.** -/
theorem FreshRun.agrees (hrun : FreshRun maxSizeBytes maxBlocks h cache) :
    Agrees (accesses h) cache.stamp := by
  induction hrun with
  | new => exact .empty fun cid => rfl
  | @reorder h cache blocks _ hperm ih =>
    refine agrees_of_lookup_imp ih fun cid entry hentry => ?_
    exact (AList.perm_lookup hperm).trans hentry
  | step hrun hfresh hop ih => exact agrees_perform hrun.run.inv ih hfresh hop _

/-- The states that the eviction loop goes through keep the invariant, and have no new block. -/
theorem evicting (hI : Inv cache) {seen : BlockCache}
    (hseen : Relation.ReflTransGen (fun c c' => evictStep size c = .inl c') cache seen) :
    Inv seen ∧ Shrinks cache seen := by
  induction hseen with
  | refl => exact ⟨hI, .refl cache⟩
  | tail _ hstep ih =>
    obtain ⟨hI', hshrinks⟩ := ih
    obtain ⟨cid, entry, hlookup, -, -, rfl⟩ := evictStep_eq_inl hI' hstep
    exact ⟨hI'.evicted hlookup, hshrinks.evicted cid entry⟩

/-- The eviction loop takes out blocks with a least index, so with indices in the order of the
accesses it takes out the blocks accessed least recently. -/
theorem evictsOldest_of_agrees (hI : Inv cache) (hagrees : Agrees log cache.stamp) (block : Block) :
    EvictsOldest log cache block := by
  intro _ seen seen' hseen hstep victim hvictim hgone cid hcid
  obtain ⟨hI', hshrinks⟩ := evicting hI hseen
  obtain ⟨evicted, entry, hlookup, hmin, -, rfl⟩ := evictStep_eq_inl hI' hstep
  -- the block that is gone is the one evicted
  obtain rfl : victim = evicted := by
    by_contra hne
    exact hgone (AList.mem_erase.mpr ⟨hne, hvictim⟩)
  obtain ⟨entry', hlookup'⟩ := Option.isSome_iff_exists.mp (AList.lookup_isSome.mpr hcid)
  have hseen_agrees := agrees_of_lookup_imp hagrees hshrinks.lookup
  refine ⟨hseen_agrees.mem cid _ (stamp_of_lookup hlookup'), ?_⟩
  exact hseen_agrees.oldest (stamp_of_lookup hlookup) (stamp_of_lookup hlookup')
    (hmin cid entry' hlookup')

/-- **In a run of fresh steps every eviction is in LRU order.** -/
theorem FreshRun.evictsOldest {maxSizeBytes : ℕ} {maxBlocks : Option ℕ} {h : History}
    {cache : BlockCache} (hrun : FreshRun maxSizeBytes maxBlocks h cache) (block : Block) :
    EvictsOldest (accesses h) cache block :=
  evictsOldest_of_agrees hrun.run.inv hrun.agrees block

/-! ### Indices out of order -/

theorem evictStep_of_large (hI : Inv cache) (hlarge : cache.maxSizeBytes < size)
    (hsum : cache.currentSize + size < 2 ^ 64) (hne : cache.blocks.entries ≠ []) :
    ∃ cid entry, cache.blocks.lookup cid = some entry ∧
      (∀ cid' entry', cache.blocks.lookup cid' = some entry' →
        entry.lastAccessIndex ≤ entry'.lastAccessIndex) ∧
      evictStep size cache = .inl (cache.evicted cid entry) := by
  obtain ⟨cid, entry, hlookup, hmin, -, hevict⟩ := evictLru_eq hI hne
  have hadd : addU64 cache.currentSize size = .ok (cache.currentSize + size) := if_pos hsum
  have hsize : decide (cache.currentSize + size > cache.maxSizeBytes) = true :=
    decide_eq_true (hlarge.trans_le (Nat.le_add_left _ _))
  have hexceeds : cache.wouldExceedLimits size = .ok true := by
    rw [wouldExceedLimits, hadd, Except.ok_bind, hsize]
    exact congrArg Except.ok (Bool.true_or _)
  refine ⟨cid, entry, hlookup, hmin, ?_⟩
  unfold evictStep
  rw [hexceeds]
  dsimp only
  rw [if_pos ⟨rfl, hne⟩, hevict]

/-- **Indices out of order show.** If the younger of two blocks has the smaller index, then the
insertion of a block larger than the cache evicts it before the older one. -/
theorem not_evictsOldest (hI : Inv cache) {younger older : Cid} {entry' : CacheEntry}
    (hyounger : cache.blocks.lookup younger = some entry)
    (holder : cache.blocks.lookup older = some entry') (hlog : log.idxOf younger < log.idxOf older)
    (hindex : entry.lastAccessIndex < entry'.lastAccessIndex)
    (hnew : cache.blocks.lookup block.cid = none) (hlarge : cache.maxSizeBytes < block.data.length)
    (hsum : cache.currentSize + block.data.length < 2 ^ 64) : ¬ EvictsOldest log cache block := by
  intro hall
  -- as long as both blocks are there, one that is neither of them goes
  suffices h : ∀ n (seen : BlockCache),
      Relation.ReflTransGen (fun c c' => evictStep block.data.length c = .inl c') cache seen →
      seen.blocks.lookup younger = some entry → seen.blocks.lookup older = some entry' →
      seen.blocks.entries.length = n → False from h _ cache .refl hyounger holder rfl
  intro n
  induction n with
  | zero =>
    intro seen _ hyounger _ hlen
    have hcount := length_erase hyounger
    omega
  | succ n ih =>
    intro seen hseen hyounger holder hlen
    obtain ⟨hI', hshrinks⟩ := evicting hI hseen
    have hne : seen.blocks.entries ≠ [] := by
      rw [← List.length_pos_iff]
      omega
    have hle := hshrinks.currentSize_le
    obtain ⟨cid, e, hlookup, hmin, hstep⟩ := evictStep_of_large hI'
      (hshrinks.maxSizeBytes_eq ▸ hlarge) (by omega) hne
    have hgone : cid ∉ (seen.evicted cid e).blocks :=
      fun hmem => (AList.mem_erase.mp hmem).1 rfl
    have hnot_older : older ≠ cid := by
      rintro rfl
      rw [holder] at hlookup
      obtain rfl := Option.some.inj hlookup
      exact absurd (hmin younger entry hyounger) (Nat.not_le_of_lt hindex)
    have hnot_younger : younger ≠ cid := by
      rintro rfl
      have hold := hall hnew seen _ hseen hstep younger (mem_of_lookup hlookup) hgone older
        (mem_of_lookup holder)
      exact absurd hold.2 (Nat.not_le_of_lt hlog)
    refine ih _ (hseen.tail hstep) ?_ ?_ ?_
    · exact (AList.lookup_erase_ne hnot_younger).trans hyounger
    · exact (AList.lookup_erase_ne hnot_older).trans holder
    · have hcount := length_erase hlookup
      change (seen.blocks.erase cid).entries.length = n
      omega

/-! ### Fixed runs -/

/-- The blocks of the bytes 1 and 2, and a DAG-CBOR block of the byte 0. -/
def oneBlock : Block :=
  letI := CidReference.byteHash
  ⟨Cid.ofData Codec.raw .sha256 [1], [1]⟩

def twoBlock : Block :=
  letI := CidReference.byteHash
  ⟨Cid.ofData Codec.raw .sha256 [2], [2]⟩

def nodeBlock : Block :=
  letI := CidReference.byteHash
  ⟨Cid.ofData Codec.dagCbor .sha256 [0], [0]⟩

theorem fresh_iff :
    cache.Fresh cid ↔ ∀ e ∈ cache.blocks.entries, e.1 ≠ cid →
      e.2.lastAccessIndex < cache.lruList.length := by
  constructor
  · intro hfresh e he hne
    exact hfresh e.1 e.2 hne (AList.mem_lookup_iff.mpr he)
  · intro hfresh cid' entry hne hlookup
    exact hfresh ⟨cid', entry⟩ (AList.mem_lookup_iff.mp hlookup) hne

instance (cid : Cid) : Decidable (cache.Fresh cid) := decidable_of_iff' _ fresh_iff

theorem freshStep_of_room (hnew : cache.blocks.lookup block.cid = none)
    (hdone : evictStep block.data.length cache = .inr (.ok cache))
    (hfresh : cache.Fresh block.cid) : cache.FreshStep (.insert block) := by
  have hmiss : ¬ (cache.blocks.lookup block.cid).isSome := by simp [hnew]
  refine (if_neg hmiss).mpr fun fuel room hrun => ?_
  obtain rfl := Except.ok.inj (WhileLoop.Returns.unique ⟨fuel, hrun⟩ (.of_done hdone))
  exact hfresh

theorem evictsOldest_two :
    ∃ h cache, FreshRun 2 none h cache ∧ accesses h = [oneBlock.cid, zeroBlock.cid] ∧
      EvictsOldest (accesses h) cache twoBlock := by
  have hzero : FreshRun 2 none _ _ :=
    @FreshRun.step 2 none [] _ _ (.insert zeroBlock) 1 _ .new
      (freshStep_of_room rfl rfl (by decide +kernel)) rfl
  have hone : FreshRun 2 none _ _ :=
    @FreshRun.step 2 none _ _ _ (.insert oneBlock) 1 _ hzero
      (freshStep_of_room (by decide +kernel) (by rfl) (by decide +kernel)) rfl
  exact ⟨_, _, hone, rfl, hone.evictsOldest twoBlock⟩

theorem not_evictsOldest_three :
    ∃ h cache, Run 3 none h cache ∧
      ¬ EvictsOldest (accesses h) cache ⟨zeroBlock.cid, [0, 0, 0, 0]⟩ := by
  obtain ⟨h, cache, hrun, heq⟩ := exists_run 3 none 1
    [.insert zeroBlock, .insert oneBlock, .insert twoBlock, .remove zeroBlock.cid,
      .remove oneBlock.cid, .insert nodeBlock]
    (fun s => ((s.2.blocks.lookup nodeBlock.cid).map CacheEntry.lastAccessIndex,
      (s.2.blocks.lookup twoBlock.cid).map CacheEntry.lastAccessIndex, accesses s.1,
      (s.2.blocks.lookup zeroBlock.cid).isNone, s.2.maxSizeBytes, s.2.currentSize))
    (a := (some 1, some 2, [nodeBlock.cid, twoBlock.cid, oneBlock.cid, zeroBlock.cid], true, 3, 2))
    (by decide +kernel)
  obtain ⟨hnode, htwo, hlog, hnew, hmax, hsum⟩ := by simpa only [Prod.mk.injEq] using heq
  obtain ⟨entry, hentry, hone⟩ := Option.map_eq_some_iff.mp hnode
  obtain ⟨entry', hentry', htwo⟩ := Option.map_eq_some_iff.mp htwo
  refine ⟨h, cache, hrun, not_evictsOldest hrun.inv hentry hentry' ?_ (by omega)
    (Option.isNone_iff_eq_none.mp hnew) (by rw [hmax]; decide) (by rw [hsum]; decide)⟩
  rw [hlog]
  decide +kernel

/-- **The younger of two blocks is evicted.** After two removals from a cache of three blocks the
list has one CID, and the block that stayed has the index 2. The next block gets the index 1. -/
theorem not_forall_evictsOldest :
    ¬ ∀ (maxSizeBytes : ℕ) (maxBlocks : Option ℕ) (h : History) (cache : BlockCache),
      Run maxSizeBytes maxBlocks h cache → ∀ block, EvictsOldest (accesses h) cache block := by
  intro hall
  -- after removals, stamps are given twice
  obtain ⟨h, cache, hrun, heq⟩ := exists_run 3 none 1
    [.insert zeroBlock, .insert oneBlock, .insert twoBlock, .remove zeroBlock.cid,
      .remove oneBlock.cid, .insert nodeBlock, .insert zeroBlock]
    (fun s => (accesses s.1, s.2.blocks.keys,
      (evictStep oneBlock.data.length s.2).getLeft?.map fun c => c.blocks.keys))
    (a := ([zeroBlock.cid, nodeBlock.cid, twoBlock.cid, oneBlock.cid, zeroBlock.cid],
      [zeroBlock.cid, nodeBlock.cid, twoBlock.cid], some [zeroBlock.cid, twoBlock.cid]))
    (by decide +kernel)
  obtain ⟨hlog, hkeys, hevict⟩ := by simpa only [Prod.mk.injEq] using heq
  obtain ⟨cache', hstep, hkeys'⟩ := Option.map_eq_some_iff.mp hevict
  have hnew : cache.blocks.lookup oneBlock.cid = none := by
    rw [AList.lookup_eq_none, AList.mem_keys, hkeys]
    decide +kernel
  -- the node block is evicted, though the block with the number two was used before it
  have hold := hall 3 none h cache hrun oneBlock hnew cache cache' .refl
    (Sum.getLeft?_eq_some_iff.mp hstep) nodeBlock.cid
    (by rw [AList.mem_keys, hkeys]; decide +kernel)
    (by rw [AList.mem_keys, hkeys']; decide +kernel)
    twoBlock.cid (by rw [AList.mem_keys, hkeys]; decide +kernel)
  rw [hlog] at hold
  exact absurd hold.2 (by decide +kernel)

end Ipfrs.BlockCache
