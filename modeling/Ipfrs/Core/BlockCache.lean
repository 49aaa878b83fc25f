import Mathlib.Data.List.MinMax
import Ipfrs.Lib.AssocMap
import Ipfrs.Lib.WhileLoop
import Ipfrs.Core.Block
import Ipfrs.Core.CidReference

/-!
# The block cache

`BlockCache` (`ipfrs-core/src/block_cache.rs`): a map of cached blocks, a list of accesses and a
running total of sizes.

A `HashMap` has no order of its own, but `min_by_key` takes the first minimum it meets. Here the map
is a list in the order of iteration, and a run (`Run`) may put it into another order between any two
operations. Sums and differences are checked, as in a debug build. The lock is left out: every
operation holds it from beginning to end.

* `Inv` — the list of accesses has every cached block, and the total is the sum of their sizes;
* `exists_evictLoop` — the eviction loop ends, and with a block to evict it always evicts one;
* `expected` — which block a history of operations leaves under a CID;
* `Run.accounting` — the accounts, the limits and the contents of the cache in every run.
-/

namespace Ipfrs

/-- A sum of `u64`s. -/
def addU64 (a b : ℕ) : Except Fault ℕ :=
  if a + b < 2 ^ 64 then .ok (a + b) else .error (.panic "attempt to add with overflow")

/-- A difference of `u64`s. -/
def subU64 (a b : ℕ) : Except Fault ℕ :=
  if b ≤ a then .ok (a - b) else .error (.panic "attempt to subtract with overflow")

/-- `AtomicU64::fetch_add`, the value that it leaves. -/
def fetchAdd (counter n : ℕ) : ℕ := (counter + n) % 2 ^ 64

/-! ### The cache -/

structure CacheEntry where
  block : Block
  size : ℕ
  lastAccessIndex : ℕ

structure CacheStats where
  hits : ℕ := 0
  misses : ℕ := 0
  evictions : ℕ := 0
  deriving DecidableEq, Repr

/-- `BlockCacheInner`. -/
structure BlockCache where
  blocks : AList fun _ : Cid => CacheEntry
  lruList : List Cid
  maxSizeBytes : ℕ
  maxBlocks : Option ℕ
  currentSize : ℕ
  stats : CacheStats

namespace BlockCache

open AssocMap

def new (maxSizeBytes : ℕ) (maxBlocks : Option ℕ) : BlockCache where
  blocks := ∅
  lruList := []
  maxSizeBytes := maxSizeBytes
  maxBlocks := maxBlocks
  currentSize := 0
  stats := {}

variable (cache : BlockCache)

def wouldExceedLimits (additionalSize : ℕ) : Except Fault Bool := do
  let total ← addU64 cache.currentSize additionalSize
  let sizeExceeded := decide (total > cache.maxSizeBytes)
  let countExceeded :=
    match cache.maxBlocks with
    | some max => decide (cache.blocks.entries.length ≥ max)
    | none => false
  return sizeExceeded || countExceeded

/-- The `lru_cid` of `evict_lru`. -/
def lruCid : Option Cid :=
  -- the first minimum in the order of iteration
  (cache.blocks.entries.argmin fun e => e.2.lastAccessIndex).map Sigma.fst

def evictLru : Except Fault BlockCache :=
  if cache.lruList = [] then .ok cache
  else
    match cache.lruCid with
    | none => .ok cache
    | some cid =>
      match cache.blocks.lookup cid with
      | none => .ok cache
      | some entry => do
        let currentSize ← subU64 cache.currentSize entry.size
        return { cache with
          blocks := cache.blocks.erase cid
          currentSize := currentSize
          stats := { cache.stats with evictions := cache.stats.evictions + 1 }
          -- the first occurrence only
          lruList := cache.lruList.erase cid }

def updateAccess (cid : Cid) : BlockCache :=
  match cache.blocks.lookup cid with
  | some entry =>
    { cache with
      blocks := cache.blocks.insert cid { entry with lastAccessIndex := cache.lruList.length }
      lruList := cache.lruList ++ [cid] }
  | none => cache

/-- One round of the eviction loop of `insert`. -/
def evictStep (size : ℕ) (cache : BlockCache) : BlockCache ⊕ Except Fault BlockCache :=
  match cache.wouldExceedLimits size with
  | .error f => .inr (.error f)
  | .ok exceeds =>
    if exceeds = true ∧ cache.blocks.entries ≠ [] then
      match cache.evictLru with
      | .ok cache => .inl cache
      | .error f => .inr (.error f)
    else .inr (.ok cache)

/-- What `insert` does with a new block after the eviction loop. -/
def addBlock (block : Block) : Except Fault BlockCache := do
  let accessIndex := cache.lruList.length
  let currentSize ← addU64 cache.currentSize block.data.length
  return { cache with
    lruList := cache.lruList ++ [block.cid]
    blocks := cache.blocks.insert block.cid
      { block := block, size := block.data.length, lastAccessIndex := accessIndex }
    currentSize := currentSize }

/-- `BlockCache::insert`, with at most `fuel` rounds of the eviction loop. -/
def insert (fuel : ℕ) (cache : BlockCache) (block : Block) : Option (Except Fault BlockCache) :=
  -- a block that is cached stays as it is
  if (cache.blocks.lookup block.cid).isSome then some (.ok (cache.updateAccess block.cid))
  else
    (WhileLoop.run (evictStep block.data.length) fuel cache).map fun r => do
      let cache ← r
      cache.addBlock block

def get (cid : Cid) : Option Block × BlockCache :=
  match cache.blocks.lookup cid with
  | some entry =>
    let cache := { cache with stats := { cache.stats with hits := cache.stats.hits + 1 } }
    (some entry.block, cache.updateAccess cid)
  | none => (none, { cache with stats := { cache.stats with misses := cache.stats.misses + 1 } })

def remove (cid : Cid) : Except Fault (Option Block × BlockCache) :=
  match cache.blocks.lookup cid with
  | some entry => do
    let currentSize ← subU64 cache.currentSize entry.size
    return (some entry.block, { cache with
      blocks := cache.blocks.erase cid
      currentSize := currentSize
      lruList := cache.lruList.erase cid })
  | none => .ok (none, cache)

def clear : BlockCache :=
  { cache with blocks := ∅, lruList := [], currentSize := 0 }

/-! ### Runs -/

/-- An operation on the cache. -/
inductive Op where
  | insert (block : Block)
  | get (cid : Cid)
  | remove (cid : Cid)
  | clear

/-- An operation, and the block that it returns. -/
def perform (fuel : ℕ) (cache : BlockCache) :
    Op → Option (Except Fault (Option Block × BlockCache))
  | .insert block => (cache.insert fuel block).map fun r => r.map fun cache => (none, cache)
  | .get cid => some (.ok (cache.get cid))
  | .remove cid => some (cache.remove cid)
  | .clear => some (.ok (none, cache.clear))

/-- A history of a cache, the last operation first: the operations, and the CIDs that are cached
after each of them. -/
abbrev History := List (Op × List Cid)

/-- The caches that operations make of an empty one, with their histories. Between any two
operations the map may change its order. -/
inductive Run (maxSizeBytes : ℕ) (maxBlocks : Option ℕ) : History → BlockCache → Prop
  | new : Run maxSizeBytes maxBlocks [] (BlockCache.new maxSizeBytes maxBlocks)
  | reorder {h : History} {cache : BlockCache} {blocks : AList fun _ : Cid => CacheEntry}
      (hrun : Run maxSizeBytes maxBlocks h cache)
      (hperm : cache.blocks.entries.Perm blocks.entries) :
      Run maxSizeBytes maxBlocks h { cache with blocks := blocks }
  | step {h : History} {cache cache' : BlockCache} {op : Op} {fuel : ℕ} {out : Option Block}
      (hrun : Run maxSizeBytes maxBlocks h cache)
      (hop : cache.perform fuel op = some (.ok (out, cache'))) :
      Run maxSizeBytes maxBlocks ((op, cache'.blocks.keys) :: h) cache'

/-- **The block that a history leaves under a CID**: the one inserted when the CID was last not
cached, as long as it stays cached. Inserting under a CID that is cached changes nothing. -/
def expected : History → Cid → Option Block
  | [], _ => none
  | (op, cached) :: h, cid =>
    if cid ∈ cached then
      match op with
      | .insert block =>
        if block.cid = cid then some ((expected h cid).getD block) else expected h cid
      | _ => expected h cid
    else none

/-! ### The invariant -/

/-- What every operation keeps. -/
structure Inv (cache : BlockCache) : Prop where
  size_eq : ∀ cid entry, cache.blocks.lookup cid = some entry → entry.size = entry.block.data.length
  total_eq : cache.currentSize = sum CacheEntry.size cache.blocks
  listed : ∀ cid ∈ cache.blocks, cid ∈ cache.lruList
  size_le : cache.currentSize ≤ cache.maxSizeBytes ∨
    ∃ e, cache.blocks.entries = [e] ∧ cache.maxSizeBytes < e.2.size
  count_le : ∀ n, cache.maxBlocks = some n → cache.blocks.entries.length ≤ max 1 n

variable {cache cache' : BlockCache}

theorem Inv.new (maxSizeBytes : ℕ) (maxBlocks : Option ℕ) : Inv (new maxSizeBytes maxBlocks) where
  size_eq _ _ h := absurd h (by simp [BlockCache.new])
  total_eq := rfl
  listed _ h := absurd h (by simp [BlockCache.new])
  size_le := Or.inl (Nat.zero_le _)
  count_le _ _ := Nat.zero_le _

variable {blocks : AList fun _ : Cid => CacheEntry} {cid : Cid} {entry : CacheEntry}
  {size fuel maxSizeBytes : ℕ} {r : Except Fault BlockCache} {block : Block} {op : Op}
  {out : Option Block} {maxBlocks : Option ℕ}

theorem Inv.reorder (hI : Inv cache) (hperm : cache.blocks.entries.Perm blocks.entries) :
    Inv { cache with blocks := blocks } where
  size_eq cid entry h := hI.size_eq cid entry ((AList.perm_lookup hperm).trans h)
  total_eq := hI.total_eq.trans (sum_perm hperm)
  listed cid h := hI.listed cid ((AList.mem_of_perm hperm).mpr h)
  size_le := by
    refine hI.size_le.imp id ?_
    rintro ⟨e, he, hlt⟩
    rw [he] at hperm
    exact ⟨e, List.perm_singleton.mp hperm.symm, hlt⟩
  count_le n hn := hperm.length_eq ▸ hI.count_le n hn

theorem lookup_updateAccess (cache : BlockCache) (cid cid' : Cid) :
    ((cache.updateAccess cid).blocks.lookup cid').map CacheEntry.block
      = (cache.blocks.lookup cid').map CacheEntry.block := by
  unfold updateAccess
  cases h : cache.blocks.lookup cid with
  | none => rfl
  | some entry =>
    by_cases hc : cid' = cid
    · subst hc
      dsimp only
      rw [AList.lookup_insert, h]
      rfl
    · dsimp only
      rw [AList.lookup_insert_ne hc]

theorem Inv.updateAccess (hI : Inv cache) (cid : Cid) : Inv (cache.updateAccess cid) := by
  unfold BlockCache.updateAccess
  cases h : cache.blocks.lookup cid with
  | none => exact hI
  | some entry =>
    have hlen : (cache.blocks.erase cid).entries.length + 1 = cache.blocks.entries.length :=
      (length_erase h).symm
    refine ⟨fun cid' entry' h' => ?_, ?_, fun cid' h' => ?_, ?_, fun n hn => ?_⟩
    · obtain ⟨rfl, rfl⟩ | ⟨-, h'⟩ := lookup_insert_eq_some.mp h'
      · exact hI.size_eq cid' entry h
      · exact hI.size_eq cid' entry' h'
    · -- the entry that is replaced has the same size
      dsimp only
      rw [sum_insert, hI.total_eq, sum_erase _ h]
    · -- the list only gets longer
      dsimp only at h' ⊢
      rw [List.mem_append]
      rcases (AList.mem_insert _).mp h' with rfl | h'
      · exact Or.inr List.mem_cons_self
      · exact Or.inl (hI.listed cid' h')
    · refine hI.size_le.imp id ?_
      rintro ⟨e, he, hlt⟩
      -- the only entry is the one that is accessed
      have hperm := entries_perm h
      rw [he] at hperm
      obtain ⟨rfl, hnil⟩ := List.cons.inj (List.perm_singleton.mp hperm.symm)
      refine ⟨⟨cid, { entry with lastAccessIndex := cache.lruList.length }⟩, ?_, hlt⟩
      change (⟨cid, _⟩ : Sigma fun _ : Cid => CacheEntry) :: (cache.blocks.erase cid).entries = _
      rw [hnil]
    · have hcount := hI.count_le n hn
      change ((⟨cid, _⟩ : Sigma fun _ : Cid => CacheEntry)
        :: (cache.blocks.erase cid).entries).length ≤ max 1 n
      rw [List.length_cons, hlen]
      exact hcount

/-! ### Taking blocks out -/

/-- The cache without a block, and without the first access of it in the list. -/
def without (cache : BlockCache) (cid : Cid) (entry : CacheEntry) : BlockCache :=
  { cache with
    blocks := cache.blocks.erase cid
    currentSize := cache.currentSize - entry.size
    lruList := cache.lruList.erase cid }

theorem Inv.subU64_eq (hI : Inv cache) (h : cache.blocks.lookup cid = some entry) :
    subU64 cache.currentSize entry.size = .ok (cache.currentSize - entry.size) := by
  have htotal := sum_erase CacheEntry.size h
  rw [← hI.total_eq] at htotal
  exact if_pos (by omega)

theorem Inv.without (hI : Inv cache) (h : cache.blocks.lookup cid = some entry) :
    Inv (cache.without cid entry) := by
  have htotal := sum_erase CacheEntry.size h
  have hlength := length_erase h
  rw [← hI.total_eq] at htotal
  refine ⟨fun cid' entry' h' => ?_, ?_, fun cid' h' => ?_, ?_, fun n hn => ?_⟩
  · exact hI.size_eq cid' entry' (lookup_of_lookup_erase h')
  · change cache.currentSize - entry.size = sum CacheEntry.size (cache.blocks.erase cid)
    omega
  · -- another block has its accesses left in the list
    obtain ⟨hne, hmem⟩ := AList.mem_erase.mp h'
    exact (List.mem_erase_of_ne hne).mpr (hI.listed cid' hmem)
  · left
    change cache.currentSize - entry.size ≤ cache.maxSizeBytes
    rcases hI.size_le with hle | ⟨e, he, -⟩
    · omega
    · -- the only block is taken out
      have hnil : (cache.blocks.erase cid).entries = [] := by
        rw [he, List.length_singleton] at hlength
        exact List.length_eq_zero_iff.mp (by omega)
      rw [sum_of_entries_eq_nil hnil] at htotal
      omega
  · have hcount := hI.count_le n hn
    change (cache.blocks.erase cid).entries.length ≤ max 1 n
    omega

theorem Inv.stats (hI : Inv cache) (stats : CacheStats) : Inv { cache with stats := stats } :=
  ⟨hI.size_eq, hI.total_eq, hI.listed, hI.size_le, hI.count_le⟩

/-- The cache after the eviction of a block. -/
def evicted (cache : BlockCache) (cid : Cid) (entry : CacheEntry) : BlockCache :=
  { cache.without cid entry with
    stats := { cache.stats with evictions := cache.stats.evictions + 1 } }

theorem Inv.evicted (hI : Inv cache) (h : cache.blocks.lookup cid = some entry) :
    Inv (cache.evicted cid entry) :=
  (hI.without h).stats _

/-- **With a block to evict, one is evicted**, with the lowest index of all. -/
theorem evictLru_eq (hI : Inv cache) (hne : cache.blocks.entries ≠ []) :
    ∃ cid entry, cache.blocks.lookup cid = some entry ∧
      (∀ cid' entry', cache.blocks.lookup cid' = some entry' →
        entry.lastAccessIndex ≤ entry'.lastAccessIndex) ∧
      cache.lruCid = some cid ∧ cache.evictLru = .ok (cache.evicted cid entry) := by
  obtain ⟨e, he⟩ : ∃ e, cache.blocks.entries.argmin (fun e => e.2.lastAccessIndex) = some e := by
    refine Option.ne_none_iff_exists'.mp fun hnone => hne ?_
    exact List.argmin_eq_none.mp hnone
  have hlookup : cache.blocks.lookup e.1 = some e.2 :=
    Option.mem_def.mp (AList.mem_lookup_iff.mpr (List.argmin_mem he))
  have hcid : cache.lruCid = some e.1 := by
    rw [lruCid, he]
    rfl
  refine ⟨e.1, e.2, hlookup, fun cid' entry' h' => ?_, hcid, ?_⟩
  · have hmem := AList.mem_lookup_iff.mp (Option.mem_def.mpr h')
    have hle := List.le_of_mem_argmin hmem he
    exact hle
  · -- the block is in the list of accesses, so the list is not empty
    have hlisted : cache.lruList ≠ [] := by
      intro hnil
      have hmem := hI.listed e.1 (mem_of_lookup hlookup)
      rw [hnil] at hmem
      exact absurd hmem List.not_mem_nil
    rw [evictLru, if_neg hlisted, hcid]
    simp only [hlookup, hI.subU64_eq hlookup, Except.ok_bind]
    rfl

/-! ### The eviction loop -/

/-- **What one round of the eviction loop can do.** -/
theorem evictStep_eq_inl (hI : Inv cache) (h : evictStep size cache = .inl cache') :
    ∃ cid entry, cache.blocks.lookup cid = some entry ∧
      (∀ cid' entry', cache.blocks.lookup cid' = some entry' →
        entry.lastAccessIndex ≤ entry'.lastAccessIndex) ∧
      cache.lruCid = some cid ∧ cache' = cache.evicted cid entry := by
  unfold evictStep at h
  split at h
  · exact absurd h (by simp)
  · split at h
    · next hcond =>
      obtain ⟨cid, entry, hlookup, hmin, hcid, hevict⟩ := evictLru_eq hI hcond.2
      rw [hevict] at h
      exact ⟨cid, entry, hlookup, hmin, hcid, (Sum.inl.inj h).symm⟩
    · exact absurd h (by simp)

/-- The loop leaves when the limits are kept or no block is left, or when a sum overflows. -/
theorem evictStep_eq_inr (hI : Inv cache) (h : evictStep size cache = .inr r) :
    (r = .ok cache ∧ (cache.wouldExceedLimits size = .ok false ∨ cache.blocks.entries = [])) ∨
      r = .error (.panic "attempt to add with overflow") ∧
        2 ^ 64 ≤ cache.currentSize + size := by
  unfold evictStep at h
  split at h
  · next f hf =>
    right
    rw [← Sum.inr.inj h]
    rw [wouldExceedLimits, addU64] at hf
    split at hf
    · exact absurd hf (by simp)
    · next hlt =>
      obtain rfl := Except.error.inj hf
      exact ⟨rfl, by omega⟩
  · next exceeds hexceeds =>
    split at h
    · next hcond =>
      -- a cache that is not empty has a block to evict
      obtain ⟨cid, entry, -, -, -, hevict⟩ := evictLru_eq hI hcond.2
      rw [hevict] at h
      exact absurd h (by simp)
    · next hcond =>
      left
      refine ⟨(Sum.inr.inj h).symm, ?_⟩
      rw [hexceeds]
      by_cases hempty : cache.blocks.entries = []
      · exact Or.inr hempty
      · left
        cases exceeds with
        | false => rfl
        | true => exact absurd ⟨rfl, hempty⟩ hcond

/-- What evicting blocks leaves as it is. -/
structure Shrinks (cache cache' : BlockCache) : Prop where
  maxSizeBytes_eq : cache'.maxSizeBytes = cache.maxSizeBytes
  maxBlocks_eq : cache'.maxBlocks = cache.maxBlocks
  lookup : ∀ cid entry, cache'.blocks.lookup cid = some entry →
    cache.blocks.lookup cid = some entry
  currentSize_le : cache'.currentSize ≤ cache.currentSize

theorem Shrinks.refl (cache : BlockCache) : Shrinks cache cache :=
  ⟨rfl, rfl, fun _ _ h => h, le_rfl⟩

theorem Shrinks.evicted {start : BlockCache} (h : Shrinks start cache) (cid : Cid)
    (entry : CacheEntry) : Shrinks start (cache.evicted cid entry) where
  maxSizeBytes_eq := h.maxSizeBytes_eq
  maxBlocks_eq := h.maxBlocks_eq
  lookup cid' entry' h' := h.lookup cid' entry' (lookup_of_lookup_erase h')
  currentSize_le := (Nat.sub_le _ _).trans h.currentSize_le

/-- **The eviction loop ends.** Every round takes a block out. -/
theorem exists_evictLoop (hI : Inv cache) (size : ℕ) :
    ∃ fuel r, WhileLoop.run (evictStep size) fuel cache = some r := by
  have hdown : ∀ c c' : BlockCache, Inv c → evictStep size c = .inl c' →
      Inv c' ∧ c'.blocks.entries.length < c.blocks.entries.length := by
    intro c c' hc hstep
    obtain ⟨cid, entry, hlookup, -, -, rfl⟩ := evictStep_eq_inl hc hstep
    refine ⟨hc.evicted hlookup, ?_⟩
    have hlength := length_erase hlookup
    change (c.blocks.erase cid).entries.length < _
    omega
  obtain ⟨r, hr⟩ := WhileLoop.run_of_measure Inv (fun c => c.blocks.entries.length) hdown hI
  exact ⟨_, r, hr⟩

/-- What the eviction loop leaves with: room for the new block, or no other block at all; or the
panic of a sum that overflows. -/
def LoopEnd (cache : BlockCache) (size : ℕ) (r : Except Fault BlockCache) : Prop :=
  (∃ cache', r = .ok cache' ∧ Inv cache' ∧ Shrinks cache cache' ∧
    (cache'.wouldExceedLimits size = .ok false ∨ cache'.blocks.entries = [])) ∨
    r = .error (.panic "attempt to add with overflow") ∧ 2 ^ 64 ≤ cache.currentSize + size

theorem evictLoop_spec (hI : Inv cache) (h : WhileLoop.run (evictStep size) fuel cache = some r) :
    LoopEnd cache size r := by
  refine WhileLoop.run_inv (fun c => Inv c ∧ Shrinks cache c) (LoopEnd cache size) ?_ ?_
    ⟨hI, .refl cache⟩ h
  · rintro c c' ⟨hc, hshrinks⟩ hstep
    obtain ⟨cid, entry, hlookup, -, -, rfl⟩ := evictStep_eq_inl hc hstep
    exact ⟨hc.evicted hlookup, hshrinks.evicted cid entry⟩
  · rintro c r ⟨hc, hshrinks⟩ hstep
    rcases evictStep_eq_inr hc hstep with ⟨rfl, hleave⟩ | ⟨rfl, hlarge⟩
    · exact Or.inl ⟨c, rfl, hc, hshrinks, hleave⟩
    · exact Or.inr ⟨rfl, hlarge.trans (Nat.add_le_add_right hshrinks.currentSize_le _)⟩

/-! ### The operations -/

theorem wouldExceedLimits_eq_false (h : cache.wouldExceedLimits size = .ok false) :
    cache.currentSize + size < 2 ^ 64 ∧ cache.currentSize + size ≤ cache.maxSizeBytes ∧
      ∀ n, cache.maxBlocks = some n → cache.blocks.entries.length < n := by
  obtain ⟨total, htotal, h⟩ := Except.bind_eq_ok_iff.mp h
  rw [addU64] at htotal
  split at htotal
  · next hlt =>
    obtain rfl := Except.ok.inj htotal
    obtain ⟨hsize, hcount⟩ := Bool.or_eq_false_iff.mp (Except.ok.inj h)
    refine ⟨hlt, Nat.le_of_not_lt (of_decide_eq_false hsize), fun n hn => ?_⟩
    rw [hn] at hcount
    exact Nat.lt_of_not_le (of_decide_eq_false hcount)
  · exact absurd htotal (by simp)

/-- `cache'` is `cache` with a new block, the last one in the list. -/
structure Added (cache : BlockCache) (block : Block) (cache' : BlockCache) : Prop where
  blocks_eq : cache'.blocks = cache.blocks.insert block.cid
    { block := block, size := block.data.length, lastAccessIndex := cache.lruList.length }
  lruList_eq : cache'.lruList = cache.lruList ++ [block.cid]
  maxSizeBytes_eq : cache'.maxSizeBytes = cache.maxSizeBytes
  maxBlocks_eq : cache'.maxBlocks = cache.maxBlocks
  currentSize_eq : cache'.currentSize = cache.currentSize + block.data.length

theorem addBlock_eq (hsum : cache.currentSize + block.data.length < 2 ^ 64) :
    ∃ cache', cache.addBlock block = .ok cache' ∧ Added cache block cache' := by
  have hadd : addU64 cache.currentSize block.data.length
      = .ok (cache.currentSize + block.data.length) := if_pos hsum
  refine ⟨{ cache with
    lruList := cache.lruList ++ [block.cid]
    blocks := cache.blocks.insert block.cid
      { block := block, size := block.data.length, lastAccessIndex := cache.lruList.length }
    currentSize := cache.currentSize + block.data.length }, ?_, rfl, rfl, rfl, rfl, rfl⟩
  rw [addBlock, hadd]
  rfl

theorem Inv.added (hI : Inv cache) (hnew : cache.blocks.lookup block.cid = none)
    (hroom : cache.wouldExceedLimits block.data.length = .ok false ∨ cache.blocks.entries = [])
    (hadded : Added cache block cache') : Inv cache' := by
  obtain ⟨hblocks, hlist, hmaxSize, hmaxBlocks, hsum⟩ := hadded
  have herase := erase_of_lookup_eq_none hnew
  have hentries := AList.entries_insert_of_notMem (AList.lookup_eq_none.mp hnew)
    (b := { block := block, size := block.data.length, lastAccessIndex := cache.lruList.length })
  refine ⟨fun cid entry h => ?_, ?_, fun cid h => ?_, ?_, fun n hn => ?_⟩
  · rw [hblocks] at h
    obtain ⟨rfl, rfl⟩ | ⟨-, h⟩ := lookup_insert_eq_some.mp h
    · rfl
    · exact hI.size_eq cid entry h
  · -- there was no entry under the CID, so none is replaced
    rw [hblocks, sum_insert, herase, hsum, hI.total_eq, Nat.add_comm]
  · rw [hblocks] at h
    rw [hlist, List.mem_append]
    rcases (AList.mem_insert _).mp h with rfl | h
    · exact Or.inr List.mem_cons_self
    · exact Or.inl (hI.listed cid h)
  · rw [hblocks, hsum, hmaxSize, hentries]
    rcases hroom with hroom | hempty
    · exact Or.inl (wouldExceedLimits_eq_false hroom).2.1
    · -- the new block is the only one
      have hzero : cache.currentSize = 0 := hI.total_eq.trans (sum_of_entries_eq_nil hempty)
      rw [hzero, Nat.zero_add, hempty]
      by_cases hle : block.data.length ≤ cache.maxSizeBytes
      · exact Or.inl hle
      · exact Or.inr ⟨_, rfl, Nat.lt_of_not_le hle⟩
  · rw [hmaxBlocks] at hn
    rw [hblocks, hentries, List.length_cons]
    rcases hroom with hroom | hempty
    · have hlt := (wouldExceedLimits_eq_false hroom).2.2 n hn
      omega
    · rw [hempty, List.length_nil]
      omega

/-- **What an insertion can do**: record an access; evict blocks and add the new one; or panic in
the first sum. -/
inductive InsertEnd (cache : BlockCache) (block : Block) (fuel : ℕ) :
    Except Fault BlockCache → Prop
  | hit (h : (cache.blocks.lookup block.cid).isSome) :
      InsertEnd cache block fuel (.ok (cache.updateAccess block.cid))
  | new {room cache' : BlockCache} (hnew : cache.blocks.lookup block.cid = none)
      (hrun : WhileLoop.run (evictStep block.data.length) fuel cache = some (.ok room))
      (hshrinks : Shrinks cache room) (hadded : Added room block cache') (hI : Inv cache') :
      InsertEnd cache block fuel (.ok cache')
  | overflow (h : 2 ^ 64 ≤ cache.currentSize + block.data.length) :
      InsertEnd cache block fuel (.error (.panic "attempt to add with overflow"))

theorem insert_spec (hI : Inv cache) (h : cache.insert fuel block = some r) :
    InsertEnd cache block fuel r := by
  unfold insert at h
  split at h
  · next hit =>
    rw [← Option.some.inj h]
    exact .hit hit
  · next hmiss =>
    have hnew : cache.blocks.lookup block.cid = none := Option.not_isSome_iff_eq_none.mp hmiss
    obtain ⟨r', hrun, h⟩ := Option.map_eq_some_iff.mp h
    rcases evictLoop_spec hI hrun with ⟨room, rfl, hroom, hshrinks, hleave⟩ | ⟨rfl, hlarge⟩
    · -- evictions do not bring the CID in
      have hmiss' : room.blocks.lookup block.cid = none := by
        cases hl : room.blocks.lookup block.cid with
        | none => rfl
        | some entry => exact absurd (hshrinks.lookup _ _ hl) (by rw [hnew]; simp)
      by_cases hsum : room.currentSize + block.data.length < 2 ^ 64
      · obtain ⟨cache', hadd, hadded⟩ := addBlock_eq hsum
        rw [Except.ok_bind, hadd] at h
        rw [← h]
        exact .new hnew hrun hshrinks hadded (hroom.added hmiss' hleave hadded)
      · -- a sum that is too large now was too large before the evictions
        have hle := hshrinks.currentSize_le
        have hadd : addU64 room.currentSize block.data.length
            = .error (.panic "attempt to add with overflow") := if_neg hsum
        rw [Except.ok_bind, addBlock, hadd] at h
        rw [← h]
        exact .overflow (by omega)
    · rw [← h]
      exact .overflow hlarge

theorem exists_insert (hI : Inv cache) (block : Block) :
    ∃ fuel r, cache.insert fuel block = some r := by
  unfold insert
  split
  · exact ⟨0, _, rfl⟩
  · obtain ⟨fuel, r, hr⟩ := exists_evictLoop hI block.data.length
    exact ⟨fuel, _, by rw [hr]; rfl⟩

theorem remove_eq (hI : Inv cache) (cid : Cid) :
    (∃ entry, cache.blocks.lookup cid = some entry ∧
      cache.remove cid = .ok (some entry.block, cache.without cid entry)) ∨
      cache.blocks.lookup cid = none ∧ cache.remove cid = .ok (none, cache) := by
  unfold remove
  cases h : cache.blocks.lookup cid with
  | none => exact Or.inr ⟨rfl, rfl⟩
  | some entry =>
    refine Or.inl ⟨entry, rfl, ?_⟩
    dsimp only
    rw [hI.subU64_eq h]
    rfl

theorem Inv.get (hI : Inv cache) (cid : Cid) : Inv (cache.get cid).2 := by
  unfold BlockCache.get
  cases h : cache.blocks.lookup cid with
  | none => exact hI.stats _
  | some entry => exact (hI.stats _).updateAccess cid

theorem Inv.clear (cache : BlockCache) : Inv cache.clear where
  size_eq _ _ h := absurd h (by simp [BlockCache.clear])
  total_eq := rfl
  listed _ h := absurd h (by simp [BlockCache.clear])
  size_le := Or.inl (Nat.zero_le _)
  count_le _ _ := Nat.zero_le _

/-- **What an operation can do.** -/
inductive Performed (cache : BlockCache) (fuel : ℕ) : Op → Option Block → BlockCache → Prop
  | hit {block : Block} (h : (cache.blocks.lookup block.cid).isSome) :
      Performed cache fuel (.insert block) none (cache.updateAccess block.cid)
  | new {block : Block} {room cache' : BlockCache} (hnew : cache.blocks.lookup block.cid = none)
      (hrun : WhileLoop.run (evictStep block.data.length) fuel cache = some (.ok room))
      (hshrinks : Shrinks cache room) (hadded : Added room block cache') (hI : Inv cache') :
      Performed cache fuel (.insert block) none cache'
  | get (cid : Cid) : Performed cache fuel (.get cid) (cache.get cid).1 (cache.get cid).2
  | remove {cid : Cid} {entry : CacheEntry} (h : cache.blocks.lookup cid = some entry) :
      Performed cache fuel (.remove cid) (some entry.block) (cache.without cid entry)
  | removeMiss (cid : Cid) : Performed cache fuel (.remove cid) none cache
  | clear : Performed cache fuel .clear none cache.clear

theorem perform_spec (hI : Inv cache) (h : cache.perform fuel op = some (.ok (out, cache'))) :
    Performed cache fuel op out cache' := by
  cases op with
  | insert block =>
    obtain ⟨r, hr, h⟩ := Option.map_eq_some_iff.mp h
    -- a block that is there already, one that is not, or a sum that overflows
    cases insert_spec hI hr with
    | hit hhit =>
      obtain ⟨rfl, rfl⟩ := Prod.mk.inj (Except.ok.inj h)
      exact .hit hhit
    | new hnew hrun hshrinks hadded hI' =>
      obtain ⟨rfl, rfl⟩ := Prod.mk.inj (Except.ok.inj h)
      exact .new hnew hrun hshrinks hadded hI'
    | overflow => exact absurd h (by simp [Except.map])
  | get cid =>
    obtain ⟨rfl, rfl⟩ := Prod.mk.inj (Except.ok.inj (Option.some.inj h))
    exact .get cid
  | remove cid =>
    have h' := Option.some.inj h
    rcases remove_eq hI cid with ⟨entry, hlookup, heq⟩ | ⟨-, heq⟩
    · rw [heq] at h'
      obtain ⟨rfl, rfl⟩ := Prod.mk.inj (Except.ok.inj h')
      exact .remove hlookup
    · rw [heq] at h'
      obtain ⟨rfl, rfl⟩ := Prod.mk.inj (Except.ok.inj h')
      exact .removeMiss cid
  | clear =>
    obtain ⟨rfl, rfl⟩ := Prod.mk.inj (Except.ok.inj (Option.some.inj h))
    exact .clear

/-- **Every operation keeps the invariant.** -/
theorem Inv.perform (hI : Inv cache) (h : cache.perform fuel op = some (.ok (out, cache'))) :
    Inv cache' := by
  cases perform_spec hI h with
  | hit => exact hI.updateAccess _
  | new _ _ _ _ hI' => exact hI'
  | get cid => exact hI.get cid
  | remove hlookup => exact hI.without hlookup
  | removeMiss => exact hI
  | clear => exact .clear cache

/-! ### Limits and contents -/

theorem updateAccess_limits (cache : BlockCache) (cid : Cid) :
    (cache.updateAccess cid).maxSizeBytes = cache.maxSizeBytes ∧
      (cache.updateAccess cid).maxBlocks = cache.maxBlocks := by
  unfold updateAccess
  split <;> exact ⟨rfl, rfl⟩

theorem get_limits (cache : BlockCache) (cid : Cid) :
    (cache.get cid).2.maxSizeBytes = cache.maxSizeBytes ∧
      (cache.get cid).2.maxBlocks = cache.maxBlocks := by
  unfold get
  split
  · exact updateAccess_limits _ cid
  · exact ⟨rfl, rfl⟩

theorem Inv.perform_limits (hI : Inv cache) (h : cache.perform fuel op = some (.ok (out, cache'))) :
    cache'.maxSizeBytes = cache.maxSizeBytes ∧ cache'.maxBlocks = cache.maxBlocks := by
  cases perform_spec hI h with
  | hit => exact updateAccess_limits cache _
  | new _ _ hshrinks hadded =>
    exact ⟨hadded.maxSizeBytes_eq.trans hshrinks.maxSizeBytes_eq,
      hadded.maxBlocks_eq.trans hshrinks.maxBlocks_eq⟩
  | get cid => exact get_limits cache cid
  | remove | removeMiss | clear => exact ⟨rfl, rfl⟩

/-- The block that is cached under a CID. -/
def contents (cache : BlockCache) (cid : Cid) : Option Block :=
  (cache.blocks.lookup cid).map CacheEntry.block

theorem get_fst (cache : BlockCache) (cid : Cid) : (cache.get cid).1 = cache.contents cid := by
  unfold get contents
  split
  · next entry h => rw [h]; rfl
  · next h => rw [h]; rfl

theorem contents_eq_none : cache.contents cid = none ↔ cid ∉ cache.blocks.keys := by
  rw [contents, Option.map_eq_none_iff, AList.lookup_eq_none, AList.mem_keys]

theorem contents_of_lookup_imp (hcached : cid ∈ cache'.blocks.keys)
    (h : ∀ entry, cache'.blocks.lookup cid = some entry → cache.blocks.lookup cid = some entry) :
    cache'.contents cid = cache.contents cid := by
  obtain ⟨entry, hentry⟩ := Option.isSome_iff_exists.mp
    (AList.lookup_isSome.mpr (AList.mem_keys.mpr hcached))
  rw [contents, contents, hentry, h entry hentry]

theorem contents_get (cache : BlockCache) (cid cid' : Cid) :
    (cache.get cid).2.contents cid' = cache.contents cid' := by
  unfold get
  split
  · exact lookup_updateAccess _ cid cid'
  · rfl

/-- **What an operation leaves under a CID that stays cached.** -/
theorem Inv.perform_contents (hI : Inv cache) (h : cache.perform fuel op = some (.ok (out, cache')))
    (hcached : cid ∈ cache'.blocks.keys) :
    cache'.contents cid =
      match op with
      | .insert block =>
        if block.cid = cid then some ((cache.contents cid).getD block) else cache.contents cid
      | _ => cache.contents cid := by
  cases perform_spec hI h with
  | @hit block hhit =>
    have hsame : (cache.updateAccess block.cid).contents cid = cache.contents cid :=
      lookup_updateAccess cache block.cid cid
    dsimp only
    rw [hsame]
    split
    · next hc =>
      -- the block of the first insertion stays
      obtain ⟨entry, hentry⟩ := Option.isSome_iff_exists.mp hhit
      rw [contents, ← hc, hentry]
      rfl
    · rfl
  | new hnew _ hshrinks hadded =>
    dsimp only
    split
    · next hc =>
      rw [contents, contents, ← hc, hnew, hadded.blocks_eq, AList.lookup_insert]
      rfl
    · next hc =>
      refine contents_of_lookup_imp hcached fun entry hentry => hshrinks.lookup cid entry ?_
      rwa [hadded.blocks_eq, AList.lookup_insert_ne (Ne.symm hc)] at hentry
  | get cid' => exact contents_get cache cid' cid
  | remove =>
    exact contents_of_lookup_imp hcached fun _ => lookup_of_lookup_erase
  | removeMiss => rfl
  | clear => exact absurd hcached (by simp [BlockCache.clear])

theorem contents_reorder (hperm : cache.blocks.entries.Perm blocks.entries) (cid : Cid) :
    contents { cache with blocks := blocks } cid = cache.contents cid := by
  have hlookup : cache.blocks.lookup cid = blocks.lookup cid := AList.perm_lookup hperm
  rw [contents, contents, hlookup]

/-! ### Whole runs -/

section Run

variable {maxSizeBytes : ℕ} {maxBlocks : Option ℕ} {h : History}

theorem Run.inv (hrun : Run maxSizeBytes maxBlocks h cache) : Inv cache := by
  induction hrun with
  | new => exact .new maxSizeBytes maxBlocks
  | reorder _ hperm ih => exact ih.reorder hperm
  | step _ hop ih => exact ih.perform hop

theorem Run.limits (hrun : Run maxSizeBytes maxBlocks h cache) :
    cache.maxSizeBytes = maxSizeBytes ∧ cache.maxBlocks = maxBlocks := by
  induction hrun with
  | new => exact ⟨rfl, rfl⟩
  | reorder _ _ ih => exact ih
  | step hrun hop ih =>
    obtain ⟨hsize, hcount⟩ := hrun.inv.perform_limits hop
    exact ⟨hsize.trans ih.1, hcount.trans ih.2⟩

theorem Run.contents_eq (hrun : Run maxSizeBytes maxBlocks h cache) (cid : Cid) :
    cache.contents cid = expected h cid := by
  induction hrun with
  | new => rfl
  | reorder _ hperm ih => exact (contents_reorder hperm cid).trans ih
  | @step h cache cache' op fuel out hrun hop ih =>
    unfold expected
    split
    · next hcached =>
      rw [hrun.inv.perform_contents hop hcached, ih]
      cases op <;> rfl
    · next hcached => exact contents_eq_none.mpr hcached

end Run

/-- **Every operation ends**, and the only panic is the sum of `would_exceed_limits` in `insert`. -/
theorem Inv.exists_perform (hI : Inv cache) (op : Op) :
    (∃ fuel r, cache.perform fuel op = some r) ∧
      ∀ fuel f, cache.perform fuel op = some (.error f) →
        f = .panic "attempt to add with overflow" ∧
          ∃ block, op = .insert block ∧ 2 ^ 64 ≤ cache.currentSize + block.data.length := by
  cases op with
  | insert block =>
    obtain ⟨fuel, r, hr⟩ := exists_insert hI block
    refine ⟨⟨fuel, _, by rw [BlockCache.perform, hr]; rfl⟩, fun fuel f h => ?_⟩
    obtain ⟨r, hr, h⟩ := Option.map_eq_some_iff.mp h
    cases insert_spec hI hr with
    | hit => exact absurd h (by simp [Except.map])
    | new => exact absurd h (by simp [Except.map])
    | overflow hlarge => exact ⟨(Except.error.inj h).symm, block, rfl, hlarge⟩
  | get cid => exact ⟨⟨0, _, rfl⟩, fun fuel f h => absurd h (by simp [BlockCache.perform])⟩
  | remove cid =>
    refine ⟨⟨0, _, rfl⟩, fun fuel f h => ?_⟩
    have h' := Option.some.inj h
    rcases remove_eq hI cid with ⟨entry, -, heq⟩ | ⟨-, heq⟩
    · exact absurd (heq.symm.trans h') (by simp)
    · exact absurd (heq.symm.trans h') (by simp)
  | clear => exact ⟨⟨0, _, rfl⟩, fun fuel f h => absurd h (by simp [BlockCache.perform])⟩

/-- **The accounts of the cache.** After any operations on an empty cache: the total is the sum of
the sizes of the cached blocks; it keeps the limit, or the only block is larger than the limit;
there are at most as many blocks as allowed, or one; a CID has the block it was last inserted with
while it was not cached; and the next operation ends, with no subtraction below zero. -/
theorem Run.accounting {h : History} {cache : BlockCache}
    (hrun : Run maxSizeBytes maxBlocks h cache) :
    cache.currentSize = (cache.blocks.entries.map fun e => e.2.block.data.length).sum ∧
      (cache.currentSize ≤ maxSizeBytes ∨
        ∃ e, cache.blocks.entries = [e] ∧ maxSizeBytes < e.2.block.data.length) ∧
      (∀ n, maxBlocks = some n → cache.blocks.entries.length ≤ max 1 n) ∧
      (∀ cid, (cache.get cid).1 = expected h cid) ∧
      ∀ op, (∃ fuel r, cache.perform fuel op = some r) ∧
        ∀ fuel f, cache.perform fuel op = some (.error f) →
          f = .panic "attempt to add with overflow" ∧
            ∃ block, op = .insert block ∧ 2 ^ 64 ≤ cache.currentSize + block.data.length := by
  have hI := hrun.inv
  obtain ⟨hmaxSize, hmaxBlocks⟩ := hrun.limits
  -- the recorded sizes are those of the blocks
  have hsize : ∀ e ∈ cache.blocks.entries, e.2.size = e.2.block.data.length := by
    intro e he
    exact hI.size_eq e.1 e.2 (AList.mem_lookup_iff.mpr he)
  refine ⟨?_, ?_, fun n hn => ?_, fun cid => ?_, hI.exists_perform⟩
  · rw [hI.total_eq, sum, List.map_congr_left hsize]
  · rw [← hmaxSize]
    refine hI.size_le.imp id ?_
    rintro ⟨e, he, hlt⟩
    refine ⟨e, he, ?_⟩
    rwa [hsize e (he ▸ List.mem_cons_self)] at hlt
  · exact hI.count_le n (hmaxBlocks.trans hn)
  · rw [get_fst, hrun.contents_eq]

/-! ### Fixed runs -/

/-- The operations of a list one after the other, when each of them ends and none panics. -/
def performAll (fuel : ℕ) : List Op → History × BlockCache → Option (History × BlockCache)
  | [], s => some s
  | op :: ops, s =>
    match s.2.perform fuel op with
    | some (.ok (_, cache)) => performAll fuel ops ((op, cache.blocks.keys) :: s.1, cache)
    | _ => none

theorem Run.performAll {ops : List Op} {s s' : History × BlockCache}
    (hrun : Run maxSizeBytes maxBlocks s.1 s.2) (h : performAll fuel ops s = some s') :
    Run maxSizeBytes maxBlocks s'.1 s'.2 := by
  induction ops generalizing s with
  | nil =>
    obtain rfl := Option.some.inj h
    exact hrun
  | cons op ops ih =>
    unfold BlockCache.performAll at h
    split at h
    · next out cache hop => exact ih (hrun.step hop) h
    · exact absurd h (by simp)

theorem exists_run {α : Type} (maxSizeBytes : ℕ) (maxBlocks : Option ℕ) (fuel : ℕ) (ops : List Op)
    (f : History × BlockCache → α) {a : α}
    (h : (performAll fuel ops ([], .new maxSizeBytes maxBlocks)).map f = some a) :
    ∃ h cache, Run maxSizeBytes maxBlocks h cache ∧ f (h, cache) = a := by
  obtain ⟨s, hs, hf⟩ := Option.map_eq_some_iff.mp h
  exact ⟨s.1, s.2, Run.new.performAll hs, hf⟩

/-- The block of the byte 0. -/
def zeroBlock : Block :=
  letI := CidReference.byteHash
  ⟨Cid.ofData Codec.raw .sha256 [0], [0]⟩

/-- `Block::from_parts` of the CID of the byte 0 and the byte 1. -/
def forgedBlock : Block := ⟨zeroBlock.cid, [1]⟩

theorem accounting_zeroBlock :
    ∃ h cache, Run 0 none h cache ∧
      (cache.blocks.entries.map fun e => e.2.block.data.length).sum = 1 ∧
      (cache.get zeroBlock.cid).1 = some zeroBlock := by
  obtain ⟨h, cache, hrun, heq⟩ := exists_run 0 none 1 [.insert zeroBlock, .get zeroBlock.cid]
    (fun s => (s.2.currentSize, expected s.1 zeroBlock.cid)) (a := (1, some zeroBlock))
    (by decide +kernel)
  obtain ⟨hsum, -, -, hget, -⟩ := hrun.accounting
  obtain ⟨hsize, hexpected⟩ := Prod.mk.inj heq
  exact ⟨h, cache, hrun, hsum.symm.trans hsize, (hget _).trans hexpected⟩

/-- The block under the CID that it was last inserted with, while it stays cached. -/
def lastInserted : History → Cid → Option Block
  | [], _ => none
  | (op, cached) :: h, cid =>
    if cid ∈ cached then
      match op with
      | .insert block => if block.cid = cid then some block else lastInserted h cid
      | _ => lastInserted h cid
    else none

/-- Another block that is inserted under a cached CID leaves the first one there. -/
theorem not_forall_get_lastInserted :
    ¬ ∀ (maxSizeBytes : ℕ) (maxBlocks : Option ℕ) (h : History) (cache : BlockCache),
      Run maxSizeBytes maxBlocks h cache →
        ∀ cid, (cache.get cid).1 = lastInserted h cid := by
  intro hall
  obtain ⟨h, cache, hrun, heq⟩ := exists_run 1024 none 1 [.insert zeroBlock, .insert forgedBlock]
    (fun s => ((s.2.get zeroBlock.cid).1, lastInserted s.1 zeroBlock.cid))
    (a := (some zeroBlock, some forgedBlock)) (by decide +kernel)
  obtain ⟨hget, hlast⟩ := Prod.mk.inj heq
  have hsame := (hget.symm.trans (hall 1024 none h cache hrun zeroBlock.cid)).trans hlast
  exact absurd hsame (by decide +kernel)

end BlockCache

end Ipfrs
