import Ipfrs.Lib.Lru
import Ipfrs.Core.BlockCache

/-!
# The tiered cache

`TieredBlockCache` (`ipfrs-storage/src/cache.rs`): a hot tier (L1) and a warm tier (L2), which takes
the blocks that L1 gives up.

As long as L2 has room for every block that was ever put, nothing should be lost: a block is in L1
as it was put last, or not in L1 and so in L2 (`Complete`). A `put` keeps it so. A `get` that finds
its block in L2 puts it into L1, and here the block that L1 gives up is dropped
(`not_forall_complete`). If L2 does not have that block, it is lost; otherwise nothing is (`Spares`,
`lookup_get_iff`, `Run.complete`).
-/

namespace Ipfrs.TieredCache

structure TieredBlockCache where
  l1Cache : Lru Cid Block
  l2Cache : Lru Cid Block
  l1Capacity : ℕ
  l2Capacity : ℕ
  l1Hits : ℕ
  l2Hits : ℕ
  misses : ℕ

namespace TieredBlockCache

/-- The capacity of a tier: a default in place of zero. -/
def capacityOr (capacity default : ℕ) : ℕ := if capacity = 0 then default else capacity

theorem capacityOr_pos {capacity default : ℕ} (h : 0 < default) :
    0 < capacityOr capacity default := by
  unfold capacityOr
  split
  · exact h
  · next hne => exact Nat.pos_of_ne_zero hne

theorem le_capacityOr (capacity default : ℕ) : capacity ≤ capacityOr capacity default := by
  unfold capacityOr
  split
  · next hzero =>
    rw [hzero]
    exact Nat.zero_le _
  · exact Nat.le_refl _

def new (l1Capacity l2Capacity : ℕ) : TieredBlockCache where
  l1Cache := .empty (capacityOr l1Capacity 100) (capacityOr_pos (by decide))
  l2Cache := .empty (capacityOr l2Capacity 1000) (capacityOr_pos (by decide))
  l1Capacity := l1Capacity
  l2Capacity := l2Capacity
  l1Hits := 0
  l2Hits := 0
  misses := 0

variable (cache : TieredBlockCache)

def get (cid : Cid) : TieredBlockCache × Option Block :=
  match cache.l1Cache.get cid with
  | (l1, some block) =>
    ({ cache with l1Cache := l1, l1Hits := fetchAdd cache.l1Hits 1 }, some block)
  | (l1, none) =>
    match cache.l2Cache.get cid with
    | (l2, some block) =>
      -- `LruCache::put`, which drops what it drives out
      ({ cache with
          l1Cache := (l1.put cid block).1
          l2Cache := l2
          l2Hits := fetchAdd cache.l2Hits 1 }, some block)
    | (l2, none) =>
      ({ cache with l1Cache := l1, l2Cache := l2, misses := fetchAdd cache.misses 1 }, none)

def put (block : Block) : TieredBlockCache :=
  match cache.l1Cache.push block.cid block with
  | (l1, some (cid, evicted)) =>
    { cache with l1Cache := l1, l2Cache := (cache.l2Cache.put cid evicted).1 }
  | (l1, none) => { cache with l1Cache := l1 }

def remove (cid : Cid) : TieredBlockCache :=
  { cache with l1Cache := (cache.l1Cache.pop cid).1, l2Cache := (cache.l2Cache.pop cid).1 }

def clear : TieredBlockCache :=
  { cache with
    l1Cache := cache.l1Cache.clear
    l2Cache := cache.l2Cache.clear
    l1Hits := 0
    l2Hits := 0
    misses := 0 }

/-! ### What is in the cache -/

/-- What a `get` would return: the block in L1, or else the one in L2. -/
def lookup (c : Cid) : Option Block :=
  (cache.l1Cache.lookup c).or (cache.l2Cache.lookup c)

variable {cache : TieredBlockCache} {c : Cid} {b : Block}

/-- **What a `get` returns, and does to the tiers**: it promotes a block that is only in L2, and
otherwise changes nothing but the order. -/
theorem get_spec (cache : TieredBlockCache) (c : Cid) :
    (cache.get c).2 = cache.lookup c ∧
      (∀ x, (cache.get c).1.l2Cache.lookup x = cache.l2Cache.lookup x) ∧
      (cache.get c).1.l2Cache.capacity = cache.l2Cache.capacity ∧
      ((cache.l1Cache.lookup c = none → cache.l2Cache.lookup c = none) ∧
          (∀ x, (cache.get c).1.l1Cache.lookup x = cache.l1Cache.lookup x) ∨
        cache.l1Cache.lookup c = none ∧ ∃ b, cache.l2Cache.lookup c = some b ∧
          (cache.get c).1.l1Cache = (cache.l1Cache.push c b).1) := by
  obtain ⟨hvalue, hcapacity, hlookup⟩ := cache.l1Cache.get_spec c
  obtain ⟨hvalue', hcapacity', hlookup'⟩ := cache.l2Cache.get_spec c
  unfold get lookup
  split
  · next l1 block h =>
    rw [h] at hvalue hlookup
    rw [← hvalue]
    exact ⟨rfl, fun _ => rfl, rfl, Or.inl ⟨fun hnone => absurd hnone (by simp), hlookup⟩⟩
  · next l1 h =>
    -- a map that does not have the key stays as it is
    have hsame : cache.l1Cache = l1 := by
      rw [h] at hvalue
      rw [Lru.get_of_lookup_eq_none hvalue.symm] at h
      exact congrArg Prod.fst h
    rw [h] at hvalue hlookup
    rw [← hvalue, Option.none_or]
    split
    · next l2 block h' =>
      rw [h'] at hvalue' hcapacity' hlookup'
      refine ⟨hvalue', hlookup', hcapacity', Or.inr ⟨rfl, block, hvalue'.symm, ?_⟩⟩
      rw [hsame]
      rfl
    · next l2 h' =>
      rw [h'] at hvalue' hcapacity' hlookup'
      exact ⟨hvalue', hlookup', hcapacity', Or.inl ⟨fun _ => hvalue'.symm, hlookup⟩⟩

/-- **What a `put` does to the tiers**, if L2 has room: L1 has the block, and what it gave up for it
is in L2. -/
theorem lookup_put (cache : TieredBlockCache) (b : Block)
    (hroom : ∀ c v, cache.l1Cache.lookup c = some v → cache.l2Cache.lookup c = none →
      cache.l2Cache.size < cache.l2Cache.capacity) (x : Cid) :
    (cache.put b).lookup x = if x = b.cid then some b else cache.lookup x := by
  unfold put
  obtain ⟨old, hold, hpushed, hlookup⟩ | ⟨-, -, hpushed, hlookup⟩ |
    ⟨hnone, -, last, value, hne, -, hlast, hpushed, hlookup⟩ :=
      Lru.push_cases cache.l1Cache b.cid b
  all_goals
    rcases hpush : cache.l1Cache.push b.cid b with ⟨l1, evicted⟩
    rw [hpush] at hpushed hlookup
    dsimp only at hpushed hlookup
    subst hpushed
    unfold lookup
    dsimp only
    rw [hlookup]
  · -- the old block goes to L2, where it is not looked for
    have hput : ∀ x, (cache.l2Cache.put b.cid old).1.lookup x =
        if x = b.cid then some old else cache.l2Cache.lookup x :=
      Lru.lookup_push_of_room (hroom b.cid old hold)
    rw [hput]
    split
    · exact Option.some_or
    · rfl
  · split
    · exact Option.some_or
    · rfl
  · have hput : ∀ x, (cache.l2Cache.put last value).1.lookup x =
        if x = last then some value else cache.l2Cache.lookup x :=
      Lru.lookup_push_of_room (hroom last value hlast)
    rw [hput]
    split
    · exact Option.some_or
    · split
      · next hx =>
        rw [hx, hlast, Option.some_or, Option.none_or]
      · rfl

theorem lookup_remove (cache : TieredBlockCache) (c x : Cid) :
    (cache.remove c).lookup x = if x = c then none else cache.lookup x := by
  show ((cache.l1Cache.pop c).1.lookup x).or ((cache.l2Cache.pop c).1.lookup x) = _
  rw [Lru.lookup_pop, Lru.lookup_pop]
  split
  · rfl
  · rfl

theorem lookup_clear (cache : TieredBlockCache) (x : Cid) : cache.clear.lookup x = none := by
  show ((Lru.empty _ _).lookup x).or ((Lru.empty _ _).lookup x) = none
  rw [Lru.lookup_empty, Lru.lookup_empty]
  rfl

/-- The block that L1 would give up for a promotion is in L2 as well. -/
def Spares (cache : TieredBlockCache) (c : Cid) : Prop :=
  cache.l1Cache.lookup c = none → (cache.l2Cache.lookup c).isSome = true →
    cache.l1Cache.size = cache.l1Cache.capacity →
    ∀ last ∈ cache.l1Cache.map.entries.getLast?, cache.l2Cache.lookup last.1 = some last.2

/-- **A `get` loses nothing** if and only if L2 has what L1 gives up. -/
theorem lookup_get_iff (cache : TieredBlockCache) (c : Cid) :
    (∀ x, (cache.get c).1.lookup x = cache.lookup x) ↔ cache.Spares c := by
  obtain ⟨-, hl2, -, ⟨hmiss, hl1⟩ | ⟨hnone, b, hfound, hl1⟩⟩ := cache.get_spec c
  · -- nothing is promoted
    refine ⟨fun _ hnone hsome => ?_, fun _ x => ?_⟩
    · rw [hmiss hnone] at hsome
      exact absurd hsome (by simp)
    · rw [lookup, lookup, hl1, hl2]
  · have hget : ∀ x, (cache.get c).1.lookup x =
        ((cache.l1Cache.push c b).1.lookup x).or (cache.l2Cache.lookup x) := by
      intro x
      rw [lookup, hl1, hl2]
    have hself : cache.lookup c = some b := by rw [lookup, hnone, hfound, Option.none_or]
    obtain ⟨old, hold, -⟩ | ⟨-, hroom, -, hlookup⟩ |
      ⟨-, hfull, last, value, hne, hlast, hvalue, -, hlookup⟩ :=
        Lru.push_cases cache.l1Cache c b
    · rw [hnone] at hold
      exact absurd hold (by simp)
    · -- L1 has room
      refine ⟨fun _ _ _ hfull => absurd hfull hroom.ne, fun _ x => ?_⟩
      rw [hget, hlookup]
      split
      · next hx => rw [hx, hself, Option.some_or]
      · rfl
    · -- L1 is full, and its last entry falls out: only a copy in L2 saves it
      have hlost : (cache.get c).1.lookup last = cache.l2Cache.lookup last := by
        rw [hget, hlookup, if_neg hne, if_pos rfl, Option.none_or]
      have hkept : cache.lookup last = some value := by rw [lookup, hvalue, Option.some_or]
      constructor
      · intro h _ _ _ entry hentry
        obtain rfl : ⟨last, value⟩ = entry := Option.some.inj (hlast.symm.trans hentry)
        rw [← hlost, h last, hkept]
      · intro h x
        have hspare : cache.l2Cache.lookup last = some value :=
          h hnone (by rw [hfound]; rfl) hfull ⟨last, value⟩ hlast
        rw [hget, hlookup]
        split
        · next hx => rw [hx, hself, Option.some_or]
        · split
          · next hx => rw [hx, hkept, hspare, Option.none_or]
          · rfl

end TieredBlockCache

/-! ### Runs -/

/-- The operations. -/
inductive Op where
  | put (block : Block)
  | get (cid : Cid)
  | remove (cid : Cid)
  | clear
  deriving DecidableEq

/-- An operation, and the block that it returns. -/
def perform (cache : TieredBlockCache) : Op → TieredBlockCache × Option Block
  | .put block => (cache.put block, none)
  | .get cid => cache.get cid
  | .remove cid => (cache.remove cid, none)
  | .clear => (cache.clear, none)

/-- The block that was put last under a CID. The last operation comes first. -/
def latest : List Op → Cid → Option Block
  | [], _ => none
  | .put block :: history, c => if c = block.cid then some block else latest history c
  | .get _ :: history, c => latest history c
  | .remove cid :: history, c => if c = cid then none else latest history c
  | .clear :: _, _ => none

/-- The CIDs that were ever put. -/
def everPut : List Op → Finset Cid
  | [] => ∅
  | .put block :: history => insert block.cid (everPut history)
  | _ :: history => everPut history

/-- The caches that operations make of a new one, if each of them meets a condition. -/
inductive Run (l1Capacity l2Capacity : ℕ) (meets : TieredBlockCache → Op → Prop) :
    List Op → TieredBlockCache → Prop
  | new : Run l1Capacity l2Capacity meets [] (.new l1Capacity l2Capacity)
  | step {history : List Op} {cache : TieredBlockCache} {op : Op}
      (h : Run l1Capacity l2Capacity meets history cache) (hmeets : meets cache op) :
      Run l1Capacity l2Capacity meets (op :: history) (perform cache op).1

/-- A `get` promotes no block at the cost of one that is nowhere else. -/
def Spares (cache : TieredBlockCache) : Op → Prop
  | .get cid => cache.Spares cid
  | _ => True

section Runs

variable {l1Capacity l2Capacity : ℕ} {meets : TieredBlockCache → Op → Prop} {history : List Op}
  {cache : TieredBlockCache} {op : Op} {c : Cid}

/-- **Complete**: every block is found as it was put last. -/
def Complete (history : List Op) (cache : TieredBlockCache) : Prop :=
  ∀ c, cache.lookup c = latest history c

theorem everPut_mono (history : List Op) (op : Op) : everPut history ⊆ everPut (op :: history) := by
  cases op with
  | put block => exact Finset.subset_insert _ _
  | get cid => exact Finset.Subset.refl _
  | remove cid => exact Finset.Subset.refl _
  | clear => exact Finset.Subset.refl _

theorem mem_everPut (h : (latest history c).isSome) : c ∈ everPut history := by
  induction history with
  | nil => exact absurd h (by simp [latest])
  | cons op history ih =>
    cases op with
    | put block =>
      unfold latest at h
      split at h
      · next hc =>
        rw [hc]
        exact Finset.mem_insert_self _ _
      · exact Finset.mem_insert_of_mem (ih h)
    | get cid => exact ih h
    | remove cid =>
      unfold latest at h
      split at h
      · exact absurd h (by simp)
      · exact ih h
    | clear => exact absurd h (by simp [latest])

theorem Run.l2Capacity_eq (h : Run l1Capacity l2Capacity meets history cache) :
    cache.l2Cache.capacity = TieredBlockCache.capacityOr l2Capacity 1000 := by
  induction h with
  | new => rfl
  | @step history cache op _ _ ih =>
    cases op with
    | put block =>
      -- only a block that is given up reaches L2
      refine Eq.trans ?_ ih
      unfold perform TieredBlockCache.put
      dsimp only
      split
      · exact Lru.capacity_push ..
      · rfl
    | get cid => exact (cache.get_spec cid).2.2.1.trans ih
    | remove cid => exact ih
    | clear => exact ih

/-- **L2 has room** for a block that only L1 has. -/
theorem Complete.room (h : Complete history cache)
    (hcapacity : (everPut history).card ≤ cache.l2Cache.capacity) (c : Cid) (b : Block)
    (hl1 : cache.l1Cache.lookup c = some b) (hl2 : cache.l2Cache.lookup c = none) :
    cache.l2Cache.size < cache.l2Cache.capacity := by
  refine Nat.lt_of_lt_of_le (Lru.size_lt_card (fun x hx => ?_) ?_ hl2) hcapacity
  · refine mem_everPut ?_
    rw [← h x, TieredBlockCache.lookup, Option.isSome_or, hx, Bool.or_true]
  · refine mem_everPut ?_
    rw [← h c, TieredBlockCache.lookup, hl1, Option.some_or]
    rfl

/-- **One operation** that spares what is nowhere else. -/
theorem Complete.step (h : Complete history cache)
    (hcapacity : (everPut history).card ≤ cache.l2Cache.capacity) (hspares : Spares cache op) :
    Complete (op :: history) (perform cache op).1 := by
  intro c
  cases op with
  | put block =>
    show (cache.put block).lookup c = if c = block.cid then some block else latest history c
    rw [cache.lookup_put block (h.room hcapacity), h c]
  | get cid => exact ((cache.lookup_get_iff cid).mpr hspares c).trans (h c)
  | remove cid =>
    show (cache.remove cid).lookup c = if c = cid then none else latest history c
    rw [cache.lookup_remove, h c]
  | clear => exact cache.lookup_clear c

/-- **Nothing is lost** in runs of which every promotion spares what is nowhere else, while L2 has
room for every block that was ever put. -/
theorem Run.complete (h : Run l1Capacity l2Capacity Spares history cache)
    (hdistinct : (everPut history).card ≤ l2Capacity) (c : Cid) :
    (cache.get c).2 = latest history c := by
  rw [(cache.get_spec c).1]
  induction h generalizing c with
  | new =>
    show ((Lru.empty _ _).lookup c).or ((Lru.empty _ _).lookup c) = none
    rw [Lru.lookup_empty, Lru.lookup_empty]
    rfl
  | @step history cache op hrun hspares ih =>
    have hdistinct' : (everPut history).card ≤ l2Capacity :=
      (Finset.card_le_card (everPut_mono history op)).trans hdistinct
    refine Complete.step (ih hdistinct') ?_ hspares c
    rw [hrun.l2Capacity_eq]
    exact hdistinct'.trans (TieredBlockCache.le_capacityOr _ _)

end Runs

section Sample

open scoped CidReference

/-- **A promotion loses a block**: the second block of two is in L1, the first one in L2. A `get` of
the first one takes it back to L1, and the second one is nowhere. -/
theorem not_forall_complete :
    let _ := CidReference.byteHash
    ¬ ∀ (l1Capacity l2Capacity : ℕ) (history : List Op) (cache : TieredBlockCache) (c : Cid)
        (b : Block), 0 < l1Capacity → 0 < l2Capacity →
        Run l1Capacity l2Capacity (fun _ _ => True) history cache →
        (everPut history).card ≤ l2Capacity → latest history c = some b →
        (cache.get c).2 = some b := by
  intro _ h
  let b₀ : Block := ⟨Cid.ofData Codec.raw .sha256 [0], [0]⟩
  let b₁ : Block := ⟨Cid.ofData Codec.raw .sha256 [1], [1]⟩
  -- L1 has one place, L2 two, and there are two blocks
  have hrun : Run 1 2 (fun _ _ => True) [.get b₀.cid, .put b₁, .put b₀] _ :=
    .step (.step (.step .new trivial) trivial) trivial
  have hfound := h 1 2 _ _ b₁.cid b₁ (by decide) (by decide) hrun (by decide +kernel)
    (by decide +kernel)
  have hlost :
      (((((TieredBlockCache.new 1 2).put b₀).put b₁).get b₀.cid).1.get b₁.cid).2 = none := by
    decide +kernel
  exact absurd (hlost.symm.trans hfound) (by simp)

/-- Two blocks, the first of which is put again: it drives the second one out of L1, and stays in L2
itself. The promotion of the second one is harmless. -/
theorem Run.complete_two :
    let _ := CidReference.byteHash
    let b₀ : Block := ⟨Cid.ofData Codec.raw .sha256 [0], [0]⟩
    let b₁ : Block := ⟨Cid.ofData Codec.raw .sha256 [1], [1]⟩
    let cache := (((TieredBlockCache.new 1 2).put b₀).put b₁).put b₀
    ((cache.get b₁.cid).1.get b₀.cid).2 = some b₀ := by
  intro _ b₀ b₁ cache
  have hspares : Spares cache (.get b₁.cid) := by
    intro _ _ _ last hlast
    -- L1 gives up the first block, which L2 has taken when the second one was put
    have hb₀ : cache.l1Cache.map.entries.getLast? = some ⟨b₀.cid, b₀⟩ := by decide +kernel
    obtain rfl := Option.some.inj (hb₀.symm.trans hlast)
    show cache.l2Cache.lookup b₀.cid = some b₀
    decide +kernel
  have hrun : Run 1 2 Spares [.get b₁.cid, .put b₀, .put b₁, .put b₀] (cache.get b₁.cid).1 :=
    .step (.step (.step (.step .new trivial) trivial) trivial) hspares
  exact (Run.complete hrun (by decide +kernel) b₀.cid).trans (by decide +kernel)

end Sample

end Ipfrs.TieredCache
