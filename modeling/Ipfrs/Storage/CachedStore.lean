import Ipfrs.Lib.BatchLookup
import Ipfrs.Lib.Lru
import Ipfrs.Core.BlockCache
import Ipfrs.Storage.BlockStore

/-!
# A cache in front of a block store

`CachedBlockStore` (`ipfrs-storage/src/cache.rs`), one call at a time, over a store whose calls can
fail half-way (`BackingStore`).

The contract of the store (`LawfulBackingStore`) is about its contents. Whatever a call answers, it
has written no other blocks than its own (`Writes`) and deleted no others (`Deletes`); when it
succeeds it has written or deleted all of them, and what it answers is what the store holds. The
data of a block are determined by its CID: `content` says which they are. The first-level cache is
keyed by the string form of CIDs, which has to stand for one CID (`LawfulCidText`).

The invariant is that every block in the cache is in the store (`Inv`).
-/

namespace Ipfrs.CachedStore

/-! ### Backing stores -/

section Trait

variable {S α β : Type}

/-- A loop of calls that ends with the first error. -/
def sequentially (call : S → α → S × Except Error β) : S → List α → S × Except Error (List β)
  | s, [] => (s, .ok [])
  | s, a :: as =>
    match call s a with
    | (s, .error e) => (s, .error e)
    | (s, .ok b) =>
      match sequentially call s as with
      | (s, .error e) => (s, .error e)
      | (s, .ok bs) => (s, .ok (b :: bs))

/-- `BlockStore`, over a state that any call may change. The batch operations have the trait's
default implementations, which a store may replace. -/
class BackingStore (S : Type) where
  put : S → Block → S × Except Error Unit
  get : S → Cid → S × Except Error (Option Block)
  has : S → Cid → S × Except Error Bool
  delete : S → Cid → S × Except Error Unit
  putMany : S → List Block → S × Except Error Unit := fun s blocks =>
    let (s, r) := sequentially put s blocks
    (s, r.map fun _ => ())
  getMany : S → List Cid → S × Except Error (List (Option Block)) := sequentially get
  hasMany : S → List Cid → S × Except Error (List Bool) := sequentially has
  deleteMany : S → List Cid → S × Except Error Unit := fun s cids =>
    let (s, r) := sequentially delete s cids
    (s, r.map fun _ => ())

variable [StoreView S]

/-- Some of the blocks may have been written, and nothing else has happened. -/
def Writes (blocks : List Block) (s s' : S) : Prop :=
  ∀ c, view s' c = view s c ∨ ∃ b ∈ blocks, b.cid = c ∧ view s' c = some b.data

/-- Some of the blocks may have been deleted, and nothing else has happened. -/
def Deletes (cids : List Cid) (s s' : S) : Prop :=
  ∀ c, view s' c = view s c ∨ c ∈ cids ∧ view s' c = none

/-- The block that the store holds under a CID. -/
def blockAt (s : S) (c : Cid) : Option Block := (view s c).map (Block.mk c)

/-- A call that reads: the contents stay, and an answer is the right one. -/
def Reads (s s' : S) (r : Except Error α) (answer : α) : Prop :=
  view s' = view s ∧ ∀ a, r = .ok a → a = answer

/-- **The contract of a backing store.** -/
class LawfulBackingStore (S : Type) [BackingStore S] [StoreView S] : Prop where
  get : ∀ (s : S) c, Reads s (BackingStore.get s c).1 (BackingStore.get s c).2 (blockAt s c)
  has : ∀ (s : S) c, Reads s (BackingStore.has s c).1 (BackingStore.has s c).2 (view s c).isSome
  getMany : ∀ (s : S) cids, Reads s (BackingStore.getMany s cids).1 (BackingStore.getMany s cids).2
    (cids.map (blockAt s))
  hasMany : ∀ (s : S) cids, Reads s (BackingStore.hasMany s cids).1 (BackingStore.hasMany s cids).2
    (cids.map fun c => (view s c).isSome)
  put : ∀ (s : S) b, Writes [b] s (BackingStore.put s b).1 ∧
    ((BackingStore.put s b).2 = .ok () → (view (BackingStore.put s b).1 b.cid).isSome)
  putMany : ∀ (s : S) blocks, Writes blocks s (BackingStore.putMany s blocks).1 ∧
    ((BackingStore.putMany s blocks).2 = .ok () →
      ∀ b ∈ blocks, (view (BackingStore.putMany s blocks).1 b.cid).isSome)
  delete : ∀ (s : S) c, Deletes [c] s (BackingStore.delete s c).1 ∧
    ((BackingStore.delete s c).2 = .ok () → view (BackingStore.delete s c).1 c = none)
  deleteMany : ∀ (s : S) cids, Deletes cids s (BackingStore.deleteMany s cids).1 ∧
    ((BackingStore.deleteMany s cids).2 = .ok () →
      ∀ c ∈ cids, view (BackingStore.deleteMany s cids).1 c = none)

/-! ### The default batch operations -/

variable {s s' s'' : S}

theorem sequentially_reads {call : S → α → S × Except Error β}
    (answer : (Cid → Option Bytes) → α → β)
    (hcall : ∀ s a, Reads s (call s a).1 (call s a).2 (answer (view s) a)) (s : S) (as : List α) :
    Reads s (sequentially call s as).1 (sequentially call s as).2 (as.map (answer (view s))) := by
  induction as generalizing s with
  | nil => exact ⟨rfl, fun bs hbs => (Except.ok.inj hbs).symm⟩
  | cons a as ih =>
    have hfirst := hcall s a
    unfold sequentially
    rcases hr : call s a with ⟨s₁, e | b⟩
    all_goals
      rw [hr] at hfirst
      obtain ⟨hview, hb⟩ := hfirst
      dsimp only at hview hb ⊢
    · exact ⟨hview, fun bs hbs => absurd hbs (by simp)⟩
    · have hrest := ih s₁
      rcases hr' : sequentially call s₁ as with ⟨s₂, e | bs⟩
      all_goals
        rw [hr', hview] at hrest
        obtain ⟨hview', hbs⟩ := hrest
        dsimp only at hview' hbs ⊢
      · exact ⟨hview'.trans hview, fun bs hbs => absurd hbs (by simp)⟩
      · refine ⟨hview'.trans hview, fun found hfound => ?_⟩
        rw [← Except.ok.inj hfound, hb b rfl, hbs bs rfl]
        rfl

theorem Writes.trans {blocks blocks' : List Block} (h : Writes blocks s s')
    (h' : Writes blocks' s' s'') : Writes (blocks ++ blocks') s s'' := by
  intro c
  rcases h' c with hsame | ⟨b, hb, hc, hview⟩
  · rcases h c with hsame' | ⟨b, hb, hc, hview⟩
    · exact Or.inl (hsame.trans hsame')
    · exact Or.inr ⟨b, List.mem_append_left _ hb, hc, hsame.trans hview⟩
  · exact Or.inr ⟨b, List.mem_append_right _ hb, hc, hview⟩

theorem Deletes.trans {cids cids' : List Cid} (h : Deletes cids s s') (h' : Deletes cids' s' s'') :
    Deletes (cids ++ cids') s s'' := by
  intro c
  rcases h' c with hsame | ⟨hc, hview⟩
  · rcases h c with hsame' | ⟨hc, hview⟩
    · exact Or.inl (hsame.trans hsame')
    · exact Or.inr ⟨List.mem_append_left _ hc, hsame.trans hview⟩
  · exact Or.inr ⟨List.mem_append_right _ hc, hview⟩

theorem sequentially_writes {call : S → Block → S × Except Error Unit}
    (hcall : ∀ s b, Writes [b] s (call s b).1 ∧
      ((call s b).2 = .ok () → (view (call s b).1 b.cid).isSome)) (s : S) (blocks : List Block) :
    Writes blocks s (sequentially call s blocks).1 ∧
      ∀ us, (sequentially call s blocks).2 = .ok us →
        ∀ b ∈ blocks, (view (sequentially call s blocks).1 b.cid).isSome := by
  induction blocks generalizing s with
  | nil => exact ⟨fun c => Or.inl rfl, fun _ _ b hb => absurd hb List.not_mem_nil⟩
  | cons b blocks ih =>
    obtain ⟨hwrites, hok⟩ := hcall s b
    unfold sequentially
    rcases hr : call s b with ⟨s₁, e | u⟩
    all_goals
      rw [hr] at hwrites hok
      dsimp only at hwrites hok ⊢
    · refine ⟨fun c => ?_, fun _ hus => absurd hus (by simp)⟩
      rcases hwrites c with hsame | ⟨b', hb', hc, hview⟩
      · exact Or.inl hsame
      · rw [List.mem_singleton.mp hb'] at hc hview
        exact Or.inr ⟨b, List.mem_cons_self, hc, hview⟩
    · obtain ⟨hrest, hok'⟩ := ih s₁
      rcases hr' : sequentially call s₁ blocks with ⟨s₂, e | us⟩
      all_goals
        rw [hr'] at hrest hok'
        dsimp only at hrest hok' ⊢
      · exact ⟨hwrites.trans hrest, fun _ hus => absurd hus (by simp)⟩
      · refine ⟨hwrites.trans hrest, fun _ _ b' hb' => ?_⟩
        rcases List.mem_cons.mp hb' with rfl | hb'
        · -- the first block is still there
          rcases hrest b'.cid with hsame | ⟨b₂, -, -, hview⟩
          · rw [hsame]
            exact hok rfl
          · rw [hview]
            rfl
        · exact hok' us rfl b' hb'

theorem sequentially_deletes {call : S → Cid → S × Except Error Unit}
    (hcall : ∀ s c, Deletes [c] s (call s c).1 ∧
      ((call s c).2 = .ok () → view (call s c).1 c = none)) (s : S) (cids : List Cid) :
    Deletes cids s (sequentially call s cids).1 ∧
      ∀ us, (sequentially call s cids).2 = .ok us →
        ∀ c ∈ cids, view (sequentially call s cids).1 c = none := by
  induction cids generalizing s with
  | nil => exact ⟨fun c => Or.inl rfl, fun _ _ c hc => absurd hc List.not_mem_nil⟩
  | cons c cids ih =>
    obtain ⟨hdeletes, hok⟩ := hcall s c
    unfold sequentially
    rcases hr : call s c with ⟨s₁, e | u⟩
    all_goals
      rw [hr] at hdeletes hok
      dsimp only at hdeletes hok ⊢
    · refine ⟨fun c' => ?_, fun _ hus => absurd hus (by simp)⟩
      rcases hdeletes c' with hsame | ⟨hc', hview⟩
      · exact Or.inl hsame
      · rw [List.mem_singleton.mp hc'] at hview ⊢
        exact Or.inr ⟨List.mem_cons_self, hview⟩
    · obtain ⟨hrest, hok'⟩ := ih s₁
      rcases hr' : sequentially call s₁ cids with ⟨s₂, e | us⟩
      all_goals
        rw [hr'] at hrest hok'
        dsimp only at hrest hok' ⊢
      · exact ⟨hdeletes.trans hrest, fun _ hus => absurd hus (by simp)⟩
      · refine ⟨hdeletes.trans hrest, fun _ _ c' hc' => ?_⟩
        rcases List.mem_cons.mp hc' with rfl | hc'
        · -- the first block has not come back
          rcases hrest c' with hsame | ⟨-, hview⟩
          · rw [hsame]
            exact hok rfl
          · exact hview
        · exact hok' us rfl c' hc'

end Trait

section Memory

/-- `MemoryBlockStore`, with the default batch operations. -/
instance : BackingStore MemoryBlockStore where
  put s b := (s.insert b, .ok ())
  get s c := (s, .ok (s.blocks.lookup c))
  has s c := (s, .ok (s.blocks.lookup c).isSome)
  delete s c := (s.remove c, .ok ())

variable (s : MemoryBlockStore)

theorem memory_get (c : Cid) :
    Reads s (BackingStore.get s c).1 (BackingStore.get s c).2 (blockAt s c) :=
  ⟨rfl, fun _ h => LawfulBlockStore.get_ok (s := s) (c := c) h⟩

theorem memory_has (c : Cid) :
    Reads s (BackingStore.has s c).1 (BackingStore.has s c).2 (view s c).isSome :=
  ⟨rfl, fun _ h => LawfulBlockStore.has_ok (s := s) (c := c) h⟩

theorem memory_put (b : Block) : Writes [b] s (BackingStore.put s b).1 ∧
    ((BackingStore.put s b).2 = .ok () → (view (BackingStore.put s b).1 b.cid).isSome) := by
  have hview : view (s.insert b) b.cid = some b.data := by
    show ((s.blocks.insert b.cid b).lookup b.cid).map Block.data = some b.data
    rw [AList.lookup_insert]
    rfl
  refine ⟨fun c => ?_, fun _ => ?_⟩
  · by_cases hc : c = b.cid
    · rw [hc]
      exact Or.inr ⟨b, List.mem_singleton_self b, rfl, hview⟩
    · exact Or.inl ((LawfulBlockStore.put_ok (s := s) rfl).2 c hc)
  · show (view (s.insert b) b.cid).isSome
    rw [hview]
    rfl

theorem memory_delete (c : Cid) :
    Deletes [c] s (BackingStore.delete s c).1 ∧
      ((BackingStore.delete s c).2 = .ok () → view (BackingStore.delete s c).1 c = none) := by
  obtain ⟨hgone, hother⟩ := LawfulBlockStore.delete_ok (s := s) (c := c) rfl
  refine ⟨fun c' => ?_, fun _ => hgone⟩
  by_cases hc : c' = c
  · rw [hc]
    exact Or.inr ⟨List.mem_singleton_self c, hgone⟩
  · exact Or.inl (hother c' hc)

instance : LawfulBackingStore MemoryBlockStore where
  get := memory_get
  has := memory_has
  getMany s cids := sequentially_reads (fun v c => (v c).map (Block.mk c)) memory_get s cids
  hasMany s cids := sequentially_reads (fun v c => (v c).isSome) memory_has s cids
  put := memory_put
  putMany s blocks := by
    obtain ⟨hwrites, hok⟩ := sequentially_writes memory_put s blocks
    refine ⟨hwrites, fun h => ?_⟩
    obtain ⟨us, hus, -⟩ := Except.map_eq_ok_iff.mp h
    exact hok us hus
  delete := memory_delete
  deleteMany s cids := by
    obtain ⟨hdeletes, hok⟩ := sequentially_deletes memory_delete s cids
    refine ⟨hdeletes, fun h => ?_⟩
    obtain ⟨us, hus, -⟩ := Except.map_eq_ok_iff.mp h
    exact hok us hus

end Memory

/-! ### The cached store -/

structure CacheStats where
  hits : ℕ := 0
  misses : ℕ := 0
  evictions : ℕ := 0
  puts : ℕ := 0
  deriving DecidableEq, Repr

structure CacheConfig where
  l1Capacity : ℕ := 1024
  l1Capacity_pos : 0 < l1Capacity := by decide
  maxBlockBytes : ℕ := 256 * 1024

structure CachedBlockStore (S : Type) where
  inner : S
  cache : Lru String Bytes
  maxBlockBytes : ℕ
  stats : CacheStats

namespace CachedBlockStore

variable {S : Type}

def new (inner : S) (config : CacheConfig) : CachedBlockStore S where
  inner := inner
  cache := .empty config.l1Capacity config.l1Capacity_pos
  maxBlockBytes := config.maxBlockBytes
  stats := {}

variable (st : CachedBlockStore S)

def clearCache : CachedBlockStore S := { st with cache := st.cache.clear }

/-- A `get` that is answered by the cache. -/
def countHit : CachedBlockStore S :=
  { st with stats := { st.stats with hits := fetchAdd st.stats.hits 1 } }

/-- A `get` that is not. -/
def countMiss : CachedBlockStore S :=
  { st with stats := { st.stats with misses := fetchAdd st.stats.misses 1 } }

/-- Calls of `put`. -/
def countPuts (n : ℕ) : CachedBlockStore S :=
  { st with stats := { st.stats with puts := fetchAdd st.stats.puts n } }

section Cache

variable [CidText]

variable (st : CachedBlockStore S)

def invalidate (cid : Cid) : CachedBlockStore S :=
  { st with cache := (st.cache.pop (CidText.toString cid)).1 }

def l1Insert (cid : Cid) (data : Bytes) : CachedBlockStore S :=
  match st.cache.push (CidText.toString cid) data with
  | (cache, some _) =>
    { st with
      cache := cache
      stats := { st.stats with evictions := fetchAdd st.stats.evictions 1 } }
  | (cache, none) => { st with cache := cache }

/-- A block enters the cache if it is not too large. -/
def offer (cid : Cid) (data : Bytes) : CachedBlockStore S :=
  if data.length ≤ st.maxBlockBytes then st.l1Insert cid data else st

def l1Peek (cid : Cid) : CachedBlockStore S × Option Bytes :=
  let (cache, data) := st.cache.get (CidText.toString cid)
  ({ st with cache := cache }, data)

/-- `contains`. -/
def l1Contains (cid : Cid) : Bool :=
  (st.cache.lookup (CidText.toString cid)).isSome

end Cache

section Store

variable [CidText] [BackingStore S]

variable (st : CachedBlockStore S)

def put (block : Block) : CachedBlockStore S × Except Error Unit :=
  let st := st.countPuts 1
  match BackingStore.put st.inner block with
  | (inner, .error e) => ({ st with inner := inner }, .error e)
  | (inner, .ok ()) =>
    let st := { st with inner := inner }
    (st.offer block.cid block.data, .ok ())

def get (cid : Cid) : CachedBlockStore S × Except Error (Option Block) :=
  match st.l1Peek cid with
  | (st, some data) => (st.countHit, .ok (some ⟨cid, data⟩))
  | (st, none) =>
    let st := st.countMiss
    match BackingStore.get st.inner cid with
    | (inner, .error e) => ({ st with inner := inner }, .error e)
    | (inner, .ok none) => ({ st with inner := inner }, .ok none)
    | (inner, .ok (some block)) =>
      let st := { st with inner := inner }
      (st.offer cid block.data, .ok (some block))

def has (cid : Cid) : CachedBlockStore S × Except Error Bool :=
  if st.l1Contains cid then (st, .ok true)
  else
    let (inner, r) := BackingStore.has st.inner cid
    ({ st with inner := inner }, r)

def delete (cid : Cid) : CachedBlockStore S × Except Error Unit :=
  let st := st.invalidate cid
  let (inner, r) := BackingStore.delete st.inner cid
  ({ st with inner := inner }, r)

/-- What the lookups of a batch have found: an answer for each CID so far, and the CIDs that are not
in the cache, with their indices. -/
structure Lookups (S γ : Type) where
  store : CachedBlockStore S
  results : List γ
  missCids : List Cid
  missIndices : List ℕ

omit [BackingStore S] in
/-- One lookup of `get_many`. -/
def getLookup (l : Lookups S (Option Block)) : Cid × ℕ → Lookups S (Option Block)
  | (cid, i) =>
    match l.store.l1Peek cid with
    | (store, some data) =>
      { l with store := store.countHit, results := l.results ++ [some ⟨cid, data⟩] }
    | (store, none) =>
      { store := store.countMiss
        results := l.results ++ [none]
        missCids := l.missCids ++ [cid]
        missIndices := l.missIndices ++ [i] }

omit [BackingStore S] in
/-- One block that was fetched enters the cache, and the results. -/
def getFill : CachedBlockStore S × List (Option Block) → ℕ × Option Block →
    CachedBlockStore S × List (Option Block)
  | (st, results), (_, none) => (st, results)
  | (st, results), (idx, some block) =>
    (st.offer block.cid block.data, results.set idx (some block))

def getMany (cids : List Cid) : CachedBlockStore S × Except Error (List (Option Block)) :=
  let l := cids.zipIdx.foldl getLookup ⟨st, [], [], []⟩
  if l.missCids.isEmpty then (l.store, .ok l.results)
  else
    match BackingStore.getMany l.store.inner l.missCids with
    | (inner, .error e) => ({ l.store with inner := inner }, .error e)
    | (inner, .ok fetched) =>
      let (st, results) :=
        (l.missIndices.zip fetched).foldl getFill ({ l.store with inner := inner }, l.results)
      (st, .ok results)

def putMany (blocks : List Block) : CachedBlockStore S × Except Error Unit :=
  let st := st.countPuts blocks.length
  match BackingStore.putMany st.inner blocks with
  | (inner, .error e) => ({ st with inner := inner }, .error e)
  | (inner, .ok ()) =>
    let st := { st with inner := inner }
    (blocks.foldl (fun st block => st.offer block.cid block.data) st, .ok ())

omit [BackingStore S] in
/-- One lookup of `has_many`. -/
def hasLookup (l : Lookups S Bool) : Cid × ℕ → Lookups S Bool
  | (cid, i) =>
    if l.store.l1Contains cid then { l with results := l.results ++ [true] }
    else
      { l with
        results := l.results ++ [false]
        missCids := l.missCids ++ [cid]
        missIndices := l.missIndices ++ [i] }

def hasMany (cids : List Cid) : CachedBlockStore S × Except Error (List Bool) :=
  let l := cids.zipIdx.foldl hasLookup ⟨st, [], [], []⟩
  if l.missCids.isEmpty then (l.store, .ok l.results)
  else
    match BackingStore.hasMany l.store.inner l.missCids with
    | (inner, .error e) => ({ l.store with inner := inner }, .error e)
    | (inner, .ok storeResults) =>
      ({ l.store with inner := inner },
        .ok ((l.missIndices.zip storeResults).foldl (fun results x => results.set x.1 x.2)
          l.results))

def deleteMany (cids : List Cid) : CachedBlockStore S × Except Error Unit :=
  let st := cids.foldl invalidate st
  let (inner, r) := BackingStore.deleteMany st.inner cids
  ({ st with inner := inner }, r)

end Store

end CachedBlockStore

end Ipfrs.CachedStore
