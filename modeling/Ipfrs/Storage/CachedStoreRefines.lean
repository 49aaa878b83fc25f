import Ipfrs.Storage.CachedStore

/-!
# The cached store answers as its backing store

In every run of a `CachedBlockStore`, whatever fails on the way, an answer that is not an error is
the one of the backing store.

The cache holds nothing that the store does not hold (`Inv`): a block enters it after it was written
or read, and leaves it before it is deleted. The operations keep to the contract of the store, with
the contents of the store below (`get_spec` and the others). For the batch operations this is the
bookkeeping of indices of `Ipfrs.BatchLookup`.
-/

namespace Ipfrs.CachedStore

open BatchLookup CachedBlockStore

variable {S : Type} [StoreView S] {content : Cid → Bytes} {s s' : S} {blocks : List Block}
  {cids : List Cid} {c : Cid} {data : Bytes}

/-! ### Contents -/

/-- The data of the blocks are those that the CID determines. -/
def Consistent (content : Cid → Bytes) (s : S) : Prop :=
  ∀ c data, view s c = some data → data = content c

theorem Writes.mono (h : Writes blocks s s') (hs : Consistent content s)
    (hblocks : ∀ b ∈ blocks, b.data = content b.cid) (hview : view s c = some data) :
    view s' c = some data := by
  rcases h c with hsame | ⟨b, hb, rfl, hwritten⟩
  · rw [hsame]
    exact hview
  · rw [hwritten, hblocks b hb, hs b.cid data hview]

theorem Writes.consistent (h : Writes blocks s s') (hs : Consistent content s)
    (hblocks : ∀ b ∈ blocks, b.data = content b.cid) : Consistent content s' := by
  intro c data hview
  rcases h c with hsame | ⟨b, hb, rfl, hwritten⟩
  · rw [hsame] at hview
    exact hs c data hview
  · rw [hwritten] at hview
    rw [← Option.some.inj hview]
    exact hblocks b hb

theorem Consistent.view_eq (h : Consistent content s) {b : Block} (hb : b.data = content b.cid)
    (hsome : (view s b.cid).isSome) : view s b.cid = some b.data := by
  obtain ⟨data, hview⟩ := Option.isSome_iff_exists.mp hsome
  rw [hview, h b.cid data hview, hb]

theorem Deletes.consistent (h : Deletes cids s s') (hs : Consistent content s) :
    Consistent content s' := by
  intro c data hview
  rcases h c with hsame | ⟨-, hgone⟩
  · rw [hsame] at hview
    exact hs c data hview
  · rw [hgone] at hview
    exact absurd hview (by simp)

theorem Deletes.view_of_notMem (h : Deletes cids s s') (hc : c ∉ cids) : view s' c = view s c := by
  rcases h c with hsame | ⟨hmem, -⟩
  · exact hsame
  · exact absurd hmem hc

/-! ### The invariant -/

section Invariant

variable [CidText] {st st' : CachedBlockStore S}

/-- **The invariant**: what is in the cache is in the store. -/
structure Inv (content : Cid → Bytes) (st : CachedBlockStore S) : Prop where
  consistent : Consistent content st.inner
  backed : ∀ c data, st.cache.lookup (CidText.toString c) = some data → view st.inner c = some data

/-- The contents of the store are the same, and nothing has entered the cache. -/
theorem Inv.of_same (h : Inv content st) (hview : view st'.inner = view st.inner)
    (hcache : ∀ key data, st'.cache.lookup key = some data → st.cache.lookup key = some data) :
    Inv content st' := by
  refine ⟨fun c data hdata => ?_, fun c data hdata => ?_⟩
  · rw [hview] at hdata
    exact h.consistent c data hdata
  · rw [hview]
    exact h.backed c data (hcache _ data hdata)

theorem Inv.of_writes (h : Inv content st) (hblocks : ∀ b ∈ blocks, b.data = content b.cid)
    (hwrites : Writes blocks st.inner st'.inner) (hcache : st'.cache = st.cache) :
    Inv content st' := by
  refine ⟨hwrites.consistent h.consistent hblocks, fun c data hdata => ?_⟩
  rw [hcache] at hdata
  exact hwrites.mono h.consistent hblocks (h.backed c data hdata)

omit [StoreView S] in
theorem l1Peek_spec (st : CachedBlockStore S) (c : Cid) :
    (st.l1Peek c).2 = st.cache.lookup (CidText.toString c) ∧ (st.l1Peek c).1.inner = st.inner ∧
      ∀ key, (st.l1Peek c).1.cache.lookup key = st.cache.lookup key := by
  obtain ⟨hvalue, -, hlookup⟩ := st.cache.get_spec (CidText.toString c)
  exact ⟨hvalue, rfl, hlookup⟩

omit [StoreView S] in
theorem inner_offer (st : CachedBlockStore S) (c : Cid) (data : Bytes) :
    (st.offer c data).inner = st.inner := by
  unfold offer
  split
  · unfold l1Insert
    split
    · rfl
    · rfl
  · rfl

omit [StoreView S] in
theorem cache_l1Insert (st : CachedBlockStore S) (c : Cid) (data : Bytes) :
    (st.l1Insert c data).cache = (st.cache.push (CidText.toString c) data).1 := by
  unfold l1Insert
  split
  · next h => rw [h]
  · next h => rw [h]

variable [LawfulCidText]

/-- **A block enters the cache** that is in the store. -/
theorem Inv.offer (h : Inv content st) (hview : view st.inner c = some data) :
    Inv content (st.offer c data) := by
  refine ⟨?_, fun c' data' hdata => ?_⟩
  · rw [inner_offer]
    exact h.consistent
  rw [inner_offer]
  unfold CachedBlockStore.offer at hdata
  split at hdata
  · rw [cache_l1Insert] at hdata
    obtain ⟨hkey, rfl⟩ | ⟨-, hdata⟩ := Lru.of_lookup_push hdata
    · rw [LawfulCidText.toString_injective hkey]
      exact hview
    · exact h.backed c' data' hdata
  · exact h.backed c' data' hdata

theorem Inv.foldl_offer (h : Inv content st)
    (hblocks : ∀ b ∈ blocks, view st.inner b.cid = some b.data) :
    Inv content (blocks.foldl (fun st block => st.offer block.cid block.data) st) ∧
      (blocks.foldl (fun st block => st.offer block.cid block.data) st).inner = st.inner := by
  induction blocks generalizing st with
  | nil => exact ⟨h, rfl⟩
  | cons b blocks ih =>
    obtain ⟨hb, hblocks⟩ := List.forall_mem_cons.mp hblocks
    have hinner : (st.offer b.cid b.data).inner = st.inner := inner_offer ..
    have hnext := ih (h.offer hb) (by rwa [hinner])
    rw [hinner] at hnext
    exact hnext

omit [StoreView S] [LawfulCidText] in
theorem foldl_invalidate (st : CachedBlockStore S) (cids : List Cid) :
    (cids.foldl invalidate st).inner = st.inner ∧
      ∀ c data, (cids.foldl invalidate st).cache.lookup (CidText.toString c) = some data →
        c ∉ cids ∧ st.cache.lookup (CidText.toString c) = some data := by
  induction cids generalizing st with
  | nil => exact ⟨rfl, fun c data h => ⟨List.not_mem_nil, h⟩⟩
  | cons cid cids ih =>
    obtain ⟨hinner, hlookup⟩ := ih (st.invalidate cid)
    refine ⟨hinner, fun c data h => ?_⟩
    obtain ⟨hnot, h⟩ := hlookup c data h
    obtain ⟨hne, h⟩ := Lru.of_lookup_pop h
    refine ⟨fun hmem => ?_, h⟩
    rcases List.mem_cons.mp hmem with rfl | hmem
    · exact hne rfl
    · exact hnot hmem

omit [LawfulCidText] in
/-- **Blocks are deleted** that have left the cache. -/
theorem Inv.of_deletes (h : Inv content st) (hdeletes : Deletes cids st.inner st'.inner)
    (hcache : ∀ c data, st'.cache.lookup (CidText.toString c) = some data →
      c ∉ cids ∧ st.cache.lookup (CidText.toString c) = some data) : Inv content st' := by
  refine ⟨hdeletes.consistent h.consistent, fun c data hdata => ?_⟩
  obtain ⟨hnot, hdata⟩ := hcache c data hdata
  rw [hdeletes.view_of_notMem hnot]
  exact h.backed c data hdata

end Invariant

/-! ### Single blocks -/

section Operations

variable [CidText] [BackingStore S] [LawfulBackingStore S] {st : CachedBlockStore S}

section Single

variable [LawfulCidText]

/-- **`put`** writes the block to the store, and to the cache only then. -/
theorem put_spec (h : Inv content st) {b : Block} (hb : b.data = content b.cid) :
    Inv content (st.put b).1 ∧ Writes [b] st.inner (st.put b).1.inner ∧
      ((st.put b).2 = .ok () → view (st.put b).1.inner b.cid = some b.data) := by
  obtain ⟨hwrites, hok⟩ := LawfulBackingStore.put st.inner b
  have hblocks : ∀ b' ∈ [b], b'.data = content b'.cid := by
    intro b' hb'
    rw [List.mem_singleton.mp hb']
    exact hb
  unfold CachedBlockStore.put
  dsimp only
  rcases hput : BackingStore.put st.inner b with ⟨inner, e | u⟩
  · -- the cache stays as it is
    rw [hput] at hwrites
    have hput' : BackingStore.put (st.countPuts 1).inner b = (inner, .error e) := hput
    rw [hput']
    exact ⟨h.of_writes hblocks hwrites rfl, hwrites, fun herror => absurd herror (by simp)⟩
  · rw [hput] at hwrites hok
    have hput' : BackingStore.put (st.countPuts 1).inner b = (inner, .ok ()) := hput
    rw [hput']
    -- what is there under the CID is the block, whether it was written now or before
    have hinv : Inv content { st.countPuts 1 with inner := inner } :=
      h.of_writes hblocks hwrites rfl
    have hview : view inner b.cid = some b.data := hinv.consistent.view_eq hb (hok rfl)
    refine ⟨hinv.offer hview, ?_, fun _ => ?_⟩
    · rw [inner_offer]
      exact hwrites
    · rw [inner_offer]
      exact hview

/-- **`get`** answers with what the store holds. -/
theorem get_spec (h : Inv content st) (c : Cid) :
    Inv content (st.get c).1 ∧
      Reads st.inner (st.get c).1.inner (st.get c).2 (blockAt st.inner c) := by
  obtain ⟨hvalue, hinner, hlookup⟩ := l1Peek_spec st c
  unfold CachedBlockStore.get
  rcases hpeek : st.l1Peek c with ⟨st₁, _ | data⟩
  · -- the store is asked
    rw [hpeek] at hinner hlookup
    dsimp only at hinner hlookup ⊢
    have hreads := LawfulBackingStore.get st.inner c
    have hget : BackingStore.get st₁.countMiss.inner c = BackingStore.get st.inner c := by
      rw [← hinner]
      rfl
    rw [hget]
    rcases hanswer : BackingStore.get st.inner c with ⟨inner, e | _ | block⟩
    all_goals
      rw [hanswer] at hreads
      obtain ⟨hview, hfound⟩ := hreads
      dsimp only at hview hfound
      have hinv : Inv content { st₁.countMiss with inner := inner } :=
        h.of_same hview fun key data hdata => by rw [← hlookup]; exact hdata
    · exact ⟨hinv, hview, hfound⟩
    · exact ⟨hinv, hview, hfound⟩
    · -- the block that was found is the one of the CID
      obtain ⟨data, hdata, rfl⟩ := Option.map_eq_some_iff.mp (hfound _ rfl).symm
      refine ⟨hinv.offer ?_, ?_, hfound⟩
      · show view inner c = some data
        rw [hview]
        exact hdata
      · rw [inner_offer]
        exact hview
  · -- the cache answers
    rw [hpeek] at hvalue hinner hlookup
    dsimp only at hvalue hinner hlookup ⊢
    have hview : view st₁.countHit.inner = view st.inner := congrArg view hinner
    refine ⟨h.of_same hview fun key data hdata => ?_, hview, fun found hfound => ?_⟩
    · rw [← hlookup]
      exact hdata
    · rw [← Except.ok.inj hfound, blockAt, h.backed c data hvalue.symm]
      rfl

end Single

omit [LawfulBackingStore S] [BackingStore S] in
theorem Inv.isSome_view (h : Inv content st) (hcontains : st.l1Contains c = true) :
    (view st.inner c).isSome = true := by
  obtain ⟨data, hdata⟩ := Option.isSome_iff_exists.mp hcontains
  rw [h.backed c data hdata]
  rfl

/-- **`has`** answers whether the store has the block. -/
theorem has_spec (h : Inv content st) (c : Cid) :
    Inv content (st.has c).1 ∧
      Reads st.inner (st.has c).1.inner (st.has c).2 (view st.inner c).isSome := by
  unfold CachedBlockStore.has
  split
  · next hcontains =>
    refine ⟨h, rfl, fun b hb => ?_⟩
    rw [h.isSome_view hcontains]
    exact (Except.ok.inj hb).symm
  · have hreads := LawfulBackingStore.has st.inner c
    exact ⟨h.of_same hreads.1 fun _ _ hdata => hdata, hreads⟩

/-- **`delete`** deletes the block, which has left the cache before. -/
theorem delete_spec (h : Inv content st) (c : Cid) :
    Inv content (st.delete c).1 ∧ Deletes [c] st.inner (st.delete c).1.inner ∧
      ((st.delete c).2 = .ok () → view (st.delete c).1.inner c = none) := by
  obtain ⟨hdeletes, hok⟩ := LawfulBackingStore.delete st.inner c
  refine ⟨h.of_deletes hdeletes fun c' data hdata => ?_, hdeletes, hok⟩
  obtain ⟨hne, hdata⟩ := Lru.of_lookup_pop hdata
  refine ⟨fun hmem => hne ?_, hdata⟩
  rw [List.mem_singleton.mp hmem]

/-- **`delete_many`** likewise. -/
theorem deleteMany_spec (h : Inv content st) (cids : List Cid) :
    Inv content (st.deleteMany cids).1 ∧ Deletes cids st.inner (st.deleteMany cids).1.inner ∧
      ((st.deleteMany cids).2 = .ok () →
        ∀ c ∈ cids, view (st.deleteMany cids).1.inner c = none) := by
  obtain ⟨hinner, hlookup⟩ := foldl_invalidate st cids
  obtain ⟨hdeletes, hok⟩ := LawfulBackingStore.deleteMany st.inner cids
  unfold CachedBlockStore.deleteMany
  dsimp only
  rw [hinner]
  exact ⟨h.of_deletes hdeletes hlookup, hdeletes, hok⟩

/-- **`put_many`** writes the blocks to the store, and to the cache only then. -/
theorem putMany_spec [LawfulCidText] (h : Inv content st)
    (hblocks : ∀ b ∈ blocks, b.data = content b.cid) :
    Inv content (st.putMany blocks).1 ∧ Writes blocks st.inner (st.putMany blocks).1.inner ∧
      ((st.putMany blocks).2 = .ok () →
        ∀ b ∈ blocks, view (st.putMany blocks).1.inner b.cid = some b.data) := by
  obtain ⟨hwrites, hok⟩ := LawfulBackingStore.putMany st.inner blocks
  unfold CachedBlockStore.putMany
  dsimp only
  rcases hput : BackingStore.putMany st.inner blocks with ⟨inner, e | u⟩
  · -- some of the blocks may have been written, and none enters the cache
    rw [hput] at hwrites
    have hput' : BackingStore.putMany (st.countPuts blocks.length).inner blocks =
        (inner, .error e) := hput
    rw [hput']
    exact ⟨h.of_writes hblocks hwrites rfl, hwrites, fun herror => absurd herror (by simp)⟩
  · rw [hput] at hwrites hok
    have hput' : BackingStore.putMany (st.countPuts blocks.length).inner blocks =
        (inner, .ok ()) := hput
    rw [hput']
    have hinv : Inv content { st.countPuts blocks.length with inner := inner } :=
      h.of_writes hblocks hwrites rfl
    have hview : ∀ b ∈ blocks, view inner b.cid = some b.data :=
      fun b hb => hinv.consistent.view_eq (hblocks b hb) (hok rfl b hb)
    obtain ⟨hinv', hinner'⟩ := hinv.foldl_offer hview
    dsimp only
    rw [hinner']
    exact ⟨hinv', hwrites, fun _ => hview⟩

end Operations

/-! ### Batches -/

section Batches

variable [CidText] {st : CachedBlockStore S}

/-- What the lookups of a batch leave, where `hit` is what the cache answers: the contents of the
cache are as they were, there is an answer for each CID, and the others are recorded. -/
structure LookedUp {γ : Type} (hit : CachedBlockStore S → Cid → Option γ) (default : γ) (k : ℕ)
    (cids : List Cid) (l l' : Lookups S γ) : Prop where
  inner : l'.store.inner = l.store.inner
  lookup : ∀ key, l'.store.cache.lookup key = l.store.cache.lookup key
  results : l'.results = l.results ++ cids.map fun c => (hit l.store c).getD default
  missCids : l'.missCids = l.missCids ++ (misses (hit l.store) k cids).map Prod.fst
  missIndices : l'.missIndices = l.missIndices ++ (misses (hit l.store) k cids).map Prod.snd

section Lookup

variable {γ : Type} {hit : CachedBlockStore S → Cid → Option γ} {default answer : γ} {k : ℕ}
  {l : Lookups S γ} {st' : CachedBlockStore S}

omit [StoreView S] [CidText] in
theorem LookedUp.found (h : hit l.store c = some answer) (hinner : st'.inner = l.store.inner)
    (hlookup : ∀ key, st'.cache.lookup key = l.store.cache.lookup key) :
    LookedUp hit default k [c] l { l with store := st', results := l.results ++ [answer] } := by
  refine ⟨hinner, hlookup, ?_, ?_, ?_⟩
  · rw [List.map_singleton, h]
    rfl
  · rw [misses_cons_hit h]
    exact (List.append_nil _).symm
  · rw [misses_cons_hit h]
    exact (List.append_nil _).symm

omit [StoreView S] [CidText] in
/-- A lookup that the cache does not answer: the CID and its index are recorded. -/
theorem LookedUp.missed (h : hit l.store c = none) (hinner : st'.inner = l.store.inner)
    (hlookup : ∀ key, st'.cache.lookup key = l.store.cache.lookup key) :
    LookedUp hit default k [c] l
      ⟨st', l.results ++ [default], l.missCids ++ [c], l.missIndices ++ [k]⟩ := by
  refine ⟨hinner, hlookup, ?_, ?_, ?_⟩
  · rw [List.map_singleton, h]
    rfl
  · rw [misses_cons_miss h]
    rfl
  · rw [misses_cons_miss h]
    rfl

end Lookup

variable {γ : Type}

omit [StoreView S] [CidText] in
theorem LookedUp.foldl {hit : CachedBlockStore S → Cid → Option γ} {default : γ}
    {step : Lookups S γ → Cid × ℕ → Lookups S γ}
    (hhit : ∀ st st' : CachedBlockStore S, (∀ key, st'.cache.lookup key = st.cache.lookup key) →
      hit st' = hit st) (hstep : ∀ l c k, LookedUp hit default k [c] l (step l (c, k)))
    (cids : List Cid) (k : ℕ) (l : Lookups S γ) :
    LookedUp hit default k cids l ((cids.zipIdx k).foldl step l) := by
  induction cids generalizing k l with
  | nil =>
    refine ⟨rfl, fun _ => rfl, ?_, ?_, ?_⟩
    · exact (List.append_nil _).symm
    · exact (List.append_nil _).symm
    · exact (List.append_nil _).symm
  | cons c cids ih =>
    have hfirst := hstep l c k
    have hrest := ih (k + 1) (step l (c, k))
    -- the first lookup does not change what the others find
    have hsame := hhit l.store _ hfirst.lookup
    rw [List.zipIdx_cons, List.foldl_cons]
    refine ⟨hrest.inner.trans hfirst.inner, fun key => (hrest.lookup key).trans (hfirst.lookup key),
      ?_, ?_, ?_⟩
    · rw [hrest.results, hfirst.results, hsame, List.append_assoc]
      rfl
    · rw [hrest.missCids, hfirst.missCids, hsame, List.append_assoc, misses_cons _ k c cids,
        List.map_append]
    · rw [hrest.missIndices, hfirst.missIndices, hsame, List.append_assoc, misses_cons _ k c cids,
        List.map_append]

omit [StoreView S] [CidText] in
/-- **The answers to the CIDs that were recorded, put in place.** -/
theorem LookedUp.placed {hit : CachedBlockStore S → Cid → Option γ} {default : γ} {l : Lookups S γ}
    (h : LookedUp hit default 0 cids ⟨st, [], [], []⟩ l) (fill : List γ → ℕ × γ → List γ)
    (hfill : ∀ before after c, fill (before ++ default :: after) (before.length, c) =
      before ++ c :: after) (answer : Cid → γ) :
    (l.missIndices.zip (l.missCids.map answer)).foldl fill l.results =
      cids.map fun c => (hit st c).getD (answer c) := by
  rw [h.results, h.missCids, h.missIndices, List.nil_append, List.nil_append, List.nil_append,
    List.map_map, List.zip_map']
  exact foldl_misses (hit st) default answer fill hfill cids []

/-- The lookups keep the invariant, also when the store is then read. -/
theorem LookedUp.inv {hit : CachedBlockStore S → Cid → Option γ} {default : γ} {l : Lookups S γ}
    (h : LookedUp hit default 0 cids ⟨st, [], [], []⟩ l) (hinv : Inv content st)
    (hview : view s = view st.inner) : Inv content { l.store with inner := s } :=
  hinv.of_same hview fun key data hdata => by rw [← h.lookup]; exact hdata

/-- What the cache answers to a lookup of `get_many`. -/
def getHit (st : CachedBlockStore S) (c : Cid) : Option (Option Block) :=
  (st.cache.lookup (CidText.toString c)).map fun data => some ⟨c, data⟩

omit [StoreView S] in
theorem getLookup_spec (l : Lookups S (Option Block)) (c : Cid) (k : ℕ) :
    LookedUp getHit none k [c] l (getLookup l (c, k)) := by
  obtain ⟨hvalue, hinner, hlookup⟩ := l1Peek_spec l.store c
  unfold getLookup
  dsimp only
  rcases hpeek : l.store.l1Peek c with ⟨st₁, _ | data⟩
  all_goals
    rw [hpeek] at hvalue hinner hlookup
    dsimp only at hvalue hinner hlookup ⊢
  · have hhit : getHit l.store c = none := by rw [getHit, ← hvalue]; rfl
    exact .missed hhit (hinner : st₁.countMiss.inner = l.store.inner) hlookup
  · have hhit : getHit l.store c = some (some ⟨c, data⟩) := by rw [getHit, ← hvalue]; rfl
    exact .found hhit (hinner : st₁.countHit.inner = l.store.inner) hlookup

/-- What the cache answers to a lookup of `has_many`. -/
def hasHit (st : CachedBlockStore S) (c : Cid) : Option Bool :=
  if st.l1Contains c then some true else none

omit [StoreView S] in
theorem hasLookup_spec (l : Lookups S Bool) (c : Cid) (k : ℕ) :
    LookedUp hasHit false k [c] l (hasLookup l (c, k)) := by
  unfold hasLookup
  dsimp only
  split
  · next hcontains => exact .found (if_pos hcontains) rfl fun _ => rfl
  · next hcontains => exact .missed (if_neg hcontains) rfl fun _ => rfl

variable [BackingStore S] [LawfulBackingStore S]

/-- **`has_many`** answers, for each CID in order, whether the store has the block. -/
theorem hasMany_spec (h : Inv content st) (cids : List Cid) :
    Inv content (st.hasMany cids).1 ∧ Reads st.inner (st.hasMany cids).1.inner
      (st.hasMany cids).2 (cids.map fun c => (view st.inner c).isSome) := by
  have hlooked : LookedUp hasHit false 0 cids ⟨st, [], [], []⟩
      (cids.zipIdx.foldl hasLookup ⟨st, [], [], []⟩) :=
    .foldl (fun st st' hlookup => by
      funext c
      unfold hasHit l1Contains
      rw [hlookup]) hasLookup_spec cids 0 _
  -- what the cache contains, the store has
  have hanswer : ∀ c, (hasHit st c).getD (view st.inner c).isSome = (view st.inner c).isSome := by
    intro c
    unfold hasHit
    split
    · next hcontains => exact (h.isSome_view hcontains).symm
    · rfl
  have hplaced := hlooked.placed (fun results x => results.set x.1 x.2)
    (fun before after b => by simp) fun c => (view st.inner c).isSome
  simp only [hanswer] at hplaced
  unfold CachedBlockStore.hasMany
  dsimp only
  generalize cids.zipIdx.foldl hasLookup ⟨st, [], [], []⟩ = l at hlooked hplaced ⊢
  have hinner : l.store.inner = st.inner := hlooked.inner
  split
  · next hempty =>
    rw [List.isEmpty_iff.mp hempty] at hplaced
    refine ⟨hlooked.inv h (congrArg view hinner), congrArg view hinner, fun found hfound => ?_⟩
    rw [← Except.ok.inj hfound, ← hplaced, List.map_nil, List.zip_nil_right]
    rfl
  · -- the store is asked about the others
    rw [hinner]
    have hreads := LawfulBackingStore.hasMany st.inner l.missCids
    rcases hmany : BackingStore.hasMany st.inner l.missCids with ⟨inner, e | storeResults⟩
    all_goals
      rw [hmany] at hreads
      obtain ⟨hview, hfound⟩ := hreads
      dsimp only at hview hfound
      have hinv : Inv content { l.store with inner := inner } := hlooked.inv h hview
    · exact ⟨hinv, hview, fun found hfound => absurd hfound (by simp)⟩
    · refine ⟨hinv, hview, fun found hok => ?_⟩
      rw [← Except.ok.inj hok, hfound _ rfl]
      exact hplaced

/-- One block that was fetched, placed among the results. -/
def fillBlock (results : List (Option Block)) : ℕ × Option Block → List (Option Block)
  | (_, none) => results
  | (idx, some block) => results.set idx (some block)

variable [LawfulCidText]

omit [BackingStore S] [LawfulBackingStore S] in
/-- **The blocks that were fetched** are in the store, so they may enter the cache. -/
theorem Inv.foldl_getFill (h : Inv content st) {fetched : List (ℕ × Option Block)}
    (hfetched : ∀ x ∈ fetched, ∀ b, x.2 = some b → view st.inner b.cid = some b.data)
    (results : List (Option Block)) :
    Inv content (fetched.foldl getFill (st, results)).1 ∧
      (fetched.foldl getFill (st, results)).1.inner = st.inner ∧
      (fetched.foldl getFill (st, results)).2 = fetched.foldl fillBlock results := by
  induction fetched generalizing st results with
  | nil => exact ⟨h, rfl, rfl⟩
  | cons x fetched ih =>
    obtain ⟨hx, hrest⟩ := List.forall_mem_cons.mp hfetched
    obtain ⟨idx, _ | block⟩ := x
    · exact ih h hrest results
    · -- the store below is the same for the next one
      have hinner : (st.offer block.cid block.data).inner = st.inner := inner_offer ..
      have hnext := ih (h.offer (hx block rfl)) (by rwa [hinner]) (results.set idx (some block))
      rw [hinner] at hnext
      exact hnext

/-- **`get_many`** answers, for each CID in order, with what the store holds. -/
theorem getMany_spec (h : Inv content st) (cids : List Cid) :
    Inv content (st.getMany cids).1 ∧ Reads st.inner (st.getMany cids).1.inner
      (st.getMany cids).2 (cids.map (blockAt st.inner)) := by
  have hlooked : LookedUp getHit none 0 cids ⟨st, [], [], []⟩
      (cids.zipIdx.foldl getLookup ⟨st, [], [], []⟩) :=
    .foldl (fun st st' hlookup => by
      funext c
      unfold getHit
      rw [hlookup]) getLookup_spec cids 0 _
  -- what is in the cache is in the store
  have hanswer : ∀ c, (getHit st c).getD (blockAt st.inner c) = blockAt st.inner c := by
    intro c
    unfold getHit
    cases hdata : st.cache.lookup (CidText.toString c) with
    | none => rfl
    | some data =>
      rw [blockAt, h.backed c data hdata]
      rfl
  have hplaced := hlooked.placed fillBlock (fun before after r => by
    cases r with
    | none => rfl
    | some b => simp [fillBlock]) (blockAt st.inner)
  simp only [hanswer] at hplaced
  unfold CachedBlockStore.getMany
  dsimp only
  generalize cids.zipIdx.foldl getLookup ⟨st, [], [], []⟩ = l at hlooked hplaced ⊢
  have hinner : l.store.inner = st.inner := hlooked.inner
  split
  · next hempty =>
    rw [List.isEmpty_iff.mp hempty] at hplaced
    refine ⟨hlooked.inv h (congrArg view hinner), congrArg view hinner, fun found hfound => ?_⟩
    rw [← Except.ok.inj hfound]
    have hnil : l.missIndices.zip (([] : List Cid).map (blockAt st.inner)) = [] :=
      List.zip_nil_right
    rw [hnil] at hplaced
    exact hplaced
  · -- the store is asked for the others
    rw [hinner]
    have hreads := LawfulBackingStore.getMany st.inner l.missCids
    rcases hmany : BackingStore.getMany st.inner l.missCids with ⟨inner, e | fetched⟩
    all_goals
      rw [hmany] at hreads
      obtain ⟨hview, hfound⟩ := hreads
      dsimp only at hview hfound
      have hinv : Inv content { l.store with inner := inner } := hlooked.inv h hview
    · exact ⟨hinv, hview, fun found hfound => absurd hfound (by simp)⟩
    · obtain rfl := hfound _ rfl
      have hblocks : ∀ x ∈ l.missIndices.zip (l.missCids.map (blockAt st.inner)), ∀ b,
          x.2 = some b → view inner b.cid = some b.data := by
        intro x hx b hb
        obtain ⟨c, -, hc⟩ := List.mem_map.mp (List.of_mem_zip hx).2
        rw [hb] at hc
        obtain ⟨data, hdata, rfl⟩ := Option.map_eq_some_iff.mp hc
        rw [hview]
        exact hdata
      obtain ⟨hinv', hinner', hresults⟩ := hinv.foldl_getFill hblocks l.results
      refine ⟨hinv', ?_, fun found hok => ?_⟩
      · dsimp only
        rw [hinner']
        exact hview
      · rw [← Except.ok.inj hok, hresults, hplaced]

end Batches

/-! ### Runs -/

/-- The operations of a cached store. -/
inductive Op where
  | put (block : Block)
  | get (cid : Cid)
  | has (cid : Cid)
  | delete (cid : Cid)
  | putMany (blocks : List Block)
  | getMany (cids : List Cid)
  | hasMany (cids : List Cid)
  | deleteMany (cids : List Cid)
  | invalidate (cid : Cid)
  | clearCache

/-- What an operation answers. -/
inductive Answer where
  | done
  | block (found : Option Block)
  | blocks (found : List (Option Block))
  | present (found : Bool)
  | presents (found : List Bool)
  deriving DecidableEq

/-- The blocks that an operation writes have the data that their CIDs determine. -/
def OpConsistent (content : Cid → Bytes) : Op → Prop
  | .put block => block.data = content block.cid
  | .putMany blocks => ∀ b ∈ blocks, b.data = content b.cid
  | _ => True

/-- **The answer of a store** to an operation: what it holds, and that it has done what was asked of
it. -/
def Answers (s : S) : Op → Answer → Prop
  | .get cid, .block found => found = blockAt s cid
  | .has cid, .present found => found = (view s cid).isSome
  | .getMany cids, .blocks found => found = cids.map (blockAt s)
  | .hasMany cids, .presents found => found = cids.map fun c => (view s c).isSome
  | .put block, .done => blockAt s block.cid = some block
  | .putMany blocks, .done => ∀ b ∈ blocks, blockAt s b.cid = some b
  | .delete cid, .done => blockAt s cid = none
  | .deleteMany cids, .done => ∀ c ∈ cids, blockAt s c = none
  | .invalidate _, .done => True
  | .clearCache, .done => True
  | _, _ => False

section Runs

variable [CidText] [BackingStore S]

omit [StoreView S] in
/-- One operation. -/
def perform (st : CachedBlockStore S) : Op → CachedBlockStore S × Except Error Answer
  | .put block => ((st.put block).1, (st.put block).2.map fun _ => .done)
  | .get cid => ((st.get cid).1, (st.get cid).2.map .block)
  | .has cid => ((st.has cid).1, (st.has cid).2.map .present)
  | .delete cid => ((st.delete cid).1, (st.delete cid).2.map fun _ => .done)
  | .putMany blocks => ((st.putMany blocks).1, (st.putMany blocks).2.map fun _ => .done)
  | .getMany cids => ((st.getMany cids).1, (st.getMany cids).2.map .blocks)
  | .hasMany cids => ((st.hasMany cids).1, (st.hasMany cids).2.map .presents)
  | .deleteMany cids => ((st.deleteMany cids).1, (st.deleteMany cids).2.map fun _ => .done)
  | .invalidate cid => (st.invalidate cid, .ok .done)
  | .clearCache => (st.clearCache, .ok .done)

/-- The cached stores that operations make of a new one, whatever they answer. -/
inductive Run (content : Cid → Bytes) : CachedBlockStore S → Prop
  | new {inner : S} (h : Consistent content inner) (config : CacheConfig) :
      Run content (.new inner config)
  | step {st : CachedBlockStore S} {op : Op} (h : Run content st) (hop : OpConsistent content op) :
      Run content (perform st op).1

variable [LawfulCidText] [LawfulBackingStore S] {st : CachedBlockStore S}

omit [CidText] [BackingStore S] [LawfulCidText] [LawfulBackingStore S] in
theorem blockAt_congr (h : view s' = view s) : blockAt s' = blockAt s := by
  funext c
  rw [blockAt, blockAt, h]

omit [CidText] [BackingStore S] [LawfulCidText] [LawfulBackingStore S] in
theorem blockAt_of_view {b : Block} (h : view s b.cid = some b.data) :
    blockAt s b.cid = some b := by
  rw [blockAt, h]
  rfl

variable {op : Op}

omit [CidText] [BackingStore S] [LawfulCidText] [LawfulBackingStore S] in
theorem answers_map {α : Type} {r : Except Error α} {f : α → Answer}
    (h : ∀ x, r = .ok x → Answers s op (f x)) : ∀ a, r.map f = .ok a → Answers s op a := by
  intro a ha
  obtain ⟨x, hx, rfl⟩ := Except.map_eq_ok_iff.mp ha
  exact h x hx

/-- **One operation** keeps the invariant, and answers as the store. -/
theorem Inv.perform (h : Inv content st) (hop : OpConsistent content op) :
    Inv content (perform st op).1 ∧
      ∀ a, (perform st op).2 = .ok a → Answers (perform st op).1.inner op a := by
  -- an operation that reads leaves the contents as they were, so its answer is still right
  cases op with
  | put block =>
    obtain ⟨hinv, -, hok⟩ := put_spec h hop
    exact ⟨hinv, answers_map fun _ hr => blockAt_of_view (hok hr)⟩
  | get cid =>
    obtain ⟨hinv, hview, hok⟩ := get_spec h cid
    refine ⟨hinv, answers_map fun found hr => ?_⟩
    show found = blockAt (st.get cid).1.inner cid
    rw [blockAt_congr hview]
    exact hok found hr
  | has cid =>
    obtain ⟨hinv, hview, hok⟩ := has_spec h cid
    refine ⟨hinv, answers_map fun found hr => ?_⟩
    show found = (view (st.has cid).1.inner cid).isSome
    rw [hview]
    exact hok found hr
  | delete cid =>
    obtain ⟨hinv, -, hok⟩ := delete_spec h cid
    refine ⟨hinv, answers_map fun _ hr => ?_⟩
    show blockAt (st.delete cid).1.inner cid = none
    rw [blockAt, hok hr]
    rfl
  | putMany blocks =>
    obtain ⟨hinv, -, hok⟩ := putMany_spec h hop
    exact ⟨hinv, answers_map fun _ hr b hb => blockAt_of_view (hok hr b hb)⟩
  | getMany cids =>
    obtain ⟨hinv, hview, hok⟩ := getMany_spec h cids
    refine ⟨hinv, answers_map fun found hr => ?_⟩
    show found = cids.map (blockAt (st.getMany cids).1.inner)
    rw [blockAt_congr hview]
    exact hok found hr
  | hasMany cids =>
    obtain ⟨hinv, hview, hok⟩ := hasMany_spec h cids
    refine ⟨hinv, answers_map fun found hr => ?_⟩
    show found = cids.map fun c => (view (st.hasMany cids).1.inner c).isSome
    rw [hview]
    exact hok found hr
  | deleteMany cids =>
    obtain ⟨hinv, -, hok⟩ := deleteMany_spec h cids
    refine ⟨hinv, answers_map fun _ hr c hc => ?_⟩
    show blockAt (st.deleteMany cids).1.inner c = none
    rw [blockAt, hok hr c hc]
    rfl
  | invalidate cid =>
    refine ⟨h.of_same rfl fun key data hdata => (Lru.of_lookup_pop hdata).2, fun a ha => ?_⟩
    obtain rfl := Except.ok.inj ha
    trivial
  | clearCache =>
    refine ⟨h.of_same rfl fun key data hdata => ?_, fun a ha => ?_⟩
    · exact absurd ((Lru.lookup_empty _ st.cache.pos key).symm.trans hdata) (by simp)
    · obtain rfl := Except.ok.inj ha
      trivial

theorem Run.inv (h : Run content st) : Inv content st := by
  induction h with
  | new hinner config =>
    refine ⟨hinner, fun c data hdata => ?_⟩
    exact absurd ((Lru.lookup_empty _ config.l1Capacity_pos _).symm.trans hdata) (by simp)
  | step _ hop ih => exact (ih.perform hop).1

/-- **The cached store refines its backing store**: in every run, whatever fails on the way, an
answer that is not an error is the one of the backing store. -/
theorem Run.refines (h : Run content st) (hop : OpConsistent content op) {a : Answer}
    (ha : (perform st op).2 = .ok a) : Answers (perform st op).1.inner op a :=
  (h.inv.perform hop).2 a ha

end Runs

section Sample

open scoped CidReference

/-- A block is put into a cache for one block, another one drives it out, and both are asked for
together, the first one twice. -/
theorem Run.refines_two :
    let _ := CidReference.byteHash
    let b₀ : Block := ⟨Cid.ofData Codec.raw .sha256 [0], [0]⟩
    let b₁ : Block := ⟨Cid.ofData Codec.raw .sha256 [1], [1]⟩
    let config : CacheConfig := { l1Capacity := 1 }
    let st := (perform (perform (.new MemoryBlockStore.new config) (.put b₀)).1 (.put b₁)).1
    (perform st (.getMany [b₀.cid, b₁.cid, b₀.cid])).2 = .ok (.blocks [some b₀, some b₁, some b₀]) ∧
      Answers (perform st (.getMany [b₀.cid, b₁.cid, b₀.cid])).1.inner
        (.getMany [b₀.cid, b₁.cid, b₀.cid]) (.blocks [some b₀, some b₁, some b₀]) := by
  intro _ b₀ b₁ config st
  let content : Cid → Bytes := fun c => if c = b₁.cid then [1] else [0]
  -- the two blocks differ in their CIDs
  have hne : b₀.cid ≠ b₁.cid := by decide +kernel
  have hempty : Consistent content MemoryBlockStore.new := fun c data h => absurd h (by
    simp [view, MemoryBlockStore.new])
  have hrun : Run content st :=
    .step (.step (.new hempty config) (if_neg hne).symm) (if_pos rfl).symm
  have hanswer : (perform st (.getMany [b₀.cid, b₁.cid, b₀.cid])).2 =
      .ok (.blocks [some b₀, some b₁, some b₀]) := by
    decide +kernel
  have hop : OpConsistent content (.getMany [b₀.cid, b₁.cid, b₀.cid]) := trivial
  exact ⟨hanswer, Run.refines hrun hop hanswer⟩

end Sample

end Ipfrs.CachedStore
