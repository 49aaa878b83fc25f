import Ipfrs.Core.Fnv
import Ipfrs.Lib.AssocMap

/-!
# The snapshot manager

`StorageSnapshotManager` (`ipfrs-storage/src/storage_snapshot_manager.rs`): versions of pages in one
store, shared by the current state and the snapshots, each of which maps pages to versions. A
version counts the views that map to it, and is removed when there is none.

Versions and snapshot identifiers are 64-bit counters, here numbers that do not wrap; the reference
counts are 32-bit numbers and do.

* `views` — the number of views that map to a version;
* `Sound` — the invariant: the counts are right, and what is mapped is stored;
* `Sound.perform` — every operation keeps it, as long as there are few snapshots;
* `Preserves` — no operation changes the bytes of a version, or the mapping of a snapshot;
* `isolation` — the isolation of snapshots, in every run.
-/

namespace Ipfrs

abbrev PageId := UInt64

abbrev SnapshotId := ℕ

structure Page where
  id : PageId
  data : Bytes
  version : ℕ
  refCount : ℕ
  checksum : UInt64
  deriving DecidableEq, Repr

def Page.new (id : PageId) (data : Bytes) (version : ℕ) : Page where
  id := id
  data := data
  version := version
  refCount := 1
  checksum := fnv1a data

structure SnapshotMetadata where
  id : SnapshotId
  name : String
  createdAt : ℕ
  pageCount : ℕ
  sizeBytes : ℕ
  parentSnapshot : Option SnapshotId
  tags : List String
  deriving DecidableEq, Repr

structure PageKey where
  id : PageId
  version : ℕ
  deriving DecidableEq, Repr

structure CoWMapping where
  pages : AList fun _ : PageId => ℕ

/-- The keys of the pages of a mapping, which are gone through one by one. -/
def CoWMapping.pageKeys (mapping : CoWMapping) : List PageKey :=
  mapping.pages.entries.map fun e => ⟨e.1, e.2⟩

structure SnapshotConfig where
  maxSnapshots : ℕ
  maxPages : ℕ
  autoGc : Bool
  deriving DecidableEq, Repr

/-- `SnapshotError`, as far as these operations return it. -/
inductive SnapshotError where
  | snapshotNotFound (id : SnapshotId)
  | pageNotFound (id : PageId)
  | maxSnapshotsExceeded
  | maxPagesExceeded
  | parentSnapshotNotFound (id : SnapshotId)
  deriving DecidableEq, Repr

structure StorageSnapshotManager where
  pageStore : AList fun _ : PageKey => Page
  current : CoWMapping
  snapshotMeta : AList fun _ : SnapshotId => SnapshotMetadata
  snapshotMappings : AList fun _ : SnapshotId => CoWMapping
  snapshotOrder : List SnapshotId
  nextSnapshotId : ℕ
  nextVersion : ℕ
  config : SnapshotConfig
  cowCopiesMade : ℕ

namespace StorageSnapshotManager

def new (config : SnapshotConfig) : StorageSnapshotManager where
  pageStore := ∅
  current := ⟨∅⟩
  snapshotMeta := ∅
  snapshotMappings := ∅
  snapshotOrder := []
  nextSnapshotId := 1
  nextVersion := 1
  config := config
  cowCopiesMade := 0

variable (m : StorageSnapshotManager)

/-- `StorageSnapshotManager::gc_pages`, with the number of pages that are removed. -/
def gcPages : StorageSnapshotManager × ℕ :=
  let pageStore := AssocMap.retainValues (fun page => page.refCount > 0) m.pageStore
  ({ m with pageStore := pageStore }, m.pageStore.entries.length - pageStore.entries.length)

/-- `ref_count += 1`. -/
def retainRef (page : Page) : Page := { page with refCount := (page.refCount + 1) % 2 ^ 32 }

/-- `ref_count -= 1`, behind the guard. -/
def releaseRef (page : Page) : Page :=
  if page.refCount > 0 then { page with refCount := page.refCount - 1 } else page

/-- What `write_page` does with the version that the current state has had. -/
def releaseOld (pageId : PageId) : StorageSnapshotManager :=
  match m.current.pages.lookup pageId with
  | none => m
  | some oldVersion =>
    match m.pageStore.lookup ⟨pageId, oldVersion⟩ with
    | none => m
    | some oldPage =>
      -- a version that some snapshot shares stays, with one reference less
      if oldPage.refCount > 1 then
        { m with
            pageStore := m.pageStore.insert ⟨pageId, oldVersion⟩
              { oldPage with refCount := oldPage.refCount - 1 }
            cowCopiesMade := m.cowCopiesMade + 1 }
      else { m with pageStore := m.pageStore.erase ⟨pageId, oldVersion⟩ }

/-- What `write_page` does once there is room. -/
def writeFresh (pageId : PageId) (data : Bytes) (newVersion : ℕ) : StorageSnapshotManager :=
  let m := m.releaseOld pageId
  { m with
      pageStore := m.pageStore.insert ⟨pageId, newVersion⟩ (.new pageId data newVersion)
      current := ⟨m.current.pages.insert pageId newVersion⟩ }

def writePage (pageId : PageId) (data : Bytes) : StorageSnapshotManager × Except SnapshotError ℕ :=
  let newVersion := m.nextVersion
  let m := { m with nextVersion := m.nextVersion + 1 }
  -- a full store is collected, whether `auto_gc` is set or not
  let m := if m.pageStore.entries.length ≥ m.config.maxPages then m.gcPages.1 else m
  -- once more, after the collection
  if m.pageStore.entries.length ≥ m.config.maxPages then (m, .error .maxPagesExceeded)
  else (m.writeFresh pageId data newVersion, .ok newVersion)

/-- The page of a view. -/
def readView (mapping : CoWMapping) (pageId : PageId) : Except SnapshotError Page :=
  match mapping.pages.lookup pageId with
  | none => .error (.pageNotFound pageId)
  | some version =>
    match m.pageStore.lookup ⟨pageId, version⟩ with
    | none => .error (.pageNotFound pageId)
    | some page => .ok page

def readPage (pageId : PageId) : Except SnapshotError Page :=
  m.readView m.current pageId

def readPageFromSnapshot (snapshotId : SnapshotId) (pageId : PageId) : Except SnapshotError Page :=
  match m.snapshotMappings.lookup snapshotId with
  | none => .error (.snapshotNotFound snapshotId)
  | some mapping => m.readView mapping pageId

/-- The length of a page that is stored. -/
def sizeOf (key : PageKey) : ℕ :=
  match m.pageStore.lookup key with
  | none => 0
  | some page => page.data.length

def createSnapshot (name : String) (tags : List String) (currentTs : ℕ)
    (parent : Option SnapshotId) : StorageSnapshotManager × Except SnapshotError SnapshotId :=
  -- a parent that is given must be there
  match parent.filter fun pid => (m.snapshotMeta.lookup pid).isNone with
  | some pid => (m, .error (.parentSnapshotNotFound pid))
  | none =>
    if m.snapshotMeta.entries.length ≥ m.config.maxSnapshots then (m, .error .maxSnapshotsExceeded)
    else
      let id := m.nextSnapshotId
      let snapMapping := m.current
      let metadata : SnapshotMetadata :=
        { id := id
          name := name
          createdAt := currentTs
          pageCount := snapMapping.pages.entries.length
          sizeBytes := (snapMapping.pageKeys.map m.sizeOf).sum
          parentSnapshot := parent
          tags := tags }
      ({ m with
          nextSnapshotId := m.nextSnapshotId + 1
          pageStore := AssocMap.modifyAll snapMapping.pageKeys retainRef m.pageStore
          snapshotMeta := m.snapshotMeta.insert id metadata
          snapshotMappings := m.snapshotMappings.insert id snapMapping
          snapshotOrder := m.snapshotOrder ++ [id] },
        .ok id)

def deleteSnapshot (id : SnapshotId) : StorageSnapshotManager × Except SnapshotError Unit :=
  match m.snapshotMappings.lookup id with
  | none => (m, .error (.snapshotNotFound id))
  | some mapping =>
    let m :=
      { m with
          snapshotMappings := m.snapshotMappings.erase id
          snapshotMeta := m.snapshotMeta.erase id
          snapshotOrder := m.snapshotOrder.filter (· ≠ id)
          pageStore := AssocMap.modifyAll mapping.pageKeys releaseRef m.pageStore }
    (if m.config.autoGc then m.gcPages.1 else m, .ok ())

def restoreSnapshot (id : SnapshotId) : StorageSnapshotManager × Except SnapshotError Unit :=
  match m.snapshotMappings.lookup id with
  | none => (m, .error (.snapshotNotFound id))
  | some snapMapping =>
    -- the current state lets go of its versions before it takes those of the snapshot
    let released := AssocMap.modifyAll m.current.pageKeys releaseRef m.pageStore
    let m :=
      { m with
          pageStore := AssocMap.modifyAll snapMapping.pageKeys retainRef released
          current := snapMapping }
    (if m.config.autoGc then m.gcPages.1 else m, .ok ())

/-! ### Runs -/

/-- The operations. -/
inductive Act where
  | writePage (pageId : PageId) (data : Bytes)
  | createSnapshot (name : String) (tags : List String) (currentTs : ℕ)
      (parent : Option SnapshotId)
  | deleteSnapshot (id : SnapshotId)
  | restoreSnapshot (id : SnapshotId)
  | gcPages
  deriving DecidableEq, Repr

/-- The manager after an operation, and the error that it returns. -/
def perform : Act → StorageSnapshotManager × Except SnapshotError Unit
  | .writePage pageId data =>
    ((m.writePage pageId data).1, (m.writePage pageId data).2.map fun _ => ())
  | .createSnapshot name tags currentTs parent =>
    ((m.createSnapshot name tags currentTs parent).1,
      (m.createSnapshot name tags currentTs parent).2.map fun _ => ())
  | .deleteSnapshot id => m.deleteSnapshot id
  | .restoreSnapshot id => m.restoreSnapshot id
  | .gcPages => (m.gcPages.1, .ok ())

/-- The manager after a run, whatever the operations answer. -/
def run (acts : List Act) : StorageSnapshotManager :=
  acts.foldl (fun m a => (m.perform a).1) m

/-- 1 for a view that maps to the version, and 0 for any other. -/
def refs (key : PageKey) (mapping : CoWMapping) : ℕ :=
  if mapping.pages.lookup key.id = some key.version then 1 else 0

/-- **The number of views that map to a version**: the current state and the snapshots. -/
def views (key : PageKey) : ℕ :=
  refs key m.current + AssocMap.sum (refs key) m.snapshotMappings

/-- The mapping is that of the current state or of a snapshot. -/
def IsView (mapping : CoWMapping) : Prop :=
  mapping = m.current ∨ ∃ id, m.snapshotMappings.lookup id = some mapping

/-- What holds in every run. -/
structure Sound (m : StorageSnapshotManager) : Prop where
  count : ∀ key page, m.pageStore.lookup key = some page → page.refCount = m.views key
  stored : ∀ mapping, m.IsView mapping → ∀ key ∈ mapping.pageKeys, key ∈ m.pageStore
  version : ∀ mapping, m.IsView mapping → ∀ key ∈ mapping.pageKeys, key.version < m.nextVersion
  fresh : ∀ key ∈ m.pageStore, key.version < m.nextVersion
  snapshot : ∀ id ∈ m.snapshotMappings, id < m.nextSnapshotId

/-- There are few enough snapshots for the reference counts. -/
def FewSnapshots : Prop :=
  m.snapshotMappings.entries.length < 2 ^ 32 - 1

instance (m : StorageSnapshotManager) : Decidable m.FewSnapshots := Nat.decLt ..

variable {m m' m'' : StorageSnapshotManager} {mapping : CoWMapping} {key : PageKey}
  {page page' : Page} {store : AList fun _ : PageKey => Page} {id : SnapshotId} {pageId : PageId}
  {data : Bytes}

/-! ### Counting references -/

theorem mem_pageKeys_iff :
    key ∈ mapping.pageKeys ↔ mapping.pages.lookup key.id = some key.version := by
  rw [CoWMapping.pageKeys, List.mem_map]
  constructor
  · rintro ⟨e, he, rfl⟩
    exact AList.mem_lookup_iff.mpr he
  · intro hlookup
    exact ⟨⟨key.id, key.version⟩, AList.mem_lookup_iff.mp hlookup, rfl⟩

theorem nodup_pageKeys (mapping : CoWMapping) : mapping.pageKeys.Nodup := by
  refine List.Nodup.of_map PageKey.id ?_
  rw [CoWMapping.pageKeys, List.map_map]
  exact mapping.pages.keys_nodup

theorem refs_of_mem (h : key ∈ mapping.pageKeys) : refs key mapping = 1 :=
  if_pos (mem_pageKeys_iff.mp h)

theorem refs_of_notMem (h : key ∉ mapping.pageKeys) : refs key mapping = 0 :=
  if_neg (mt mem_pageKeys_iff.mpr h)

theorem refs_le_one (key : PageKey) (mapping : CoWMapping) : refs key mapping ≤ 1 := by
  rw [refs]
  split
  · exact le_rfl
  · exact Nat.zero_le 1

theorem views_pos (hview : m.IsView mapping) (hkey : key ∈ mapping.pageKeys) : 0 < m.views key := by
  have hrefs := refs_of_mem hkey
  rw [views]
  obtain rfl | ⟨id, hid⟩ := hview
  · omega
  · have hle := AssocMap.le_sum (refs key) hid
    omega

theorem sum_refs_lt (hfew : m.FewSnapshots) (key : PageKey) :
    AssocMap.sum (refs key) m.snapshotMappings < 2 ^ 32 - 1 :=
  lt_of_le_of_lt (AssocMap.sum_le_length (refs_le_one key) m.snapshotMappings) hfew

theorem mem_modifyAll {f : Page → Page} (mapping : CoWMapping) :
    key ∈ AssocMap.modifyAll mapping.pageKeys f store ↔ key ∈ store := by
  rw [← AList.lookup_isSome, ← AList.lookup_isSome,
    AssocMap.lookup_modifyAll (nodup_pageKeys mapping)]
  split
  · rw [Option.isSome_map]
  · rfl

theorem lookup_release (h : (AssocMap.modifyAll mapping.pageKeys releaseRef store).lookup key =
      some page') :
    ∃ page, store.lookup key = some page ∧ page'.data = page.data ∧
      page'.refCount = page.refCount - refs key mapping := by
  rw [AssocMap.lookup_modifyAll (nodup_pageKeys mapping)] at h
  split at h
  · next hmem =>
    obtain ⟨page, hpage, rfl⟩ := Option.map_eq_some_iff.mp h
    refine ⟨page, hpage, ?_, ?_⟩
    · rw [releaseRef]
      split <;> rfl
    · rw [releaseRef, refs_of_mem hmem]
      split
      · rfl
      · omega
  · next hmem => exact ⟨page', h, rfl, by rw [refs_of_notMem hmem, Nat.sub_zero]⟩

theorem lookup_retain (h : (AssocMap.modifyAll mapping.pageKeys retainRef store).lookup key =
      some page') :
    ∃ page, store.lookup key = some page ∧ page'.data = page.data ∧
      (page.refCount + 1 < 2 ^ 32 → page'.refCount = page.refCount + refs key mapping) := by
  rw [AssocMap.lookup_modifyAll (nodup_pageKeys mapping)] at h
  split at h
  · next hmem =>
    obtain ⟨page, hpage, rfl⟩ := Option.map_eq_some_iff.mp h
    refine ⟨page, hpage, rfl, fun hlt => ?_⟩
    rw [refs_of_mem hmem]
    exact Nat.mod_eq_of_lt hlt
  · next hmem => exact ⟨page', h, rfl, fun _ => by rw [refs_of_notMem hmem, Nat.add_zero]⟩

/-! ### The operations keep the counts -/

theorem sound_new (config : SnapshotConfig) : Sound (new config) where
  count := fun _ _ h => by cases h
  stored := by
    rintro mapping (rfl | ⟨id, hid⟩) key hkey
    · cases hkey
    · cases hid
  version := by
    rintro mapping (rfl | ⟨id, hid⟩) key hkey
    · cases hkey
    · cases hid
  fresh := fun _ h => absurd h (AList.notMem_empty _)
  snapshot := fun _ h => absurd h (AList.notMem_empty _)

theorem mem_gcPages (h : key ∈ m.gcPages.1.pageStore) : key ∈ m.pageStore := by
  obtain ⟨page, hpage⟩ := Option.isSome_iff_exists.mp (AList.lookup_isSome.mpr h)
  have hpage : (AssocMap.retainValues (fun page => page.refCount > 0) m.pageStore).lookup key =
    some page := hpage
  rw [AssocMap.lookup_retainValues, Option.filter_eq_some_iff] at hpage
  exact AssocMap.mem_of_lookup hpage.1

/-- **Collection leaves what some view maps to.** -/
theorem Sound.lookup_gcPages (h : Sound m) (hview : m.IsView mapping)
    (hkey : key ∈ mapping.pageKeys) :
    m.gcPages.1.pageStore.lookup key = m.pageStore.lookup key := by
  -- what a view maps to is stored, and counts at least this view
  obtain ⟨page, hpage⟩ := Option.isSome_iff_exists.mp
    (AList.lookup_isSome.mpr (h.stored mapping hview key hkey))
  have hpos := views_pos hview hkey
  rw [← h.count key page hpage] at hpos
  rw [hpage]
  show (AssocMap.retainValues (fun page => page.refCount > 0) m.pageStore).lookup key = some page
  rw [AssocMap.lookup_retainValues, hpage, Option.filter_eq_some_iff]
  exact ⟨rfl, decide_eq_true hpos⟩

theorem Sound.gcPages (h : Sound m) : Sound m.gcPages.1 where
  count := by
    intro key page hpage
    have hpage : (AssocMap.retainValues (fun page => page.refCount > 0) m.pageStore).lookup key =
      some page := hpage
    rw [AssocMap.lookup_retainValues, Option.filter_eq_some_iff] at hpage
    exact h.count key page hpage.1
  stored := by
    intro mapping hview key hkey
    rw [← AList.lookup_isSome, h.lookup_gcPages hview hkey, AList.lookup_isSome]
    exact h.stored mapping hview key hkey
  version := h.version
  fresh := fun key hkey => h.fresh key (mem_gcPages hkey)
  snapshot := h.snapshot

theorem Sound.collect (h : Sound m) (p : Prop) [Decidable p] :
    Sound (if p then m.gcPages.1 else m) := by
  split
  · exact h.gcPages
  · exact h

/-- What a write leaves of the version that the current state has had. -/
theorem lookup_releaseOld (m : StorageSnapshotManager) (pageId : PageId) (key : PageKey) :
    (m.releaseOld pageId).pageStore.lookup key =
      if key.id = pageId ∧ key ∈ m.current.pageKeys then
        ((m.pageStore.lookup key).map fun page =>
          { page with refCount := page.refCount - 1 }).filter fun page => page.refCount > 0
      else m.pageStore.lookup key := by
  unfold releaseOld
  cases hcurrent : m.current.pages.lookup pageId with
  | none =>
    -- there is no version to release
    refine (if_neg ?_).symm
    rintro ⟨rfl, hkey⟩
    rw [mem_pageKeys_iff, hcurrent] at hkey
    cases hkey
  | some oldVersion =>
    dsimp only
    by_cases hkey : key = ⟨pageId, oldVersion⟩
    · subst hkey
      rw [if_pos ⟨rfl, mem_pageKeys_iff.mpr hcurrent⟩]
      cases hold : m.pageStore.lookup ⟨pageId, oldVersion⟩ with
      | none => exact hold
      | some oldPage =>
        rw [Option.map_some, Option.filter_some]
        -- the count that is left is positive exactly when the version is shared
        by_cases hshared : oldPage.refCount > 1
        · have hleft : oldPage.refCount - 1 > 0 := Nat.sub_pos_of_lt hshared
          rw [if_pos (decide_eq_true hleft)]
          dsimp only
          rw [if_pos hshared]
          exact AList.lookup_insert m.pageStore
        · have hnone : ¬(oldPage.refCount - 1 > 0) := by omega
          rw [if_neg (by rwa [decide_eq_true_eq])]
          dsimp only
          rw [if_neg hshared]
          exact AList.lookup_erase ..
    · -- any other key is left alone
      have hne : ¬(key.id = pageId ∧ key ∈ m.current.pageKeys) := by
        rintro ⟨rfl, hmem⟩
        rw [mem_pageKeys_iff, hcurrent] at hmem
        exact hkey (by rw [Option.some.inj hmem])
      rw [if_neg hne]
      cases m.pageStore.lookup ⟨pageId, oldVersion⟩ with
      | none => rfl
      | some oldPage =>
        dsimp only
        split
        · exact AList.lookup_insert_ne hkey
        · exact AList.lookup_erase_ne hkey

theorem releaseOld_eq (m : StorageSnapshotManager) (pageId : PageId) :
    ∃ store copies, m.releaseOld pageId =
      { m with pageStore := store, cowCopiesMade := copies } := by
  unfold releaseOld
  split
  · exact ⟨_, _, rfl⟩
  · split
    · exact ⟨_, _, rfl⟩
    · split
      · exact ⟨_, _, rfl⟩
      · exact ⟨_, _, rfl⟩

theorem lookup_writeFresh (m : StorageSnapshotManager) (pageId : PageId) (data : Bytes)
    (newVersion : ℕ) (key : PageKey) :
    (m.writeFresh pageId data newVersion).pageStore.lookup key =
      if key = ⟨pageId, newVersion⟩ then some (.new pageId data newVersion)
      else (m.releaseOld pageId).pageStore.lookup key := by
  by_cases hkey : key = ⟨pageId, newVersion⟩
  · subst hkey
    rw [if_pos rfl]
    exact AList.lookup_insert _
  · rw [if_neg hkey]
    exact AList.lookup_insert_ne hkey

theorem writeFresh_current (m : StorageSnapshotManager) (pageId : PageId) (data : Bytes)
    (newVersion : ℕ) :
    (m.writeFresh pageId data newVersion).current = ⟨m.current.pages.insert pageId newVersion⟩ := by
  obtain ⟨store, copies, heq⟩ := releaseOld_eq m pageId
  rw [writeFresh, heq]

theorem writeFresh_snapshotMappings (m : StorageSnapshotManager) (pageId : PageId) (data : Bytes)
    (newVersion : ℕ) :
    (m.writeFresh pageId data newVersion).snapshotMappings = m.snapshotMappings := by
  obtain ⟨store, copies, heq⟩ := releaseOld_eq m pageId
  rw [writeFresh, heq]

theorem writeFresh_nextVersion (m : StorageSnapshotManager) (pageId : PageId) (data : Bytes)
    (newVersion : ℕ) : (m.writeFresh pageId data newVersion).nextVersion = m.nextVersion := by
  obtain ⟨store, copies, heq⟩ := releaseOld_eq m pageId
  rw [writeFresh, heq]

theorem writeFresh_nextSnapshotId (m : StorageSnapshotManager) (pageId : PageId) (data : Bytes)
    (newVersion : ℕ) :
    (m.writeFresh pageId data newVersion).nextSnapshotId = m.nextSnapshotId := by
  obtain ⟨store, copies, heq⟩ := releaseOld_eq m pageId
  rw [writeFresh, heq]

theorem mem_pageKeys_insert {version : ℕ} :
    key ∈ CoWMapping.pageKeys ⟨mapping.pages.insert pageId version⟩ ↔
      key = ⟨pageId, version⟩ ∨ key.id ≠ pageId ∧ key ∈ mapping.pageKeys := by
  rw [mem_pageKeys_iff, mem_pageKeys_iff, AssocMap.lookup_insert_eq_some]
  refine or_congr_left ⟨?_, ?_⟩
  · rintro ⟨rfl, rfl⟩
    rfl
  · rintro rfl
    exact ⟨rfl, rfl⟩

/-- `write_page`, with a collection before it if there is no room. -/
theorem writePage_cases (m : StorageSnapshotManager) (pageId : PageId) (data : Bytes) :
    ∃ m₁, (m₁ = m ∨ m₁ = m.gcPages.1) ∧
      (m.writePage pageId data =
          ({ m₁ with nextVersion := m₁.nextVersion + 1 }, .error .maxPagesExceeded) ∨
        m.writePage pageId data =
          (({ m₁ with nextVersion := m₁.nextVersion + 1 }).writeFresh pageId data m₁.nextVersion,
            .ok m₁.nextVersion)) := by
  unfold writePage
  dsimp only
  -- without a collection the second look finds the same room
  by_cases hfull : m.pageStore.entries.length ≥ m.config.maxPages
  · rw [if_pos hfull]
    refine ⟨m.gcPages.1, .inr rfl, ?_⟩
    split
    · exact .inl rfl
    · exact .inr rfl
  · rw [if_neg hfull, if_neg hfull]
    exact ⟨m, .inl rfl, .inr rfl⟩

theorem Sound.skipVersion (h : Sound m) :
    Sound { m with nextVersion := m.nextVersion + 1 } where
  count := h.count
  stored := h.stored
  version := fun mapping hview key hkey => Nat.lt_succ_of_lt (h.version mapping hview key hkey)
  fresh := fun key hkey => Nat.lt_succ_of_lt (h.fresh key hkey)
  snapshot := h.snapshot

theorem Sound.notMem_of_fresh (h : Sound m) (hview : m.IsView mapping) :
    ⟨pageId, m.nextVersion⟩ ∉ mapping.pageKeys :=
  fun hkey => lt_irrefl _ (h.version mapping hview _ hkey)

theorem sum_refs_eq_zero
    (h : ∀ id mapping, m.snapshotMappings.lookup id = some mapping → key ∉ mapping.pageKeys) :
    AssocMap.sum (refs key) m.snapshotMappings = 0 := by
  rw [AssocMap.sum, List.sum_eq_zero]
  intro n hn
  obtain ⟨e, he, rfl⟩ := List.mem_map.mp hn
  exact refs_of_notMem (h e.1 e.2 (AList.mem_lookup_iff.mpr he))

theorem refs_insert (key : PageKey) (mapping : CoWMapping) (pageId : PageId) (version : ℕ) :
    refs key ⟨mapping.pages.insert pageId version⟩ =
      if key = ⟨pageId, version⟩ then 1
      else refs key mapping - if key.id = pageId ∧ key ∈ mapping.pageKeys then 1 else 0 := by
  by_cases hkey : key = ⟨pageId, version⟩
  · rw [if_pos hkey]
    exact refs_of_mem (mem_pageKeys_insert.mpr (.inl hkey))
  · rw [if_neg hkey]
    by_cases hmem : key ∈ mapping.pageKeys
    · by_cases hid : key.id = pageId
      · rw [if_pos ⟨hid, hmem⟩, refs_of_mem hmem]
        refine refs_of_notMem fun h => ?_
        obtain h | h := mem_pageKeys_insert.mp h
        · exact hkey h
        · exact h.1 hid
      · rw [if_neg (fun h => hid h.1), refs_of_mem hmem]
        exact refs_of_mem (mem_pageKeys_insert.mpr (.inr ⟨hid, hmem⟩))
    · rw [if_neg (fun h => hmem h.2), refs_of_notMem hmem]
      refine refs_of_notMem fun h => ?_
      obtain h | h := mem_pageKeys_insert.mp h
      · exact hkey h
      · exact hmem h.2

/-- The fresh version has the current state for its only view; the version before it has one view
less. -/
theorem Sound.count_writeFresh (h : Sound m) (pageId : PageId) (data : Bytes) (key : PageKey)
    (page : Page)
    (hpage : (({ m with nextVersion := m.nextVersion + 1 }).writeFresh pageId data
      m.nextVersion).pageStore.lookup key = some page) :
    page.refCount =
      (({ m with nextVersion := m.nextVersion + 1 }).writeFresh pageId data m.nextVersion).views
        key := by
  rw [lookup_writeFresh, lookup_releaseOld] at hpage
  rw [views, writeFresh_current, writeFresh_snapshotMappings]
  show _ = refs key ⟨m.current.pages.insert pageId m.nextVersion⟩ +
    AssocMap.sum (refs key) m.snapshotMappings
  rw [refs_insert]
  split at hpage
  · next hkey =>
    -- the fresh version, which no snapshot maps to
    subst hkey
    obtain rfl := Option.some.inj hpage
    rw [if_pos rfl, sum_refs_eq_zero fun id mapping hid => h.notMem_of_fresh (.inr ⟨id, hid⟩)]
    rfl
  · next hkey =>
    rw [if_neg hkey]
    split at hpage
    · next hold =>
      -- the version before it, which has been released
      have hold : key.id = pageId ∧ key ∈ m.current.pageKeys := hold
      obtain ⟨hpage, -⟩ := Option.filter_eq_some_iff.mp hpage
      obtain ⟨before, hbefore, rfl⟩ := Option.map_eq_some_iff.mp hpage
      have hcount := h.count key before hbefore
      have hone := refs_of_mem hold.2
      rw [views] at hcount
      rw [if_pos hold]
      show before.refCount - 1 = _
      omega
    · next hold =>
      have hold : ¬(key.id = pageId ∧ key ∈ m.current.pageKeys) := hold
      rw [if_neg hold]
      exact h.count key page hpage

/-- A version that is released is kept as long as a snapshot maps to it. -/
theorem Sound.isSome_releaseOld (h : Sound m) (hid : m.snapshotMappings.lookup id = some mapping)
    (hkey : key ∈ mapping.pageKeys) (pageId : PageId) :
    ((m.releaseOld pageId).pageStore.lookup key).isSome := by
  have hmem := h.stored mapping (.inr ⟨id, hid⟩) key hkey
  obtain ⟨page, hpage⟩ := Option.isSome_iff_exists.mp (AList.lookup_isSome.mpr hmem)
  rw [lookup_releaseOld, hpage]
  split
  · next hold =>
    -- the current state and the snapshot make two views
    have hcount := h.count key page hpage
    have hcurrent := refs_of_mem hold.2
    have hsnapshot := AssocMap.le_sum (refs key) hid
    rw [refs_of_mem hkey] at hsnapshot
    have hshared : page.refCount - 1 > 0 := by
      rw [hcount, views]
      omega
    rw [Option.map_some, Option.filter_some, if_pos (decide_eq_true hshared)]
    rfl
  · rfl

theorem Sound.stored_writeFresh (h : Sound m) (pageId : PageId) (data : Bytes)
    (mapping : CoWMapping)
    (hview : (({ m with nextVersion := m.nextVersion + 1 }).writeFresh pageId data
      m.nextVersion).IsView mapping) (key : PageKey) (hkey : key ∈ mapping.pageKeys) :
    key ∈ (({ m with nextVersion := m.nextVersion + 1 }).writeFresh pageId data
      m.nextVersion).pageStore := by
  have hadvance : Sound { m with nextVersion := m.nextVersion + 1 } := h.skipVersion
  rw [← AList.lookup_isSome, lookup_writeFresh]
  split
  · rfl
  next hne =>
  obtain rfl | ⟨id, hid⟩ := hview
  · -- the current state: another page, whose version stays
    rw [writeFresh_current] at hkey
    obtain hkey | ⟨hid, hkey⟩ := mem_pageKeys_insert.mp hkey
    · exact absurd hkey hne
    · rw [lookup_releaseOld, if_neg fun hold => hid hold.1]
      exact AList.lookup_isSome.mpr (h.stored m.current (.inl rfl) key hkey)
  · rw [writeFresh_snapshotMappings] at hid
    exact hadvance.isSome_releaseOld hid hkey pageId

/-- A write releases the version before it, and stores a fresh one with one reference. -/
theorem Sound.writeFresh (h : Sound m) (pageId : PageId) (data : Bytes) :
    Sound (({ m with nextVersion := m.nextVersion + 1 }).writeFresh pageId data m.nextVersion) := by
  constructor
  case count => exact h.count_writeFresh pageId data
  case stored => exact h.stored_writeFresh pageId data
  case version =>
    intro mapping hview key hkey
    rw [writeFresh_nextVersion]
    show key.version < m.nextVersion + 1
    obtain rfl | ⟨id, hid⟩ := hview
    · rw [writeFresh_current] at hkey
      -- the new key has the version that was given out last
      obtain rfl | ⟨-, hkey⟩ := mem_pageKeys_insert.mp hkey
      · exact Nat.lt_succ_self _
      · exact Nat.lt_succ_of_lt (h.version m.current (.inl rfl) key hkey)
    · rw [writeFresh_snapshotMappings] at hid
      exact Nat.lt_succ_of_lt (h.version mapping (.inr ⟨id, hid⟩) key hkey)
  case fresh =>
    intro key hkey
    rw [writeFresh_nextVersion]
    show key.version < m.nextVersion + 1
    rw [← AList.lookup_isSome, lookup_writeFresh, lookup_releaseOld] at hkey
    split at hkey
    · next hkey' =>
      rw [hkey']
      exact Nat.lt_succ_self _
    · -- any other key has been stored before
      refine Nat.lt_succ_of_lt (h.fresh key (AList.lookup_isSome.mp ?_))
      split at hkey
      · obtain ⟨page, hpage⟩ := Option.isSome_iff_exists.mp hkey
        obtain ⟨before, hbefore, -⟩ :=
          Option.map_eq_some_iff.mp (Option.filter_eq_some_iff.mp hpage).1
        exact Option.isSome_iff_exists.mpr ⟨before, hbefore⟩
      · exact hkey
  case snapshot =>
    intro id hid
    rw [writeFresh_snapshotMappings] at hid
    rw [writeFresh_nextSnapshotId]
    exact h.snapshot id hid

theorem Sound.writePage (h : Sound m) (pageId : PageId) (data : Bytes) :
    Sound (m.writePage pageId data).1 := by
  obtain ⟨m₁, hm₁, hwrite⟩ := writePage_cases m pageId data
  have h₁ : Sound m₁ := by
    obtain rfl | rfl := hm₁
    · exact h
    · exact h.gcPages
  obtain hwrite | hwrite := hwrite
  · rw [hwrite]
    exact h₁.skipVersion
  · rw [hwrite]
    exact h₁.writeFresh pageId data

theorem createSnapshot_cases (m : StorageSnapshotManager) (name : String) (tags : List String)
    (currentTs : ℕ) (parent : Option SnapshotId) :
    (∃ e, m.createSnapshot name tags currentTs parent = (m, .error e)) ∨
      ∃ metadata order, m.createSnapshot name tags currentTs parent =
        ({ m with
            nextSnapshotId := m.nextSnapshotId + 1
            pageStore := AssocMap.modifyAll m.current.pageKeys retainRef m.pageStore
            snapshotMeta := metadata
            snapshotMappings := m.snapshotMappings.insert m.nextSnapshotId m.current
            snapshotOrder := order },
          .ok m.nextSnapshotId) := by
  unfold createSnapshot
  split
  · exact .inl ⟨_, rfl⟩
  · split
    · exact .inl ⟨_, rfl⟩
    · exact .inr ⟨_, _, rfl⟩

theorem Sound.lookup_nextSnapshotId (h : Sound m) :
    m.snapshotMappings.lookup m.nextSnapshotId = none :=
  AList.lookup_eq_none.mpr fun hmem => lt_irrefl _ (h.snapshot _ hmem)

theorem Sound.createSnapshot (h : Sound m) (name : String) (tags : List String) (currentTs : ℕ)
    (parent : Option SnapshotId)
    (hfew : (m.createSnapshot name tags currentTs parent).1.FewSnapshots) :
    Sound (m.createSnapshot name tags currentTs parent).1 := by
  obtain ⟨e, heq⟩ | ⟨metadata, order, heq⟩ := createSnapshot_cases m name tags currentTs parent
  · rw [heq]
    exact h
  rw [heq] at hfew ⊢
  -- the identifier is new, so nothing is overwritten
  have herase : m.snapshotMappings.erase m.nextSnapshotId = m.snapshotMappings :=
    AssocMap.erase_of_lookup_eq_none h.lookup_nextSnapshotId
  have hlength :
      (m.snapshotMappings.insert m.nextSnapshotId m.current).entries.length < 2 ^ 32 - 1 := hfew
  rw [AssocMap.length_insert, herase] at hlength
  -- the views are those that there have been
  have hviews : ∀ mapping, IsView { m with
      snapshotMappings := m.snapshotMappings.insert m.nextSnapshotId m.current } mapping →
      m.IsView mapping := by
    rintro mapping (rfl | ⟨id, hid⟩)
    · exact .inl rfl
    · obtain ⟨-, rfl⟩ | ⟨-, hid⟩ := AssocMap.lookup_insert_eq_some.mp hid
      · exact .inl rfl
      · exact .inr ⟨id, hid⟩
  constructor
  case count =>
    intro key page' hpage'
    obtain ⟨page, hpage, -, hretain⟩ := lookup_retain hpage'
    have hcount := h.count key page hpage
    -- with few snapshots, one more reference does not wrap the count around
    have hone := refs_le_one key m.current
    have hsum := AssocMap.sum_le_length (refs_le_one key) m.snapshotMappings
    rw [views] at hcount
    rw [hretain (by omega)]
    show _ = refs key m.current +
      AssocMap.sum (refs key) (m.snapshotMappings.insert m.nextSnapshotId m.current)
    rw [AssocMap.sum_insert, herase]
    omega
  case stored =>
    exact fun mapping hview key hkey =>
      (mem_modifyAll m.current).mpr (h.stored mapping (hviews mapping hview) key hkey)
  case version =>
    exact fun mapping hview key hkey => h.version mapping (hviews mapping hview) key hkey
  case fresh => exact fun key hkey => h.fresh key ((mem_modifyAll m.current).mp hkey)
  case snapshot =>
    intro id hid
    show id < m.nextSnapshotId + 1
    obtain rfl | hid := (AList.mem_insert _).mp hid
    · exact Nat.lt_succ_self _
    · exact Nat.lt_succ_of_lt (h.snapshot id hid)

theorem Sound.deleteSnapshot (h : Sound m) (id : SnapshotId) : Sound (m.deleteSnapshot id).1 := by
  unfold StorageSnapshotManager.deleteSnapshot
  split
  · exact h
  next mapping hmapping =>
  refine Sound.collect ?_ _
  have hviews : ∀ mapping,
      IsView { m with snapshotMappings := m.snapshotMappings.erase id } mapping →
      m.IsView mapping := by
    rintro mapping (rfl | ⟨id', hid'⟩)
    · exact .inl rfl
    · exact .inr ⟨id', AssocMap.lookup_of_lookup_erase hid'⟩
  constructor
  case count =>
    intro key page' hpage'
    obtain ⟨page, hpage, -, hrelease⟩ := lookup_release hpage'
    have hcount := h.count key page hpage
    -- the snapshot was one of the views that have been counted
    rw [views, AssocMap.sum_erase (refs key) hmapping] at hcount
    rw [hrelease]
    show _ = refs key m.current + AssocMap.sum (refs key) (m.snapshotMappings.erase id)
    omega
  case stored =>
    exact fun mapping' hview key hkey =>
      (mem_modifyAll mapping).mpr (h.stored mapping' (hviews mapping' hview) key hkey)
  case version =>
    exact fun mapping' hview key hkey => h.version mapping' (hviews mapping' hview) key hkey
  case fresh => exact fun key hkey => h.fresh key ((mem_modifyAll mapping).mp hkey)
  case snapshot => exact fun id' hid' => h.snapshot id' (AList.mem_erase.mp hid').2

theorem Sound.restoreSnapshot (h : Sound m) (hfew : m.FewSnapshots) (id : SnapshotId) :
    Sound (m.restoreSnapshot id).1 := by
  unfold StorageSnapshotManager.restoreSnapshot
  split
  · exact h
  next snapMapping hmapping =>
  refine Sound.collect ?_ _
  have hviews : ∀ mapping, IsView { m with current := snapMapping } mapping → m.IsView mapping := by
    rintro mapping (rfl | ⟨id', hid'⟩)
    · exact .inr ⟨id, hmapping⟩
    · exact .inr ⟨id', hid'⟩
  constructor
  case count =>
    intro key page' hpage'
    -- one view is exchanged for another one, and in between the count is smaller
    obtain ⟨between, hbetween, -, hretain⟩ := lookup_retain hpage'
    obtain ⟨page, hpage, -, hrelease⟩ := lookup_release hbetween
    have hcount := h.count key page hpage
    have hsum := sum_refs_lt hfew key
    rw [views] at hcount
    rw [hretain (by omega), hrelease]
    show _ = refs key snapMapping + AssocMap.sum (refs key) m.snapshotMappings
    omega
  case stored =>
    exact fun mapping hview key hkey => (mem_modifyAll snapMapping).mpr
      ((mem_modifyAll m.current).mpr (h.stored mapping (hviews mapping hview) key hkey))
  case version =>
    exact fun mapping hview key hkey => h.version mapping (hviews mapping hview) key hkey
  case fresh =>
    exact fun key hkey =>
      h.fresh key ((mem_modifyAll m.current).mp ((mem_modifyAll snapMapping).mp hkey))
  case snapshot => exact h.snapshot

variable {a : Act} {e : SnapshotError} {name : String} {tags : List String} {currentTs : ℕ}
  {parent : Option SnapshotId} {acts : List Act}

/-- **Every operation keeps the counts.** -/
theorem Sound.perform (h : Sound m) (hfew : m.FewSnapshots) (hfew' : (m.perform a).1.FewSnapshots) :
    Sound (m.perform a).1 := by
  cases a with
  | writePage pageId data => exact h.writePage pageId data
  | createSnapshot name tags currentTs parent =>
    exact h.createSnapshot name tags currentTs parent hfew'
  | deleteSnapshot id => exact h.deleteSnapshot id
  | restoreSnapshot id => exact h.restoreSnapshot hfew id
  | gcPages => exact h.gcPages

theorem run_append (m : StorageSnapshotManager) (acts acts' : List Act) :
    m.run (acts ++ acts') = (m.run acts).run acts' :=
  List.foldl_append ..

theorem Sound.run (h : Sound m) (acts : List Act)
    (hfew : ∀ before after, acts = before ++ after → (m.run before).FewSnapshots) :
    Sound (m.run acts) := by
  -- from the back: an operation needs few snapshots before and after it
  induction acts using List.reverseRecOn with
  | nil => exact h
  | append_singleton acts a ih =>
    have hsound := ih fun before after hacts =>
      hfew before (after ++ [a]) (by rw [hacts, List.append_assoc])
    rw [run_append]
    refine hsound.perform (hfew acts [a] rfl) ?_
    have hlast := hfew (acts ++ [a]) [] (List.append_nil _).symm
    rwa [run_append] at hlast

/-! ### What the operations preserve -/

/-- What an operation does not change: the bytes of the versions that there have been, and the
mappings of the snapshots that there have been. -/
structure Preserves (m m' : StorageSnapshotManager) : Prop where
  data : ∀ key page', key.version < m.nextVersion → m'.pageStore.lookup key = some page' →
    ∃ page, m.pageStore.lookup key = some page ∧ page'.data = page.data
  mapping : ∀ id mapping, id < m.nextSnapshotId → m'.snapshotMappings.lookup id = some mapping →
    m.snapshotMappings.lookup id = some mapping
  nextVersion : m.nextVersion ≤ m'.nextVersion
  nextSnapshotId : m.nextSnapshotId ≤ m'.nextSnapshotId

theorem Preserves.refl (m : StorageSnapshotManager) : Preserves m m where
  data := fun _ page' _ h => ⟨page', h, rfl⟩
  mapping := fun _ _ _ h => h
  nextVersion := le_rfl
  nextSnapshotId := le_rfl

theorem Preserves.trans (h : Preserves m m') (h' : Preserves m' m'') : Preserves m m'' where
  data := by
    intro key page'' hversion hpage''
    obtain ⟨page', hpage', hdata'⟩ :=
      h'.data key page'' (lt_of_lt_of_le hversion h.nextVersion) hpage''
    obtain ⟨page, hpage, hdata⟩ := h.data key page' hversion hpage'
    exact ⟨page, hpage, hdata'.trans hdata⟩
  mapping := fun id mapping hid hmapping => h.mapping id mapping hid
    (h'.mapping id mapping (lt_of_lt_of_le hid h.nextSnapshotId) hmapping)
  nextVersion := h.nextVersion.trans h'.nextVersion
  nextSnapshotId := h.nextSnapshotId.trans h'.nextSnapshotId

theorem preserves_gcPages (m : StorageSnapshotManager) : Preserves m m.gcPages.1 where
  data := by
    intro key page' _ hpage'
    have hpage' : (AssocMap.retainValues (fun page => page.refCount > 0) m.pageStore).lookup key =
      some page' := hpage'
    rw [AssocMap.lookup_retainValues, Option.filter_eq_some_iff] at hpage'
    exact ⟨page', hpage'.1, rfl⟩
  mapping := fun _ _ _ h => h
  nextVersion := le_rfl
  nextSnapshotId := le_rfl

theorem Preserves.collect (h : Preserves m m') (p : Prop) [Decidable p] :
    Preserves m (if p then m'.gcPages.1 else m') := by
  split
  · exact h.trans (preserves_gcPages m')
  · exact h

theorem preserves_writeFresh (m : StorageSnapshotManager) (pageId : PageId) (data : Bytes) :
    Preserves m
      (({ m with nextVersion := m.nextVersion + 1 }).writeFresh pageId data m.nextVersion) where
  data := by
    intro key page' hversion hpage'
    rw [lookup_writeFresh, lookup_releaseOld] at hpage'
    split at hpage'
    · next hkey =>
      subst hkey
      -- the fresh version is none that there has been
      exact absurd hversion (lt_irrefl _)
    · split at hpage'
      · obtain ⟨page, hpage, rfl⟩ :=
          Option.map_eq_some_iff.mp (Option.filter_eq_some_iff.mp hpage').1
        exact ⟨page, hpage, rfl⟩
      · exact ⟨page', hpage', rfl⟩
  mapping := by
    intro id mapping _ hmapping
    rwa [writeFresh_snapshotMappings] at hmapping
  nextVersion := by
    rw [writeFresh_nextVersion]
    exact Nat.le_succ _
  nextSnapshotId := by rw [writeFresh_nextSnapshotId]

theorem preserves_writePage (m : StorageSnapshotManager) (pageId : PageId) (data : Bytes) :
    Preserves m (m.writePage pageId data).1 := by
  obtain ⟨m₁, hm₁, hwrite⟩ := writePage_cases m pageId data
  have h₁ : Preserves m m₁ := by
    obtain rfl | rfl := hm₁
    · exact Preserves.refl m₁
    · exact preserves_gcPages m
  obtain hwrite | hwrite := hwrite
  · rw [hwrite]
    exact { h₁ with nextVersion := Nat.le_succ_of_le h₁.nextVersion }
  · rw [hwrite]
    exact h₁.trans (preserves_writeFresh m₁ pageId data)

theorem preserves_createSnapshot (m : StorageSnapshotManager) (name : String) (tags : List String)
    (currentTs : ℕ) (parent : Option SnapshotId) :
    Preserves m (m.createSnapshot name tags currentTs parent).1 := by
  obtain ⟨e, heq⟩ | ⟨metadata, order, heq⟩ := createSnapshot_cases m name tags currentTs parent
  · rw [heq]
    exact Preserves.refl m
  rw [heq]
  refine ⟨?_, ?_, le_rfl, Nat.le_succ _⟩
  · intro key page' _ hpage'
    obtain ⟨page, hpage, hdata, -⟩ := lookup_retain hpage'
    exact ⟨page, hpage, hdata⟩
  · intro id mapping hid hmapping
    obtain ⟨rfl, -⟩ | ⟨-, hmapping⟩ := AssocMap.lookup_insert_eq_some.mp hmapping
    · exact absurd hid (lt_irrefl _)
    · exact hmapping

theorem preserves_deleteSnapshot (m : StorageSnapshotManager) (id : SnapshotId) :
    Preserves m (m.deleteSnapshot id).1 := by
  unfold deleteSnapshot
  split
  · exact Preserves.refl m
  refine Preserves.collect ?_ _
  refine ⟨?_, ?_, le_rfl, le_rfl⟩
  · intro key page' _ hpage'
    obtain ⟨page, hpage, hdata, -⟩ := lookup_release hpage'
    exact ⟨page, hpage, hdata⟩
  · exact fun id' mapping _ hmapping => AssocMap.lookup_of_lookup_erase hmapping

theorem preserves_restoreSnapshot (m : StorageSnapshotManager) (id : SnapshotId) :
    Preserves m (m.restoreSnapshot id).1 := by
  unfold restoreSnapshot
  split
  · exact Preserves.refl m
  refine Preserves.collect ?_ _
  refine ⟨?_, fun _ _ _ h => h, le_rfl, le_rfl⟩
  intro key page' _ hpage'
  obtain ⟨between, hbetween, hdata', -⟩ := lookup_retain hpage'
  obtain ⟨page, hpage, hdata, -⟩ := lookup_release hbetween
  exact ⟨page, hpage, hdata'.trans hdata⟩

/-- **No operation changes what a view has seen.** -/
theorem preserves_perform (m : StorageSnapshotManager) (a : Act) : Preserves m (m.perform a).1 := by
  cases a with
  | writePage pageId data => exact preserves_writePage m pageId data
  | createSnapshot name tags currentTs parent =>
    exact preserves_createSnapshot m name tags currentTs parent
  | deleteSnapshot id => exact preserves_deleteSnapshot m id
  | restoreSnapshot id => exact preserves_restoreSnapshot m id
  | gcPages => exact preserves_gcPages m

theorem preserves_run (m : StorageSnapshotManager) (acts : List Act) :
    Preserves m (m.run acts) := by
  induction acts generalizing m with
  | nil => exact Preserves.refl m
  | cons a acts ih => exact (preserves_perform m a).trans (ih (m.perform a).1)

/-! ### Reading -/

/-- **A mapping reads the same bytes wherever it is a view.** -/
theorem Preserves.readView (h : Preserves m m') (hsound : Sound m) (hsound' : Sound m')
    (hview : m.IsView mapping) (hview' : m'.IsView mapping) (pageId : PageId) :
    (m'.readView mapping pageId).map Page.data = (m.readView mapping pageId).map Page.data := by
  unfold StorageSnapshotManager.readView
  cases hversion : mapping.pages.lookup pageId with
  | none => rfl
  | some version =>
    have hkey : (⟨pageId, version⟩ : PageKey) ∈ mapping.pageKeys := mem_pageKeys_iff.mpr hversion
    -- the later state still stores the version, and its bytes are the ones from before
    obtain ⟨page', hpage'⟩ := Option.isSome_iff_exists.mp
      (AList.lookup_isSome.mpr (hsound'.stored mapping hview' _ hkey))
    obtain ⟨page, hpage, hdata⟩ :=
      h.data _ page' (hsound.version mapping hview _ hkey) hpage'
    dsimp only
    rw [hpage', hpage]
    exact congrArg Except.ok hdata

/-- What is mapped, and what is read under it, is as before. -/
structure SameViews (m m' : StorageSnapshotManager) : Prop where
  current : m'.current = m.current
  snapshotMappings : m'.snapshotMappings = m.snapshotMappings
  readView : ∀ mapping, m.IsView mapping → m'.readView mapping = m.readView mapping

theorem SameViews.refl (m : StorageSnapshotManager) : SameViews m m where
  current := rfl
  snapshotMappings := rfl
  readView := fun _ _ => rfl

theorem Sound.sameViews_gcPages (h : Sound m) : SameViews m m.gcPages.1 where
  current := rfl
  snapshotMappings := rfl
  readView := by
    intro mapping hview
    funext pageId
    unfold StorageSnapshotManager.readView
    cases hversion : mapping.pages.lookup pageId with
    | none => rfl
    | some version =>
      have hkey : (⟨pageId, version⟩ : PageKey) ∈ mapping.pageKeys := mem_pageKeys_iff.mpr hversion
      have hcollect := h.lookup_gcPages hview hkey
      dsimp only
      rw [hcollect]

theorem deleteSnapshot_of_error (h : (m.deleteSnapshot id).2 = .error e) :
    (m.deleteSnapshot id).1 = m := by
  unfold deleteSnapshot at h ⊢
  split at h
  · rfl
  · cases h

theorem restoreSnapshot_of_error (h : (m.restoreSnapshot id).2 = .error e) :
    (m.restoreSnapshot id).1 = m := by
  unfold restoreSnapshot at h ⊢
  split at h
  · rfl
  · cases h

/-- **An operation that fails changes no view.** -/
theorem Sound.sameViews_of_error (h : Sound m) (ha : (m.perform a).2 = .error e) :
    SameViews m (m.perform a).1 := by
  cases a with
  | writePage pageId data =>
    obtain ⟨m₁, hm₁, hwrite | hwrite⟩ := writePage_cases m pageId data
    · -- no room: a version is used up, and there may have been a collection
      show SameViews m (m.writePage pageId data).1
      rw [hwrite]
      obtain rfl | rfl := hm₁
      · exact { SameViews.refl m₁ with }
      · exact { h.sameViews_gcPages with }
    · have ha : (m.writePage pageId data).2.map (fun _ => ()) = .error e := ha
      rw [hwrite] at ha
      cases ha
  | createSnapshot name tags currentTs parent =>
    obtain ⟨e, heq⟩ | ⟨metadata, order, heq⟩ := createSnapshot_cases m name tags currentTs parent
    · show SameViews m (m.createSnapshot name tags currentTs parent).1
      rw [heq]
      exact SameViews.refl m
    · have ha : (m.createSnapshot name tags currentTs parent).2.map (fun _ => ()) = .error e := ha
      rw [heq] at ha
      cases ha
  | deleteSnapshot id =>
    show SameViews m (m.deleteSnapshot id).1
    rw [deleteSnapshot_of_error ha]
    exact SameViews.refl m
  | restoreSnapshot id =>
    show SameViews m (m.restoreSnapshot id).1
    rw [restoreSnapshot_of_error ha]
    exact SameViews.refl m
  | gcPages => cases ha

/-! ### Isolation -/

/-- A snapshot that is left has the mapping of the state that it was made of. -/
theorem lookup_run_createSnapshot
    (hcreate : (m.createSnapshot name tags currentTs parent).2 = .ok id)
    (hlive : id ∈ (m.run (.createSnapshot name tags currentTs parent :: acts)).snapshotMappings) :
    (m.run (.createSnapshot name tags currentTs parent :: acts)).snapshotMappings.lookup id =
      some m.current := by
  obtain ⟨mapping, hmapping⟩ := Option.isSome_iff_exists.mp (AList.lookup_isSome.mpr hlive)
  obtain ⟨e, heq⟩ | ⟨metadata, order, heq⟩ := createSnapshot_cases m name tags currentTs parent
  · rw [heq] at hcreate
    cases hcreate
  · rw [heq] at hcreate
    obtain rfl := Except.ok.inj hcreate
    have hrun : Preserves (m.createSnapshot name tags currentTs parent).1
        (m.run (.createSnapshot name tags currentTs parent :: acts)) :=
      preserves_run (m.createSnapshot name tags currentTs parent).1 acts
    rw [heq] at hrun
    -- the rest of the run has not made the mapping, so it is that of the snapshot
    have hnew : (m.snapshotMappings.insert m.nextSnapshotId m.current).lookup m.nextSnapshotId =
        some mapping :=
      hrun.mapping m.nextSnapshotId mapping (Nat.lt_succ_self _) hmapping
    rw [hmapping, ← hnew, AList.lookup_insert]

/-- A snapshot reads what the current state has read when it was made. -/
theorem Sound.read_of_createSnapshot (h : Sound m)
    (h' : Sound (m.run (.createSnapshot name tags currentTs parent :: acts)))
    (hcreate : (m.createSnapshot name tags currentTs parent).2 = .ok id)
    (hlive : id ∈ (m.run (.createSnapshot name tags currentTs parent :: acts)).snapshotMappings)
    (pageId : PageId) :
    ((m.run (.createSnapshot name tags currentTs parent :: acts)).readPageFromSnapshot id
        pageId).map Page.data =
      (m.readPage pageId).map Page.data := by
  have hmapping := lookup_run_createSnapshot hcreate hlive
  have hread := (preserves_run m (.createSnapshot name tags currentTs parent :: acts)).readView h h'
    (.inl rfl) (.inr ⟨id, hmapping⟩) pageId
  rw [readPageFromSnapshot, hmapping]
  exact hread

theorem Sound.read_of_restoreSnapshot (h : Sound m) (hfew : m.FewSnapshots)
    (hrestore : (m.restoreSnapshot id).2 = .ok ()) (pageId : PageId) :
    ((m.restoreSnapshot id).1.readPage pageId).map Page.data =
        (m.readPageFromSnapshot id pageId).map Page.data ∧
      (m.restoreSnapshot id).1.readPage pageId =
        (m.restoreSnapshot id).1.readPageFromSnapshot id pageId := by
  cases hmapping : m.snapshotMappings.lookup id with
  | none =>
    unfold StorageSnapshotManager.restoreSnapshot at hrestore
    rw [hmapping] at hrestore
    cases hrestore
  | some mapping =>
    have hcurrent : (m.restoreSnapshot id).1.current = mapping ∧
        (m.restoreSnapshot id).1.snapshotMappings = m.snapshotMappings := by
      unfold StorageSnapshotManager.restoreSnapshot
      rw [hmapping]
      dsimp only
      split
      · exact ⟨rfl, rfl⟩
      · exact ⟨rfl, rfl⟩
    have hread := (preserves_restoreSnapshot m id).readView h (h.restoreSnapshot hfew id)
      (.inr ⟨id, hmapping⟩) (.inl hcurrent.1.symm) pageId
    rw [readPage, readPageFromSnapshot, readPageFromSnapshot, hcurrent.1, hcurrent.2, hmapping]
    exact ⟨hread, rfl⟩

/-- **Snapshot isolation**, in every run: a version counts the views that map to it and what is
mapped is stored; a snapshot reads the bytes that the current state had when it was made; to restore
one is to read it; and an operation that fails changes no view. -/
theorem isolation (config : SnapshotConfig) (acts : List Act)
    (hfew : ∀ before after, acts = before ++ after → ((new config).run before).FewSnapshots) :
    (∀ key page, ((new config).run acts).pageStore.lookup key = some page →
        page.refCount = ((new config).run acts).views key) ∧
      (∀ mapping, ((new config).run acts).IsView mapping → ∀ key ∈ mapping.pageKeys,
        key ∈ ((new config).run acts).pageStore) ∧
      (∀ before name tags currentTs parent after id,
        acts = before ++ .createSnapshot name tags currentTs parent :: after →
        (((new config).run before).createSnapshot name tags currentTs parent).2 = .ok id →
        id ∈ ((new config).run acts).snapshotMappings → ∀ pageId,
        (((new config).run acts).readPageFromSnapshot id pageId).map Page.data =
          (((new config).run before).readPage pageId).map Page.data) ∧
      (∀ id, (((new config).run acts).restoreSnapshot id).2 = .ok () → ∀ pageId,
        ((((new config).run acts).restoreSnapshot id).1.readPage pageId).map Page.data =
            (((new config).run acts).readPageFromSnapshot id pageId).map Page.data ∧
          (((new config).run acts).restoreSnapshot id).1.readPage pageId =
            (((new config).run acts).restoreSnapshot id).1.readPageFromSnapshot id pageId) ∧
      ∀ a e, (((new config).run acts).perform a).2 = .error e →
        SameViews ((new config).run acts) (((new config).run acts).perform a).1 := by
  have hsound := (sound_new config).run acts hfew
  refine ⟨hsound.count, hsound.stored, ?_, ?_, fun a e => hsound.sameViews_of_error⟩
  · intro before name tags currentTs parent after id hacts hcreate hlive pageId
    subst hacts
    -- the state in which the snapshot was taken
    have hbefore : Sound ((new config).run before) :=
      (sound_new config).run before fun before' after' hsplit =>
        hfew before' (after' ++ .createSnapshot name tags currentTs parent :: after)
          (by rw [hsplit, List.append_assoc])
    rw [run_append] at hsound hlive ⊢
    exact hbefore.read_of_createSnapshot hsound hcreate hlive pageId
  · exact fun id hrestore =>
      hsound.read_of_restoreSnapshot (hfew acts [] (List.append_nil acts).symm) hrestore

/-- A page is written, a snapshot is made, and the page is written again. -/
theorem isolation_rewritten :
    (((new ⟨2, 2, false⟩).run [.writePage 7 [1], .createSnapshot "s" [] 0 none,
        .writePage 7 [2]]).readPageFromSnapshot 1 7).map Page.data =
      (((new ⟨2, 2, false⟩).run [.writePage 7 [1]]).readPage 7).map Page.data := by
  have hfew : ∀ before ∈ List.inits [Act.writePage 7 [1], .createSnapshot "s" [] 0 none,
      .writePage 7 [2]], ((new ⟨2, 2, false⟩).run before).FewSnapshots := by decide
  exact (isolation ⟨2, 2, false⟩ _ fun before after h =>
      hfew before ((List.mem_inits _ _).mpr ⟨after, h.symm⟩)).2.2.1
    [.writePage 7 [1]] "s" [] 0 none [.writePage 7 [2]] 1 rfl (by decide) (by decide) 7

end StorageSnapshotManager

end Ipfrs
