import Mathlib.Data.Prod.Lex
import Ipfrs.Lib.StableSort
import Ipfrs.Core.Manifest

/-!
# Content manifests

A manifest lists the blocks of several files (`ipfrs-core/src/manifest.rs`). It has an identity, the
hash of its CIDs in lexicographic order, and a Merkle root over the CIDs in the order of
`(path, chunk_index)`.

The second sort is stable and sees neither the CID nor the size, so entries with one path and one
chunk index come out as they came in.

* `new_orderIndependent` — identity, root and size do not depend on the order of the entries when
  such entries have one CID, and otherwise they do, unless the hash function collides.
* `isCompleteForPath_iff` — what the completeness check of a path stands for.

The difference of two manifests is left out.
-/

namespace Ipfrs.Manifest

open StableSort

/-! ### The source -/

structure ManifestEntry where
  path : String
  cid : String
  sizeBytes : UInt64
  chunkIndex : UInt32
  isFinalChunk : Bool
  deriving DecidableEq, Repr

structure ContentManifest where
  manifestId : String
  entries : List ManifestEntry
  rootCid : String
  totalSizeBytes : UInt64
  createdAtMs : UInt64
  deriving DecidableEq, Repr

/-- The key of the canonical sort: the path first, then the chunk index. -/
def ManifestEntry.canonicalKey (e : ManifestEntry) : Lex (String × ℕ) :=
  toLex (e.path, e.chunkIndex.toNat)

namespace ContentManifest

/-- `ContentManifest::new` at the time `createdAtMs`. The sum of the sizes wraps around, as in a
release build. -/
def new (entries : List ManifestEntry) (createdAtMs : UInt64) : ContentManifest :=
  let entries := sortBy ManifestEntry.canonicalKey entries
  let totalSizeBytes := (entries.map (·.sizeBytes)).foldl (· + ·) 0
  -- the CIDs once more, in their own order
  let sortedCids := sortBy id (entries.map (·.cid))
  let manifestId := fnv1aHex (utf8 (String.join sortedCids))
  let tree := MerkleTree.build (entries.map (·.cid))
  { manifestId, entries, rootCid := tree.root.getD "", totalSizeBytes, createdAtMs }

def getEntriesForPath (m : ContentManifest) (path : String) : List ManifestEntry :=
  m.entries.filter (·.path = path)

def isCompleteForPath (m : ContentManifest) (path : String) : Bool :=
  let pathEntries := m.getEntriesForPath path
  if pathEntries = [] then false
  else
    match pathEntries.filter (·.isFinalChunk) with
    | [final] =>
      let maxIndex := final.chunkIndex
      let expectedCount := maxIndex.toNat + 1
      if pathEntries.length ≠ expectedCount then false
      else
        let indices := pathEntries.map (·.chunkIndex)
        -- every index from 0 to the greatest
        (List.range (maxIndex.toNat + 1)).all fun idx => UInt32.ofNat idx ∈ indices
    | _ => false

end ContentManifest

/-! ### What a root stands for -/

theorem eq_of_map_eq {α β : Type*} {f : α → β} {l l' : List α}
    (hinj : ∀ a ∈ l, ∀ b ∈ l', f a = f b → a = b) (h : l.map f = l'.map f) : l = l' := by
  induction l generalizing l' with
  | nil => exact (List.map_eq_nil_iff.mp h.symm).symm
  | cons a l ih =>
    obtain _ | ⟨b, l'⟩ := l'
    · exact absurd h (by simp)
    obtain ⟨hhead, htail⟩ := List.cons.inj h
    have hrest := ih (fun a ha b hb => hinj a (List.mem_cons_of_mem _ ha) b
      (List.mem_cons_of_mem _ hb)) htail
    rw [hinj a List.mem_cons_self b List.mem_cons_self hhead, hrest]

/-- The hash function does not send a string of one list and another one of the other to the same
hash. -/
def Apart (inputs inputs' : List Bytes) : Prop :=
  ∀ d ∈ inputs, ∀ d' ∈ inputs', fnv1a d = fnv1a d' → d = d'

theorem Apart.mono {a a' b b' : List Bytes} (h : Apart b b') (ha : a ⊆ b) (ha' : a' ⊆ b') :
    Apart a a' :=
  fun d hd d' hd' => h d (ha hd) d' (ha' hd')

theorem eq_of_map_fnv1aHex {inputs inputs' : List Bytes} (hfree : Apart inputs inputs')
    (h : inputs.map fnv1aHex = inputs'.map fnv1aHex) : inputs = inputs' :=
  eq_of_map_eq (fun d hd d' hd' heq => hfree d hd d' hd' (fnv1aHex_inj.mp heq)) h

variable {level level' : List String}

/-- Levels of one length are told apart by what is hashed for the level above. -/
theorem eq_of_levelInputs_eq (hlevel : Hashes level) (hlevel' : Hashes level')
    (hlen : level.length = level'.length) (h : levelInputs level = levelInputs level') :
    level = level' := by
  induction level using nextLevel.induct generalizing level' with
  | case1 left right level ih =>
    obtain _ | ⟨left', _ | ⟨right', level'⟩⟩ := level'
    · exact absurd hlen (by simp)
    · exact absurd hlen (by simp)
    obtain ⟨hpair, hrest⟩ := List.cons.inj h
    -- both halves of a pair have 16 bytes
    have hhalf : (utf8 left).length = (utf8 left').length :=
      (hlevel left (by simp)).trans (hlevel' left' (by simp)).symm
    obtain ⟨hleft, hright⟩ := List.append_inj hpair hhalf
    have htail := ih (fun s hs => hlevel s (by simp [hs])) (fun s hs => hlevel' s (by simp [hs]))
      (by simpa using hlen) hrest
    rw [utf8_injective hleft, utf8_injective hright, htail]
  | case2 last =>
    obtain ⟨last', rfl⟩ := List.length_eq_one_iff.mp hlen.symm
    have hhalf : (utf8 last).length = (utf8 last').length :=
      (hlevel last (by simp)).trans (hlevel' last' (by simp)).symm
    have hpair := (List.cons.inj h).1
    rw [utf8_injective (List.append_inj hpair hhalf).1]
  | case3 => exact (List.length_eq_zero_iff.mp hlen.symm).symm

/-- Down from the top: two levels of one length under the same node are the same. -/
theorem eq_of_topLevel_eq {fuel : ℕ} (hlevel : Hashes level) (hlevel' : Hashes level')
    (hlen : level.length = level'.length)
    (hfree : Apart (inputsAbove fuel level) (inputsAbove fuel level'))
    (h : topLevel fuel level = topLevel fuel level') : level = level' := by
  induction fuel generalizing level level' with
  | zero => exact h
  | succ fuel ih =>
    rw [topLevel, topLevel, ← hlen] at h
    rw [inputsAbove, inputsAbove, ← hlen] at hfree
    by_cases hmany : level.length > 1
    · rw [if_pos hmany, if_pos hmany] at h hfree
      have hup : nextLevel level = nextLevel level' := by
        refine ih (hashes_nextLevel level) (hashes_nextLevel level') ?_ ?_ h
        · rw [length_nextLevel, length_nextLevel, hlen]
        · exact hfree.mono (List.subset_append_right _ _) (List.subset_append_right _ _)
      rw [nextLevel_eq, nextLevel_eq] at hup
      exact eq_of_levelInputs_eq hlevel hlevel' hlen (eq_of_map_fnv1aHex
        (hfree.mono (List.subset_append_left _ _) (List.subset_append_left _ _)) hup)
    · rw [if_neg hmany, if_neg hmany] at h
      exact h

/-- Two lists of one length with the same root, which is empty for the empty list, are the same, if
the hash function keeps what is hashed for them apart. -/
theorem eq_of_rootCid_eq {cids cids' : List String} (hlen : cids.length = cids'.length)
    (hfree : Apart (buildInputs cids) (buildInputs cids'))
    (h : (MerkleTree.build cids).root.getD "" = (MerkleTree.build cids').root.getD "") :
    cids = cids' := by
  by_cases hne : cids = []
  · subst hne
    exact (List.length_eq_zero_iff.mp hlen.symm).symm
  have hne' : cids' ≠ [] := by
    rintro rfl
    exact hne (List.length_eq_zero_iff.mp hlen)
  obtain ⟨r, hr, htop⟩ := exists_root hne
  obtain ⟨r', hr', htop'⟩ := exists_root hne'
  obtain rfl : r = r' := by simpa only [hr, hr', Option.getD_some] using h
  rw [← hlen] at htop'
  rw [buildInputs, buildInputs, ← hlen] at hfree
  -- down from the root, level by level, to the leaves
  have hleaves : MerkleTree.leafHashes cids = MerkleTree.leafHashes cids' :=
    eq_of_topLevel_eq (hashes_leafHashes cids) (hashes_leafHashes cids')
      (by rw [length_leafHashes, length_leafHashes, hlen])
      (hfree.mono (List.subset_append_right _ _) (List.subset_append_right _ _))
      (htop.trans htop'.symm)
  have hinputs : cids.map utf8 = cids'.map utf8 := by
    refine eq_of_map_fnv1aHex
      (hfree.mono (List.subset_append_left _ _) (List.subset_append_left _ _)) ?_
    rw [List.map_map, List.map_map]
    exact hleaves
  exact utf8_injective.list_map hinputs

/-! ### The order of the entries -/

namespace ContentManifest

variable (entries : List ManifestEntry)

/-- The CIDs in the canonical order. -/
def canonicalCids : List String :=
  (sortBy ManifestEntry.canonicalKey entries).map (·.cid)

/-- The parts of a manifest that are derived from its entries agree. -/
structure SameIdentity (m m' : ContentManifest) : Prop where
  manifestId : m.manifestId = m'.manifestId
  rootCid : m.rootCid = m'.rootCid
  totalSizeBytes : m.totalSizeBytes = m'.totalSizeBytes

/-- Every order of the entries gives the same identity, at any time. -/
def OrderIndependent : Prop :=
  ∀ entries', entries.Perm entries' → ∀ now now', SameIdentity (new entries now) (new entries' now')

/-- Entries with one path and one chunk index have one CID. -/
def Untied : Prop :=
  ∀ a ∈ entries, ∀ b ∈ entries, a.path = b.path → a.chunkIndex = b.chunkIndex → a.cid = b.cid

theorem new_rootCid (now : UInt64) :
    (new entries now).rootCid = (MerkleTree.build (canonicalCids entries)).root.getD "" := rfl

variable {entries : List ManifestEntry}

/-- The CIDs in their own order and the sum of the sizes never depend on the order of the
entries. -/
theorem new_manifestId_totalSizeBytes {entries' : List ManifestEntry} (h : entries.Perm entries')
    (now now' : UInt64) :
    (new entries now).manifestId = (new entries' now').manifestId ∧
      (new entries now).totalSizeBytes = (new entries' now').totalSizeBytes := by
  have hsorted : (sortBy ManifestEntry.canonicalKey entries).Perm
      (sortBy ManifestEntry.canonicalKey entries') :=
    ((sortBy_perm _ entries).trans h).trans (sortBy_perm _ entries').symm
  constructor
  · have hcids : (sortBy id _).map id = (sortBy id _).map id :=
      map_key_sortBy (hsorted.map (·.cid))
    rw [List.map_id, List.map_id] at hcids
    change fnv1aHex (utf8 (String.join (sortBy id _))) = fnv1aHex (utf8 (String.join (sortBy id _)))
    rw [hcids]
  · have : RightCommutative fun a b : UInt64 => a + b := ⟨fun a b c => by
      rw [UInt64.add_assoc, UInt64.add_comm b c, ← UInt64.add_assoc]⟩
    exact (hsorted.map (·.sizeBytes)).foldl_eq (f := fun a b : UInt64 => a + b) 0

theorem canonicalKey_eq_iff {a b : ManifestEntry} :
    a.canonicalKey = b.canonicalKey ↔ a.path = b.path ∧ a.chunkIndex = b.chunkIndex := by
  rw [ManifestEntry.canonicalKey, ManifestEntry.canonicalKey, EmbeddingLike.apply_eq_iff_eq,
    Prod.mk.injEq, UInt32.toNat_inj]

/-- The canonical order of the CIDs is the same for every order of the entries exactly when entries
that tie have one CID. -/
theorem canonicalCids_perm_iff :
    (∀ entries', entries.Perm entries' → canonicalCids entries' = canonicalCids entries) ↔
      Untied entries := by
  refine map_sortBy_perm_iff.trans (forall₂_congr fun a _ => forall₂_congr fun b _ => ?_)
  rw [canonicalKey_eq_iff, and_imp]

/-- **The order of the entries.** Identity, root and size do not depend on it when entries with one
path and one chunk index have one CID. When two of them do not, the root depends on it, unless the
hash function collides on what is hashed for two orders. -/
theorem new_orderIndependent (entries : List ManifestEntry) :
    (Untied entries → OrderIndependent entries) ∧
      (OrderIndependent entries → Untied entries ∨
        ∃ entries', entries.Perm entries' ∧
          ∃ d ∈ buildInputs (canonicalCids entries), ∃ d' ∈ buildInputs (canonicalCids entries'),
            d ≠ d' ∧ fnv1a d = fnv1a d') := by
  constructor
  · intro huntied entries' hperm now now'
    obtain ⟨hid, htotal⟩ := new_manifestId_totalSizeBytes hperm now now'
    have hcids := canonicalCids_perm_iff.mpr huntied entries' hperm
    refine ⟨hid, ?_, htotal⟩
    rw [new_rootCid, new_rootCid, hcids]
  · intro hindep
    by_contra! hno
    obtain ⟨htied, hfree⟩ := hno
    refine htied (canonicalCids_perm_iff.mp fun entries' hperm => ?_)
    -- equal roots come from equal lists, as nothing collides
    have hroot := (hindep entries' hperm 0 0).rootCid
    rw [new_rootCid, new_rootCid] at hroot
    have hlen : (canonicalCids entries).length = (canonicalCids entries').length := by
      rw [canonicalCids, canonicalCids, List.length_map, List.length_map,
        (sortBy_perm _ entries).length_eq, (sortBy_perm _ entries').length_eq, hperm.length_eq]
    have hfree' : Apart (buildInputs (canonicalCids entries))
        (buildInputs (canonicalCids entries')) := by
      intro d hd d' hd' heq
      by_contra hd_ne
      exact hfree entries' hperm d hd d' hd' hd_ne heq
    exact (eq_of_rootCid_eq hlen hfree' hroot).symm

/-- Two blocks with one path and one chunk index. -/
def tiedEntries : List ManifestEntry :=
  [⟨"a.txt", "cid-X", 10, 0, true⟩, ⟨"a.txt", "cid-Y", 20, 0, true⟩]

theorem not_forall_orderIndependent :
    ¬ ∀ entries entries' : List ManifestEntry, entries.Perm entries' →
      ∀ now now', SameIdentity (new entries now) (new entries' now') := by
  intro h
  have hroot := (h tiedEntries tiedEntries.reverse (List.reverse_perm _).symm 0 0).rootCid
  exact absurd hroot (by decide +kernel)

/-! ### Completeness of a path -/

/-- The chunk indices of a path, as numbers. -/
def chunkIndices (m : ContentManifest) (path : String) : List ℕ :=
  (m.getEntriesForPath path).map (·.chunkIndex.toNat)

/-- The indices of the entries of a path that are marked final. -/
def finalIndices (m : ContentManifest) (path : String) : List ℕ :=
  ((m.getEntriesForPath path).filter (·.isFinalChunk)).map (·.chunkIndex.toNat)

/-- The scan for gaps. -/
theorem all_contains_iff {maxIndex : UInt32} :
    ((List.range (maxIndex.toNat + 1)).all fun idx =>
        UInt32.ofNat idx ∈ entries.map (·.chunkIndex)) = true ↔
      List.range (maxIndex.toNat + 1) ⊆ entries.map (·.chunkIndex.toNat) := by
  rw [List.all_eq_true]
  refine forall₂_congr fun idx hidx => ?_
  -- an index up to the greatest fits in 32 bits
  have hsmall : idx < 2 ^ 32 := by
    have hmax := maxIndex.toNat_lt
    have hrange := List.mem_range.mp hidx
    omega
  have hcast : (UInt32.ofNat idx).toNat = idx := UInt32.toNat_ofNat_of_lt' hsmall
  rw [decide_eq_true_iff, List.mem_map, List.mem_map]
  refine exists_congr fun e => and_congr_right fun _ => ?_
  rw [← UInt32.toNat_inj, hcast]

/-- As many numbers as there are in a range, with all of those among them, are a permutation of
it. -/
theorem perm_range_iff {l : List ℕ} {n : ℕ} :
    l.Perm (List.range n) ↔ l.length = n ∧ List.range n ⊆ l := by
  constructor
  · intro h
    exact ⟨h.length_eq.trans List.length_range, h.symm.subset⟩
  · rintro ⟨hlen, hsub⟩
    have hsubperm := List.subperm_of_subset List.nodup_range hsub
    exact (hsubperm.perm_of_length_le (by rw [hlen, List.length_range])).symm

/-- **The completeness check.** A path is complete if and only if the chunk indices of its entries
are `0, 1, …, n`, each once, and one entry is marked final, the one with the index `n`. -/
theorem isCompleteForPath_iff (m : ContentManifest) (path : String) :
    m.isCompleteForPath path = true ↔
      ∃ n, (m.chunkIndices path).Perm (List.range (n + 1)) ∧ m.finalIndices path = [n] := by
  unfold isCompleteForPath chunkIndices finalIndices
  set entries := m.getEntriesForPath path with hentries
  constructor
  · intro h
    dsimp only at h
    split at h
    · exact absurd h (by simp)
    split at h
    · next final hfinal =>
      split at h
      · exact absurd h (by simp)
      · next hcount =>
        refine ⟨final.chunkIndex.toNat, perm_range_iff.mpr ⟨?_, all_contains_iff.mp h⟩, ?_⟩
        · rw [List.length_map]
          exact not_not.mp hcount
        · rw [hfinal]
          rfl
    · exact absurd h (by simp)
  · rintro ⟨n, hperm, hfinal⟩
    -- the checks that come before the last one are passed
    obtain ⟨hlen, hsub⟩ := perm_range_iff.mp hperm
    obtain ⟨final, hone, hindex⟩ := List.map_eq_singleton_iff.mp hfinal
    subst hindex
    rw [List.length_map] at hlen
    have hne : entries ≠ [] := by
      rintro hnil
      rw [hnil] at hlen
      exact absurd hlen (by simp)
    dsimp only
    rw [if_neg hne, hone]
    dsimp only
    rw [if_neg (not_not.mpr hlen)]
    exact all_contains_iff.mpr hsub

end ContentManifest

end Ipfrs.Manifest
