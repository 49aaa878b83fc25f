import Mathlib.Data.List.Destutter
import Ipfrs.Core.DagCbor
import Ipfrs.Core.Fnv
import Ipfrs.Lib.AssocMap
import Ipfrs.Lib.XorFold

/-!
# Gossip anti-entropy

`GossipAntiEntropy` (`ipfrs-network/src/anti_entropy.rs`): two peers compare digests of their
entries and bring each other up to date, a limited number of keys in a round.

The root of a digest is the exclusive or of the key hash, the value hash and the version of every
entry, three words that can stand in for each other: `1 ^ 1 = 2 ^ 2`.

* `matches_iff` — the roots of two states are the same when the contributions of the entries by
  which they differ cancel;
* `content_exchange` — a round makes the peers agree on the keys it processes, and changes nothing
  else, unless the roots are the same;
* `finds_iff` and `eventually_iff` — so a difference is found, and rounds end with equal states,
  exactly when no two states that are compared differ by entries that cancel (`Cancels`).
-/

namespace Ipfrs.Network

def fnv1aStr (s : String) : UInt64 := fnv1a (utf8 s)

structure DigestEntry where
  key : String
  valueHash : UInt64
  version : UInt64
  updatedAtSecs : UInt64
  deriving DecidableEq, Repr

def DigestEntry.rootContribution (e : DigestEntry) : UInt64 :=
  fnv1aStr e.key ^^^ e.valueHash ^^^ e.version

structure MerkleDigest where
  entries : List DigestEntry
  rootHash : UInt64
  deriving DecidableEq, Repr

structure ReconcileResult where
  sentKeys : List String := []
  requestedKeys : List String := []
  conflictKeys : List String := []
  deriving DecidableEq, Repr

structure AntiEntropyConfig where
  syncIntervalSecs : ℕ
  maxDiffKeys : ℕ
  deriving DecidableEq, Repr

structure GossipAntiEntropy where
  localState : AList fun _ : String => DigestEntry
  config : AntiEntropyConfig

namespace MerkleDigest

def fromSorted (entries : List DigestEntry) : MerkleDigest where
  entries := entries
  rootHash := entries.foldl (fun acc e => acc ^^^ e.rootContribution) 0

/-- `MerkleDigest::matches`. -/
def matchesDigest (self other : MerkleDigest) : Bool := self.rootHash == other.rootHash

/-- The lookup maps of `diff_keys` and `reconcile`: the last entry of a key counts. -/
def find? (d : MerkleDigest) (key : String) : Option DigestEntry :=
  d.entries.reverse.find? fun e => e.key == key

def diffKeys (self other : MerkleDigest) : List String :=
  let diff := self.entries.filterMap fun e =>
    match other.find? e.key with
    | none => some e.key
    | some o => if o.valueHash ≠ e.valueHash ∨ o.version ≠ e.version then some e.key else none
  let diff := diff ++ other.entries.filterMap fun e =>
    if (self.find? e.key).isNone then some e.key else none
  (diff.mergeSort (· ≤ ·)).destutter (· ≠ ·)

end MerkleDigest

namespace GossipAntiEntropy

def new (config : AntiEntropyConfig) : GossipAntiEntropy := ⟨∅, config⟩

variable (g : GossipAntiEntropy)

def upsert (key : String) (valueHash version nowSecs : UInt64) : GossipAntiEntropy :=
  let shouldInsert := match g.localState.lookup key with
    | none => true
    | some existing => version > existing.version
  if shouldInsert then
    { g with localState := g.localState.insert key ⟨key, valueHash, version, nowSecs⟩ }
  else g

def buildDigest : MerkleDigest :=
  MerkleDigest.fromSorted
    ((g.localState.entries.map Sigma.snd).mergeSort fun a b => a.key ≤ b.key)

/-- The loop over the differing keys in `reconcile`. -/
def reconcileLoop (maxDiffKeys : ℕ) (localMap remoteMap : String → Option DigestEntry) :
    List String → ReconcileResult → ℕ → ReconcileResult
  | [], result, _ => result
  | key :: diff, result, total =>
    if total ≥ maxDiffKeys then result
    else
      match localMap key, remoteMap key with
      -- the remote does not have it
      | some _, none => reconcileLoop maxDiffKeys localMap remoteMap diff
          { result with sentKeys := result.sentKeys ++ [key] } (total + 1)
      | none, some _ => reconcileLoop maxDiffKeys localMap remoteMap diff
          { result with requestedKeys := result.requestedKeys ++ [key] } (total + 1)
      | some l, some r =>
        if l.version > r.version then
          reconcileLoop maxDiffKeys localMap remoteMap diff
            { result with sentKeys := result.sentKeys ++ [key] } (total + 1)
        else if r.version > l.version then
          reconcileLoop maxDiffKeys localMap remoteMap diff
            { result with requestedKeys := result.requestedKeys ++ [key] } (total + 1)
        else
          reconcileLoop maxDiffKeys localMap remoteMap diff
            { result with conflictKeys := result.conflictKeys ++ [key] } (total + 1)
      | none, none => reconcileLoop maxDiffKeys localMap remoteMap diff result total

def reconcile (self remote : MerkleDigest) : ReconcileResult :=
  if self.matchesDigest remote then {}
  else reconcileLoop g.config.maxDiffKeys self.find? remote.find? (self.diffKeys remote) {} 0

def applyRemoteEntry (entry : DigestEntry) : GossipAntiEntropy :=
  g.upsert entry.key entry.valueHash entry.version entry.updatedAtSecs

/-- The states that `upsert` and `apply_remote_entry` build. -/
inductive Reachable : GossipAntiEntropy → Prop
  | new (config : AntiEntropyConfig) : Reachable (new config)
  | upsert {g : GossipAntiEntropy} (h : Reachable g) (key : String)
      (valueHash version nowSecs : UInt64) : Reachable (g.upsert key valueHash version nowSecs)
  | applyRemoteEntry {g : GossipAntiEntropy} (h : Reachable g) (entry : DigestEntry) :
      Reachable (g.applyRemoteEntry entry)

/-! ### The contents of a state -/

section Content

variable {g a b : GossipAntiEntropy} {key : String} {e : DigestEntry}

/-- The value hash and the version of a key. -/
def content (g : GossipAntiEntropy) (key : String) : Option (UInt64 × UInt64) :=
  (g.localState.lookup key).map fun e => (e.valueHash, e.version)

/-- The entries are held under their own keys. -/
def Keyed (g : GossipAntiEntropy) : Prop := ∀ e ∈ g.localState.entries, e.2.key = e.1

theorem upsert_cases (g : GossipAntiEntropy) (key : String) (valueHash version nowSecs : UInt64) :
    g.upsert key valueHash version nowSecs =
        { g with localState := g.localState.insert key ⟨key, valueHash, version, nowSecs⟩ } ∨
      g.upsert key valueHash version nowSecs = g :=
  ite_eq_or_eq ..

theorem Keyed.upsert (h : Keyed g) (key : String) (valueHash version nowSecs : UInt64) :
    Keyed (g.upsert key valueHash version nowSecs) := by
  obtain heq | heq := upsert_cases g key valueHash version nowSecs
  · rw [heq]
    intro e he
    rw [AList.entries_insert, List.mem_cons] at he
    obtain rfl | he := he
    · rfl
    · exact h e ((List.kerase_sublist key _).subset he)
  · rw [heq]
    exact h

theorem Reachable.keyed (h : Reachable g) : Keyed g := by
  induction h with
  | new config => exact fun e he => absurd he List.not_mem_nil
  | upsert _ key valueHash version nowSecs ih => exact ih.upsert key valueHash version nowSecs
  | applyRemoteEntry _ entry ih => exact ih.upsert entry.key _ _ _

/-- The entries of a state. -/
def values (g : GossipAntiEntropy) : List DigestEntry := g.localState.entries.map Sigma.snd

theorem mem_values_iff (h : Keyed g) : e ∈ g.values ↔ g.localState.lookup e.key = some e := by
  rw [values, List.mem_map]
  constructor
  · rintro ⟨⟨key, e⟩, he, rfl⟩
    have hkey : e.key = key := h _ he
    rw [hkey]
    exact AList.mem_lookup_iff.mpr he
  · intro hlookup
    exact ⟨⟨e.key, e⟩, AList.mem_lookup_iff.mp hlookup, rfl⟩

theorem nodup_keys_values (h : Keyed g) : (g.values.map DigestEntry.key).Nodup := by
  have hkeys : g.values.map DigestEntry.key = g.localState.keys := by
    rw [values, List.map_map]
    exact List.map_congr_left fun e he => h e he
  rw [hkeys]
  exact g.localState.keys_nodup

theorem entries_buildDigest_perm (g : GossipAntiEntropy) : g.buildDigest.entries.Perm g.values :=
  List.mergeSort_perm ..

theorem find?_buildDigest (h : Keyed g) (key : String) :
    g.buildDigest.find? key = g.localState.lookup key := by
  have hmem : ∀ e, e ∈ g.buildDigest.entries.reverse ↔ g.localState.lookup e.key = some e := by
    intro e
    rw [List.mem_reverse, (entries_buildDigest_perm g).mem_iff, mem_values_iff h]
  rw [MerkleDigest.find?]
  cases hfind : g.buildDigest.entries.reverse.find? fun e => e.key == key with
  | some e =>
    have hkey := List.find?_some hfind
    rw [beq_iff_eq] at hkey
    rw [← hkey]
    exact ((hmem e).mp (List.mem_of_find?_eq_some hfind)).symm
  | none =>
    cases hlookup : g.localState.lookup key with
    | none => rfl
    | some e =>
      have hkey : e.key = key := h ⟨key, e⟩ (AList.mem_lookup_iff.mp hlookup)
      have hnone := List.find?_eq_none.mp hfind e ((hmem e).mpr (by rw [hkey, hlookup]))
      exact absurd (beq_iff_eq.mpr hkey) hnone

/-! ### The root -/

/-- A key with its value hash and version. -/
def triple (e : DigestEntry) : String × UInt64 × UInt64 := (e.key, e.valueHash, e.version)

/-- What an entry contributes to the root. -/
def contribution (t : String × UInt64 × UInt64) : UInt64 := fnv1aStr t.1 ^^^ t.2.1 ^^^ t.2.2

/-- The keys of a state with their value hashes and versions. -/
def triples (g : GossipAntiEntropy) : List (String × UInt64 × UInt64) := g.values.map triple

/-- The entries by which two states differ: those of the one without those of the other. -/
def difference (a b : GossipAntiEntropy) : List (String × UInt64 × UInt64) :=
  a.triples.filter (· ∉ b.triples) ++ b.triples.filter (· ∉ a.triples)

/-- **Two states differ by entries whose contributions cancel.** -/
def Cancels (a b : GossipAntiEntropy) : Prop :=
  difference a b ≠ [] ∧ ((difference a b).map contribution).foldl (· ^^^ ·) 0 = 0

instance : Decidable (Cancels a b) := inferInstanceAs (Decidable (_ ∧ _))

theorem nodup_triples (h : Keyed g) : g.triples.Nodup := by
  refine List.Nodup.of_map Prod.fst ?_
  rw [triples, List.map_map]
  exact nodup_keys_values h

theorem mem_triples_iff (h : Keyed g) {t : String × UInt64 × UInt64} :
    t ∈ g.triples ↔ g.content t.1 = some t.2 := by
  rw [triples, List.mem_map, content, Option.map_eq_some_iff]
  constructor
  · rintro ⟨e, he, rfl⟩
    exact ⟨e, (mem_values_iff h).mp he, rfl⟩
  · rintro ⟨e, he, ht⟩
    have hkey : e.key = t.1 := h ⟨t.1, e⟩ (AList.mem_lookup_iff.mp he)
    refine ⟨e, (mem_values_iff h).mpr (by rw [hkey, he]), ?_⟩
    rw [triple, hkey]
    exact Prod.ext rfl ht

theorem rootHash_buildDigest (g : GossipAntiEntropy) :
    g.buildDigest.rootHash = XorFold.fold (· ^^^ ·) 0 (g.triples.map contribution) := by
  have hroot : g.buildDigest.rootHash = XorFold.fold (· ^^^ ·) 0
      (g.buildDigest.entries.map DigestEntry.rootContribution) :=
    List.foldl_map.symm
  rw [hroot, triples, List.map_map]
  exact XorFold.fold_perm ((entries_buildDigest_perm g).map _)

/-- No entry sets two states apart when their contents are the same. -/
theorem difference_eq_nil_iff (ha : Keyed a) (hb : Keyed b) :
    difference a b = [] ↔ a.content = b.content := by
  have hsub : ∀ {a b : GossipAntiEntropy}, Keyed a → Keyed b →
      (a.triples.filter (· ∉ b.triples) = [] ↔
        ∀ key c, a.content key = some c → b.content key = some c) := by
    intro a b ha hb
    rw [List.filter_eq_nil_iff]
    simp only [decide_eq_true_eq, not_not, mem_triples_iff ha, mem_triples_iff hb]
    exact ⟨fun h key c => h (key, c), fun h t => h t.1 t.2⟩
  rw [difference, List.append_eq_nil_iff, hsub ha hb, hsub hb ha]
  constructor
  · rintro ⟨hab, hba⟩
    funext key
    exact Option.ext fun c => ⟨hab key c, hba key c⟩
  · intro heq
    exact ⟨fun key c h => heq ▸ h, fun key c h => heq ▸ h⟩

/-- **When two digests match**: what the entries by which they differ contribute cancels. -/
theorem matches_iff (ha : Keyed a) (hb : Keyed b) :
    a.buildDigest.matchesDigest b.buildDigest = true ↔ a.content = b.content ∨ Cancels a b := by
  rw [MerkleDigest.matchesDigest, beq_iff_eq, rootHash_buildDigest, rootHash_buildDigest,
    XorFold.fold_eq_fold_iff (fun _ => UInt64.xor_zero) (fun _ => UInt64.xor_self)
      (nodup_triples ha) (nodup_triples hb), ← difference_eq_nil_iff ha hb, Cancels]
  show XorFold.fold (· ^^^ ·) 0 ((difference a b).map contribution) = 0 ↔ _
  constructor
  · intro hzero
    by_cases hnil : difference a b = []
    · exact Or.inl hnil
    · exact Or.inr ⟨hnil, hzero⟩
  · rintro (hnil | ⟨-, hzero⟩)
    · rw [hnil]
      rfl
    · exact hzero

end Content

/-! ### The keys that differ -/

section Reconcile

variable {g a b : GossipAntiEntropy} {key : String} {e : DigestEntry} {diff : List String}
  {lm rm : String → Option DigestEntry}

theorem sublist_map_of_filterMap {α β : Type*} {f : α → Option β} {k : α → β}
    (h : ∀ x y, f x = some y → y = k x) (l : List α) : (l.filterMap f).Sublist (l.map k) := by
  induction l with
  | nil => exact List.Sublist.refl _
  | cons x l ih =>
    rw [List.filterMap_cons, List.map_cons]
    cases hx : f x with
    | none => exact ih.cons _
    | some y =>
      obtain rfl := h x y hx
      exact ih.cons_cons _

theorem content_eq_none_iff : g.content key = none ↔ g.localState.lookup key = none := by
  rw [content, Option.map_eq_none_iff]

/-- The keys of the first state that are missing or different in the second one. -/
def changedKeys (a b : GossipAntiEntropy) : List String :=
  a.buildDigest.entries.filterMap fun e =>
    match b.buildDigest.find? e.key with
    | none => some e.key
    | some o => if o.valueHash ≠ e.valueHash ∨ o.version ≠ e.version then some e.key else none

/-- The keys of the second state that the first one does not have. -/
def missingKeys (a b : GossipAntiEntropy) : List String :=
  b.buildDigest.entries.filterMap fun e =>
    if (a.buildDigest.find? e.key).isNone then some e.key else none

theorem mem_changedKeys_iff (ha : Keyed a) (hb : Keyed b) :
    key ∈ changedKeys a b ↔ a.content key ≠ none ∧ a.content key ≠ b.content key := by
  rw [changedKeys, List.mem_filterMap]
  constructor
  · rintro ⟨e, he, hkey⟩
    have hlookup := (mem_values_iff ha).mp ((entries_buildDigest_perm a).mem_iff.mp he)
    rw [find?_buildDigest hb] at hkey
    -- a key of `a` is kept when `b` does not have it, or has another pair for it
    cases ho : b.localState.lookup e.key with
    | none =>
      rw [ho] at hkey
      obtain rfl := Option.some.inj hkey
      simp [content, hlookup, ho]
    | some o =>
      rw [ho] at hkey
      dsimp only at hkey
      split at hkey
      · next hne =>
        obtain rfl := Option.some.inj hkey
        refine ⟨by simp [content, hlookup], ?_⟩
        rw [content, content, hlookup, ho]
        intro heq
        have hpair := Option.some.inj heq
        rw [Prod.mk.injEq] at hpair
        exact hne.elim (fun h => h hpair.1.symm) fun h => h hpair.2.symm
      · cases hkey
  · rintro ⟨hsome, hne⟩
    -- conversely the entry of the key in `a` is the one to look at
    obtain ⟨e, hlookup⟩ := Option.ne_none_iff_exists'.mp (mt content_eq_none_iff.mpr hsome)
    have hkey : e.key = key := ha ⟨key, e⟩ (AList.mem_lookup_iff.mp hlookup)
    refine ⟨e, (entries_buildDigest_perm a).mem_iff.mpr ((mem_values_iff ha).mpr ?_), ?_⟩
    · rw [hkey, hlookup]
    · rw [find?_buildDigest hb, hkey]
      cases ho : b.localState.lookup key with
      | none => rfl
      | some o =>
        refine if_pos ?_
        rw [content, content, hlookup, ho] at hne
        by_contra hsame
        rw [not_or, not_not, not_not] at hsame
        refine hne ?_
        rw [Option.map_some, Option.map_some, hsame.1, hsame.2]

theorem mem_missingKeys_iff (ha : Keyed a) (hb : Keyed b) :
    key ∈ missingKeys a b ↔ a.content key = none ∧ b.content key ≠ none := by
  rw [missingKeys, List.mem_filterMap, content_eq_none_iff, Ne, content_eq_none_iff]
  constructor
  · rintro ⟨e, he, hkey⟩
    have hlookup := (mem_values_iff hb).mp ((entries_buildDigest_perm b).mem_iff.mp he)
    rw [find?_buildDigest ha] at hkey
    split at hkey
    · next hnone =>
      obtain rfl := Option.some.inj hkey
      exact ⟨Option.isNone_iff_eq_none.mp hnone, by simp [hlookup]⟩
    · cases hkey
  · rintro ⟨hnone, hsome⟩
    obtain ⟨e, hlookup⟩ := Option.ne_none_iff_exists'.mp hsome
    have hkey : e.key = key := hb ⟨key, e⟩ (AList.mem_lookup_iff.mp hlookup)
    refine ⟨e, (entries_buildDigest_perm b).mem_iff.mpr ((mem_values_iff hb).mpr ?_), ?_⟩
    · rw [hkey, hlookup]
    · rw [find?_buildDigest ha, hkey, hnone]
      rfl

theorem nodup_changedKeys_append (ha : Keyed a) (hb : Keyed b) :
    (changedKeys a b ++ missingKeys a b).Nodup := by
  have hkeys : ∀ {g : GossipAntiEntropy}, Keyed g →
      (g.buildDigest.entries.map DigestEntry.key).Nodup := fun {g} hg =>
    ((entries_buildDigest_perm g).map _).nodup_iff.mpr (nodup_keys_values hg)
  refine List.Nodup.append ?_ ?_ ?_
  · -- the keys of `a` are different, and so are those that are kept
    refine (hkeys ha).sublist (sublist_map_of_filterMap (fun e k hk => ?_) _)
    split at hk
    · exact (Option.some.inj hk).symm
    · split at hk
      · exact (Option.some.inj hk).symm
      · cases hk
  · refine (hkeys hb).sublist (sublist_map_of_filterMap (fun e k hk => ?_) _)
    split at hk
    · exact (Option.some.inj hk).symm
    · cases hk
  · -- what changed is in `a`, what is missing is not
    intro k hk hk'
    exact ((mem_changedKeys_iff ha hb).mp hk).1 ((mem_missingKeys_iff ha hb).mp hk').1

theorem diffKeys_eq (ha : Keyed a) (hb : Keyed b) :
    a.buildDigest.diffKeys b.buildDigest =
      (changedKeys a b ++ missingKeys a b).mergeSort (· ≤ ·) := by
  -- `dedup` has nothing to remove
  have hnodup : ((changedKeys a b ++ missingKeys a b).mergeSort (· ≤ ·)).Nodup :=
    (List.mergeSort_perm ..).nodup_iff.mpr (nodup_changedKeys_append ha hb)
  exact List.destutter_of_isChain _ _ hnodup.isChain

theorem nodup_diffKeys (ha : Keyed a) (hb : Keyed b) :
    (a.buildDigest.diffKeys b.buildDigest).Nodup := by
  rw [diffKeys_eq ha hb]
  exact (List.mergeSort_perm ..).nodup_iff.mpr (nodup_changedKeys_append ha hb)

/-- **The keys that differ** are those with different contents. -/
theorem mem_diffKeys_iff (ha : Keyed a) (hb : Keyed b) :
    key ∈ a.buildDigest.diffKeys b.buildDigest ↔ a.content key ≠ b.content key := by
  rw [diffKeys_eq ha hb, (List.mergeSort_perm ..).mem_iff, List.mem_append,
    mem_changedKeys_iff ha hb, mem_missingKeys_iff ha hb]
  cases hkey : a.content key with
  | some c => simp
  | none => simp [eq_comm]

/-- The entry of a key is ahead: there is no other one, or the other one has a smaller version. -/
def ahead (lm rm : String → Option DigestEntry) (key : String) : Bool :=
  match lm key, rm key with
  | some _, none => true
  | some l, some r => l.version > r.version
  | none, _ => false

/-- **What `reconcile` answers**: the first keys that differ, up to the limit, each on the side that
is ahead. -/
theorem reconcileLoop_eq (maxDiffKeys : ℕ) (hdiff : ∀ key ∈ diff, lm key ≠ none ∨ rm key ≠ none)
    (result : ReconcileResult) (total : ℕ) :
    reconcileLoop maxDiffKeys lm rm diff result total =
      { sentKeys := result.sentKeys ++ (diff.take (maxDiffKeys - total)).filter (ahead lm rm)
        requestedKeys :=
          result.requestedKeys ++ (diff.take (maxDiffKeys - total)).filter (ahead rm lm)
        conflictKeys := result.conflictKeys ++ (diff.take (maxDiffKeys - total)).filter fun key =>
          !ahead lm rm key && !ahead rm lm key } := by
  induction diff generalizing result total with
  | nil => simp [reconcileLoop]
  | cons key diff ih =>
    obtain ⟨hkey, hdiff⟩ := List.forall_mem_cons.mp hdiff
    rw [reconcileLoop]
    by_cases hfull : total ≥ maxDiffKeys
    · simp [hfull]
    · rw [if_neg hfull]
      -- there is room for `key` and `n` keys more
      obtain ⟨n, hn⟩ : ∃ n, maxDiffKeys - total = n + 1 := ⟨maxDiffKeys - total - 1, by omega⟩
      have hn' : maxDiffKeys - (total + 1) = n := by omega
      rw [hn, List.take_succ_cons]
      cases hl : lm key with
      | none =>
        cases hr : rm key with
        -- a key that differs is in one of the maps
        | none => exact absurd hkey (by simp [hl, hr])
        | some r => simp [ih hdiff, hn', ahead, hl, hr]
      | some l =>
        cases hr : rm key with
        | none => simp [ih hdiff, hn', ahead, hl, hr]
        | some r =>
          dsimp only
          split
          · next hgt =>
            have hlt : ¬ r.version > l.version := UInt64.lt_asymm hgt
            simp [ih hdiff, hn', ahead, hl, hr, UInt64.not_lt.mp hlt, hgt]
          · next hge =>
            split
            · next hgt => simp [ih hdiff, hn', ahead, hl, hr, hgt, UInt64.not_lt.mp hge]
            · next hle =>
              simp [ih hdiff, hn', ahead, hl, hr, UInt64.not_lt.mp hge, UInt64.not_lt.mp hle]

/-- The keys that a round processes. -/
def processed (a b : GossipAntiEntropy) : List String :=
  if a.buildDigest.matchesDigest b.buildDigest then []
  else (a.buildDigest.diffKeys b.buildDigest).take a.config.maxDiffKeys

theorem reconcile_eq (ha : Keyed a) (hb : Keyed b) :
    a.reconcile a.buildDigest b.buildDigest =
      { sentKeys := (processed a b).filter (ahead a.localState.lookup b.localState.lookup)
        requestedKeys := (processed a b).filter (ahead b.localState.lookup a.localState.lookup)
        conflictKeys := (processed a b).filter fun key =>
          !ahead a.localState.lookup b.localState.lookup key &&
            !ahead b.localState.lookup a.localState.lookup key } := by
  have hfinda : a.buildDigest.find? = a.localState.lookup := funext (find?_buildDigest ha)
  have hfindb : b.buildDigest.find? = b.localState.lookup := funext (find?_buildDigest hb)
  rw [reconcile, processed]
  split
  · rfl
  · rw [hfinda, hfindb, reconcileLoop_eq]
    · rfl
    · intro key hkey
      rw [mem_diffKeys_iff ha hb] at hkey
      by_contra hnone
      rw [not_or, not_not, not_not, ← content_eq_none_iff, ← content_eq_none_iff] at hnone
      exact hkey (hnone.1.trans hnone.2.symm)

theorem reconcile_eq_default_iff (ha : Keyed a) (hb : Keyed b) :
    a.reconcile a.buildDigest b.buildDigest = {} ↔ processed a b = [] := by
  rw [reconcile_eq ha hb]
  constructor
  · intro h
    rw [ReconcileResult.mk.injEq, List.filter_eq_nil_iff, List.filter_eq_nil_iff,
      List.filter_eq_nil_iff] at h
    obtain ⟨hsent, hrequested, hconflict⟩ := h
    rw [List.eq_nil_iff_forall_not_mem]
    intro key hkey
    refine hconflict key hkey ?_
    rw [Bool.and_eq_true, Bool.not_eq_true', Bool.not_eq_true']
    exact ⟨eq_false_of_ne_true (hsent key hkey), eq_false_of_ne_true (hrequested key hkey)⟩
  · intro h
    rw [h]
    rfl

end Reconcile

/-! ### Rounds -/

section Rounds

variable {g a b : GossipAntiEntropy} {key : String} {keys : List String} {sides : ℕ → Bool} {n : ℕ}

/-- A round: the first peer reconciles the two digests, and the entries of the keys to be sent and
requested are applied. -/
def exchange (a b : GossipAntiEntropy) : GossipAntiEntropy × GossipAntiEntropy :=
  let result := a.reconcile a.buildDigest b.buildDigest
  ((result.requestedKeys.filterMap b.localState.lookup).foldl applyRemoteEntry a,
    (result.sentKeys.filterMap a.localState.lookup).foldl applyRemoteEntry b)

/-- Rounds, with the peer that reconciles in each of them. -/
def rounds (sides : ℕ → Bool) (a b : GossipAntiEntropy) : ℕ → GossipAntiEntropy × GossipAntiEntropy
  | 0 => (a, b)
  | n + 1 =>
    let (a', b') := rounds sides a b n
    if sides n then exchange a' b' else (exchange b' a').swap

/-- No key has one version with two value hashes. -/
def Consistent (a b : GossipAntiEntropy) : Prop :=
  ∀ key v w version, a.content key = some (v, version) → b.content key = some (w, version) → v = w

/-- **The digests find every difference**: they match, and with a positive limit the answer of
`reconcile` is empty, exactly when the contents are the same. -/
def Finds (a b : GossipAntiEntropy) : Prop :=
  (a.buildDigest.matchesDigest b.buildDigest = true ↔ a.content = b.content) ∧
    (1 ≤ a.config.maxDiffKeys →
      (a.reconcile a.buildDigest b.buildDigest = {} ↔ a.content = b.content))

/-- **The rounds end with equal states.** -/
def Eventually (sides : ℕ → Bool) (a b : GossipAntiEntropy) : Prop :=
  ∃ n, ∀ m ≥ n, (rounds sides a b m).1.content = (rounds sides a b m).2.content

/-! #### One round -/

theorem keyed_foldl_applyRemoteEntry (h : Keyed g) (es : List DigestEntry) :
    Keyed (es.foldl applyRemoteEntry g) := by
  refine List.foldlRecOn es _ (motive := fun g : GossipAntiEntropy => Keyed g) h ?_
  intro g hg e _
  exact hg.upsert e.key e.valueHash e.version e.updatedAtSecs

theorem config_foldl_applyRemoteEntry (g : GossipAntiEntropy) (es : List DigestEntry) :
    (es.foldl applyRemoteEntry g).config = g.config := by
  refine List.foldlRecOn es _ (motive := fun q : GossipAntiEntropy => q.config = g.config) rfl ?_
  intro q hq e _
  obtain heq | heq := upsert_cases q e.key e.valueHash e.version e.updatedAtSecs
  · rw [applyRemoteEntry, heq]
    exact hq
  · rw [applyRemoteEntry, heq]
    exact hq

theorem lookup_applyRemoteEntry {e : DigestEntry}
    (hahead : ∀ old, g.localState.lookup e.key = some old → e.version > old.version) (k : String) :
    (g.applyRemoteEntry e).localState.lookup k =
      if k = e.key then some e else g.localState.lookup k := by
  have hinsert : (match g.localState.lookup e.key with
      | none => true
      | some existing => decide (e.version > existing.version)) = true := by
    cases hold : g.localState.lookup e.key with
    | none => rfl
    | some old => exact decide_eq_true (hahead old hold)
  have heq : g.applyRemoteEntry e = { g with localState := g.localState.insert e.key e } :=
    if_pos hinsert
  rw [heq]
  by_cases hk : k = e.key
  · subst hk
    rw [if_pos rfl]
    exact AList.lookup_insert _
  · rw [if_neg hk]
    exact AList.lookup_insert_ne hk

/-- **The entries of keys on which the source is ahead** are taken over. -/
theorem lookup_foldl_applyRemoteEntry (hb : Keyed b) (hnodup : keys.Nodup)
    (hahead : ∀ key ∈ keys, ahead b.localState.lookup g.localState.lookup key = true)
    (k : String) :
    ((keys.filterMap b.localState.lookup).foldl applyRemoteEntry g).localState.lookup k =
      if k ∈ keys then b.localState.lookup k else g.localState.lookup k := by
  induction keys generalizing g with
  | nil => rfl
  | cons key keys ih =>
    obtain ⟨hfresh, hrest⟩ := List.nodup_cons.mp hnodup
    obtain ⟨hkey, hkeys⟩ := List.forall_mem_cons.mp hahead
    rw [ahead] at hkey
    cases he : b.localState.lookup key with
    | none =>
      rw [he] at hkey
      cases hkey
    | some e =>
      -- `b` holds the entry under its own key, so `g` gets it under this key
      obtain rfl : e.key = key := hb ⟨key, e⟩ (AList.mem_lookup_iff.mp he)
      have hstep := lookup_applyRemoteEntry (g := g) (e := e) fun old hold => by
        rw [he, hold] at hkey
        exact of_decide_eq_true hkey
      rw [List.filterMap_cons, he]
      show ((keys.filterMap b.localState.lookup).foldl applyRemoteEntry
        (g.applyRemoteEntry e)).localState.lookup k = _
      rw [ih hrest]
      · rw [hstep]
        by_cases hk : k = e.key
        · subst hk
          rw [if_neg hfresh, if_pos rfl, if_pos List.mem_cons_self, he]
        · rw [if_neg hk]
          exact if_congr (by simp [hk]) rfl rfl
      · -- the other keys are as before
        intro key' hkey'
        have hne : key' ≠ e.key := fun h => hfresh (h ▸ hkey')
        rw [ahead, hstep, if_neg hne]
        exact hkeys key' hkey'

theorem nodup_processed (ha : Keyed a) (hb : Keyed b) : (processed a b).Nodup := by
  rw [processed]
  split
  · exact List.nodup_nil
  · exact (nodup_diffKeys ha hb).sublist (List.take_sublist ..)

theorem lookup_exchange_fst (ha : Keyed a) (hb : Keyed b) (k : String) :
    (exchange a b).1.localState.lookup k =
      if k ∈ processed a b ∧ ahead b.localState.lookup a.localState.lookup k = true then
        b.localState.lookup k
      else a.localState.lookup k := by
  rw [exchange, reconcile_eq ha hb]
  dsimp only
  rw [lookup_foldl_applyRemoteEntry hb ((nodup_processed ha hb).filter _)]
  · exact if_congr List.mem_filter rfl rfl
  · exact fun key hkey => (List.mem_filter.mp hkey).2

theorem lookup_exchange_snd (ha : Keyed a) (hb : Keyed b) (k : String) :
    (exchange a b).2.localState.lookup k =
      if k ∈ processed a b ∧ ahead a.localState.lookup b.localState.lookup k = true then
        a.localState.lookup k
      else b.localState.lookup k := by
  rw [exchange, reconcile_eq ha hb]
  dsimp only
  rw [lookup_foldl_applyRemoteEntry ha ((nodup_processed ha hb).filter _)]
  · exact if_congr List.mem_filter rfl rfl
  · exact fun key hkey => (List.mem_filter.mp hkey).2

/-- Of two different contents with different versions, one is ahead of the other and not the other
way round. -/
theorem ahead_or_ahead (hconsistent : Consistent a b) (hne : a.content key ≠ b.content key) :
    ahead a.localState.lookup b.localState.lookup key = true ∧
        ahead b.localState.lookup a.localState.lookup key = false ∨
      ahead a.localState.lookup b.localState.lookup key = false ∧
        ahead b.localState.lookup a.localState.lookup key = true := by
  have hsame := hconsistent key
  rw [content, content] at hne
  simp only [content] at hsame
  cases ha : a.localState.lookup key with
  | none =>
    cases hb : b.localState.lookup key with
    | none => exact absurd (by rw [ha, hb]) hne
    | some r => exact Or.inr (by simp [ahead, ha, hb])
  | some l =>
    cases hb : b.localState.lookup key with
    | none => exact Or.inl (by simp [ahead, ha, hb])
    | some r =>
      rw [ha, hb] at hne hsame
      -- the versions are different, because the contents are
      have hversion : l.version ≠ r.version := by
        intro heq
        have hhash := hsame l.valueHash r.valueHash l.version rfl (by rw [Option.map_some, heq])
        rw [Option.map_some, Option.map_some, heq, hhash] at hne
        exact hne rfl
      simp only [ahead, ha, hb]
      obtain hlt | hgt := UInt64.lt_or_lt_of_ne hversion
      · exact Or.inr ⟨decide_eq_false (UInt64.lt_asymm hlt), decide_eq_true hlt⟩
      · exact Or.inl ⟨decide_eq_true hgt, decide_eq_false (UInt64.lt_asymm hgt)⟩

/-- **One round**: both peers have one of the two contents of every key, and the same one for the
keys that are processed. -/
theorem content_exchange (ha : Keyed a) (hb : Keyed b) (hconsistent : Consistent a b)
    (key : String) :
    (key ∈ processed a b →
      (exchange a b).1.content key = (exchange a b).2.content key) ∧
    (key ∉ processed a b → (exchange a b).1.content key = a.content key ∧
      (exchange a b).2.content key = b.content key) := by
  have hmem : key ∈ processed a b → a.content key ≠ b.content key := by
    intro hkey
    rw [processed] at hkey
    split at hkey
    · exact absurd hkey List.not_mem_nil
    · exact (mem_diffKeys_iff ha hb).mp (List.mem_of_mem_take hkey)
  simp only [content, lookup_exchange_fst ha hb, lookup_exchange_snd ha hb]
  constructor
  · intro hkey
    obtain ⟨hab, hba⟩ | ⟨hab, hba⟩ := ahead_or_ahead hconsistent (hmem hkey)
    · simp [hkey, hab, hba]
    · simp [hkey, hab, hba]
  · intro hkey
    simp [hkey]

theorem exchange_of_matches (h : a.buildDigest.matchesDigest b.buildDigest = true) :
    exchange a b = (a, b) := by
  rw [exchange, reconcile, if_pos h]
  rfl

/-! #### All rounds -/

/-- What the rounds keep. -/
structure Peers (a b : GossipAntiEntropy) : Prop where
  keyed_fst : Keyed a
  keyed_snd : Keyed b
  consistent : Consistent a b
  limit_fst : 1 ≤ a.config.maxDiffKeys
  limit_snd : 1 ≤ b.config.maxDiffKeys

theorem Peers.symm (h : Peers a b) : Peers b a where
  keyed_fst := h.keyed_snd
  keyed_snd := h.keyed_fst
  consistent := fun key v w version hv hw => (h.consistent key w v version hw hv).symm
  limit_fst := h.limit_snd
  limit_snd := h.limit_fst

theorem Peers.exchange (h : Peers a b) : Peers (exchange a b).1 (exchange a b).2 where
  keyed_fst := keyed_foldl_applyRemoteEntry h.keyed_fst _
  keyed_snd := keyed_foldl_applyRemoteEntry h.keyed_snd _
  consistent := by
    intro key v w version hv hw
    have hround := content_exchange h.keyed_fst h.keyed_snd h.consistent key
    by_cases hkey : key ∈ processed a b
    · rw [hround.1 hkey, hw] at hv
      exact (Prod.mk.inj (Option.some.inj hv)).1.symm
    · rw [(hround.2 hkey).1] at hv
      rw [(hround.2 hkey).2] at hw
      exact h.consistent key v w version hv hw
  limit_fst := by
    rw [GossipAntiEntropy.exchange, config_foldl_applyRemoteEntry]
    exact h.limit_fst
  limit_snd := by
    rw [GossipAntiEntropy.exchange, config_foldl_applyRemoteEntry]
    exact h.limit_snd

/-- The keys that differ, as a set. -/
def differing (a b : GossipAntiEntropy) : Finset String :=
  (a.buildDigest.diffKeys b.buildDigest).toFinset

theorem Peers.mem_differing_iff (h : Peers a b) :
    key ∈ differing a b ↔ a.content key ≠ b.content key := by
  rw [differing, List.mem_toFinset, mem_diffKeys_iff h.keyed_fst h.keyed_snd]

theorem Peers.differing_comm (h : Peers a b) : differing a b = differing b a := by
  ext key
  rw [h.mem_differing_iff, h.symm.mem_differing_iff, ne_comm]

theorem cancels_comm : Cancels a b ↔ Cancels b a := by
  have hperm : ∀ a b : GossipAntiEntropy, (difference a b).Perm (difference b a) :=
    fun _ _ => List.perm_append_comm
  refine and_congr (not_congr ⟨fun h => ?_, fun h => ?_⟩) ?_
  · exact List.perm_nil.mp (h ▸ hperm b a)
  · exact List.perm_nil.mp (h ▸ hperm a b)
  · have hfold : XorFold.fold (· ^^^ ·) 0 ((difference a b).map contribution) =
        XorFold.fold (· ^^^ ·) 0 ((difference b a).map contribution) :=
      XorFold.fold_perm ((hperm a b).map contribution)
    rw [XorFold.fold, XorFold.fold] at hfold
    rw [hfold]

/-- **A round that finds a difference makes it smaller.** -/
theorem Peers.differing_exchange (h : Peers a b) (hcancels : ¬ Cancels a b)
    (hne : a.content ≠ b.content) :
    differing (GossipAntiEntropy.exchange a b).1 (GossipAntiEntropy.exchange a b).2 ⊂
      differing a b := by
  have hround := content_exchange h.keyed_fst h.keyed_snd h.consistent
  -- the round does not stop at the digests
  have hmatches : ¬ a.buildDigest.matchesDigest b.buildDigest = true := by
    rw [matches_iff h.keyed_fst h.keyed_snd, not_or]
    exact ⟨hne, hcancels⟩
  -- some key differs, so the first one is processed
  obtain ⟨key, hkey⟩ := Function.ne_iff.mp hne
  have hmem := (mem_diffKeys_iff h.keyed_fst h.keyed_snd).mpr hkey
  obtain ⟨k, ks, hks⟩ := List.exists_cons_of_ne_nil (List.ne_nil_of_mem hmem)
  have hprocessed : k ∈ processed a b := by
    obtain ⟨limit, hlimit⟩ := Nat.exists_eq_add_of_le' h.limit_fst
    rw [processed, if_neg hmatches, hks, hlimit, List.take_succ_cons]
    exact List.mem_cons_self
  -- the round settles that key, and unsettles none
  rw [Finset.ssubset_iff_of_subset]
  · refine ⟨k, ?_, ?_⟩
    · rw [differing, hks, List.mem_toFinset]
      exact List.mem_cons_self
    · rw [h.exchange.mem_differing_iff, not_not]
      exact (hround k).1 hprocessed
  · intro key hkey
    rw [h.exchange.mem_differing_iff] at hkey
    rw [h.mem_differing_iff]
    by_cases hk : key ∈ processed a b
    · exact absurd ((hround key).1 hk) hkey
    · rwa [((hround key).2 hk).1, ((hround key).2 hk).2] at hkey

/-- The states before a round differ by entries that cancel. -/
def CancelsAt (sides : ℕ → Bool) (a b : GossipAntiEntropy) (n : ℕ) : Prop :=
  Cancels (rounds sides a b n).1 (rounds sides a b n).2

theorem Peers.rounds (h : Peers a b) (sides : ℕ → Bool) (n : ℕ) :
    Peers (rounds sides a b n).1 (rounds sides a b n).2 := by
  induction n with
  | zero => exact h
  | succ n ih =>
    rw [GossipAntiEntropy.rounds]
    dsimp only
    split
    · exact ih.exchange
    · -- the other peer reconciles
      exact ih.symm.exchange.symm

theorem rounds_of_matches
    (hab : (rounds sides a b n).1.buildDigest.matchesDigest (rounds sides a b n).2.buildDigest)
    (m : ℕ) (hm : n ≤ m) : rounds sides a b m = rounds sides a b n := by
  induction m, hm using Nat.le_induction with
  | base => rfl
  | succ m _ ih =>
    have hba : (rounds sides a b n).2.buildDigest.matchesDigest
        (rounds sides a b n).1.buildDigest = true := by
      rw [MerkleDigest.matchesDigest, beq_iff_eq] at hab ⊢
      exact hab.symm
    rw [rounds, ih]
    dsimp only
    split
    · exact exchange_of_matches hab
    · rw [exchange_of_matches hba]
      rfl

/-- The difference becomes smaller in every round, as long as there is one. -/
theorem Peers.card_differing_rounds (h : Peers a b)
    (hcancels : ∀ n, ¬ CancelsAt sides a b n) (n : ℕ) :
    (differing (GossipAntiEntropy.rounds sides a b n).1
      (GossipAntiEntropy.rounds sides a b n).2).card ≤ (differing a b).card - n := by
  induction n with
  | zero => exact le_rfl
  | succ n ih =>
    have hpeers := h.rounds sides n
    by_cases heq : (GossipAntiEntropy.rounds sides a b n).1.content =
        (GossipAntiEntropy.rounds sides a b n).2.content
    · -- nothing differs any more
      have hmatches := (matches_iff hpeers.keyed_fst hpeers.keyed_snd).mpr (Or.inl heq)
      rw [rounds_of_matches hmatches (n + 1) (Nat.le_succ n)]
      have hempty : differing (GossipAntiEntropy.rounds sides a b n).1
          (GossipAntiEntropy.rounds sides a b n).2 = ∅ := by
        ext key
        rw [hpeers.mem_differing_iff, heq]
        simp
      rw [hempty]
      exact Nat.zero_le _
    · have hlt : (differing (GossipAntiEntropy.rounds sides a b (n + 1)).1
          (GossipAntiEntropy.rounds sides a b (n + 1)).2).card <
            (differing (GossipAntiEntropy.rounds sides a b n).1
              (GossipAntiEntropy.rounds sides a b n).2).card := by
        apply Finset.card_lt_card
        rw [GossipAntiEntropy.rounds]
        dsimp only
        split
        · exact hpeers.differing_exchange (hcancels n) heq
        · have hpeers' := hpeers.symm
          rw [hpeers.differing_comm]
          refine (hpeers'.exchange.symm.differing_comm).trans_ssubset ?_
          exact hpeers'.differing_exchange (fun hc => hcancels n (cancels_comm.mp hc)) (Ne.symm heq)
      omega

/-- **When the rounds end with equal states**: no round starts from states that differ by entries
that cancel. -/
theorem Peers.eventually_iff (h : Peers a b) (sides : ℕ → Bool) :
    Eventually sides a b ↔ ∀ n, ¬ CancelsAt sides a b n := by
  constructor
  · -- from states that cancel no round leads away, so they would be equal
    rintro ⟨n, hn⟩ m hcancels
    have hpeers := h.rounds sides m
    have hmatches := (matches_iff hpeers.keyed_fst hpeers.keyed_snd).mpr (Or.inr hcancels)
    have hequal := hn (max n m) (le_max_left n m)
    rw [rounds_of_matches hmatches _ (le_max_right n m)] at hequal
    exact hcancels.1 ((difference_eq_nil_iff hpeers.keyed_fst hpeers.keyed_snd).mpr hequal)
  · intro hcancels
    -- the difference is used up after as many rounds as there are keys in it
    let last := (differing a b).card
    have hpeers := h.rounds sides last
    have hempty : differing (GossipAntiEntropy.rounds sides a b last).1
        (GossipAntiEntropy.rounds sides a b last).2 = ∅ := by
      have hcard := h.card_differing_rounds hcancels last
      rwa [Nat.sub_self, Nat.le_zero, Finset.card_eq_zero] at hcard
    have hequal : (GossipAntiEntropy.rounds sides a b last).1.content =
        (GossipAntiEntropy.rounds sides a b last).2.content := by
      funext key
      by_contra hne
      have hmem := hpeers.mem_differing_iff.mpr hne
      rw [hempty] at hmem
      exact absurd hmem (Finset.notMem_empty key)
    -- and then nothing changes any more
    have hmatches := (matches_iff hpeers.keyed_fst hpeers.keyed_snd).mpr (Or.inl hequal)
    refine ⟨last, fun m hm => ?_⟩
    rw [rounds_of_matches hmatches m hm]
    exact hequal

/-- **When the digests find every difference**: the states do not differ by entries that cancel. -/
theorem finds_iff (ha : Keyed a) (hb : Keyed b) : Finds a b ↔ ¬ Cancels a b := by
  rw [Finds, matches_iff ha hb, reconcile_eq_default_iff ha hb]
  constructor
  · rintro ⟨hmatches, -⟩ hcancels
    exact hcancels.1 ((difference_eq_nil_iff ha hb).mpr (hmatches.mp (Or.inr hcancels)))
  · intro hcancels
    refine ⟨or_iff_left hcancels, fun hlimit => ?_⟩
    constructor
    · intro hnil
      by_contra hne
      have hmatches : ¬ a.buildDigest.matchesDigest b.buildDigest = true := by
        rw [matches_iff ha hb, not_or]
        exact ⟨hne, hcancels⟩
      -- some key differs, and the limit lets one through
      obtain ⟨key, hkey⟩ := Function.ne_iff.mp hne
      have hmem := (mem_diffKeys_iff ha hb).mpr hkey
      rw [processed, if_neg hmatches, List.take_eq_nil_iff] at hnil
      obtain hzero | hnil := hnil
      · exact absurd hzero (Nat.ne_of_gt hlimit)
      · rw [hnil] at hmem
        exact absurd hmem List.not_mem_nil
    · intro heq
      rw [processed, if_pos ((matches_iff ha hb).mpr (Or.inl heq))]

/-- **What anti-entropy finds, and where its rounds end.** -/
theorem antiEntropy_iff (a b : GossipAntiEntropy) (ha : Reachable a) (hb : Reachable b) :
    (Finds a b ↔ ¬ Cancels a b) ∧
    (Consistent a b → 1 ≤ a.config.maxDiffKeys → 1 ≤ b.config.maxDiffKeys →
      ∀ sides, Eventually sides a b ↔ ∀ n, ¬ CancelsAt sides a b n) := by
  refine ⟨finds_iff ha.keyed hb.keyed, fun hconsistent hlimit hlimit' sides => ?_⟩
  exact Peers.eventually_iff ⟨ha.keyed, hb.keyed, hconsistent, hlimit, hlimit'⟩ sides

/-- A peer with one key. -/
def single (valueHash version : UInt64) : GossipAntiEntropy :=
  (new ⟨30, 100⟩).upsert "key" valueHash version 0

theorem reachable_single (valueHash version : UInt64) : Reachable (single valueHash version) :=
  (Reachable.new ⟨30, 100⟩).upsert "key" valueHash version 0

theorem content_single_of_ne (valueHash version : UInt64) {key : String} (hne : key ≠ "key") :
    (single valueHash version).content key = none := by
  rw [content_eq_none_iff]
  exact AList.lookup_insert_ne hne

theorem antiEntropy_iff_single :
    Reachable (single 1 1) ∧ Reachable (single 1 2) ∧ Finds (single 1 1) (single 1 2) ∧
      Consistent (single 1 1) (single 1 2) ∧
      Eventually (fun _ => true) (single 1 1) (single 1 2) := by
  have hboth := antiEntropy_iff (single 1 1) (single 1 2) (reachable_single 1 1)
    (reachable_single 1 2)
  have hconsistent : Consistent (single 1 1) (single 1 2) := by
    intro key v w version hv hw
    by_cases hkey : key = "key"
    · subst hkey
      have hv' : (single 1 1).content "key" = some (1, 1) := by decide +kernel
      have hw' : (single 1 2).content "key" = some (1, 2) := by decide +kernel
      rw [hv'] at hv
      rw [hw'] at hw
      cases hv
      cases hw
    · rw [content_single_of_ne 1 1 hkey] at hv
      cases hv
  refine ⟨reachable_single 1 1, reachable_single 1 2, hboth.1.mpr (by decide +kernel), hconsistent,
    (hboth.2 hconsistent (by decide) (by decide) fun _ => true).mpr fun n => ?_⟩
  -- the peers agree after one round
  have hone : ¬ CancelsAt (fun _ => true) (single 1 1) (single 1 2) 1 := by
    rw [CancelsAt]
    decide +kernel
  cases n with
  | zero =>
    rw [CancelsAt, rounds]
    decide +kernel
  | succ n =>
    have hmatches : (rounds (fun _ => true) (single 1 1) (single 1 2) 1).1.buildDigest.matchesDigest
        (rounds (fun _ => true) (single 1 1) (single 1 2) 1).2.buildDigest = true := by
      decide +kernel
    rw [CancelsAt, rounds_of_matches hmatches (n + 1) (Nat.le_add_left 1 n)]
    exact hone

/-- **A difference that is not found**: value hash 1 at version 1, and value hash 2 at version 2. -/
theorem not_forall_finds :
    ¬ ∀ a b : GossipAntiEntropy, Reachable a → Reachable b →
      Set.InjOn fnv1aStr {key | a.content key ≠ none ∨ b.content key ≠ none} →
        Finds a b ∧ (Consistent a b → 1 ≤ a.config.maxDiffKeys → 1 ≤ b.config.maxDiffKeys →
          ∀ sides, Eventually sides a b) := by
  intro h
  have hkeys : ∀ (v w : UInt64) key, (single v w).content key ≠ none → key = "key" := by
    intro v w key hkey
    by_contra hne
    exact hkey (content_single_of_ne v w hne)
  -- there is no other key for the hash to mix up
  have hinj : Set.InjOn fnv1aStr
      {key | (single 1 1).content key ≠ none ∨ (single 2 2).content key ≠ none} := by
    intro k hk k' hk' _
    rw [hk.elim (hkeys 1 1 k) (hkeys 2 2 k), hk'.elim (hkeys 1 1 k') (hkeys 2 2 k')]
  have hequal := (h (single 1 1) (single 2 2) (reachable_single 1 1) (reachable_single 2 2)
    hinj).1.1.mp (by decide +kernel)
  have hcontent := congrFun hequal "key"
  revert hcontent
  decide +kernel

end Rounds

end GossipAntiEntropy

end Ipfrs.Network
