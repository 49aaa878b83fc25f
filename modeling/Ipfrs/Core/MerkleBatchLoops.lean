import Ipfrs.Lib.MerkleTree
import Ipfrs.Core.MerkleBatch

/-!
# The loops of Merkle batch proofs

What the loops of `MerkleBatch` compute, in terms of the trees of `MerkleTree`.

* `buildTree_eq`, `root_eq` — the tree is the tree over the padded leaves;
* `neededUpTo_spec` — the positions that the prover and the verifier visit, in one order;
* `foldl_proveLevel` — the prover lists the hashes at these positions, without repetitions;
* `foldlM_pullLevel` — the verifier takes one hash from the proof for each of them;
* `lookup_propagate` — the verifier rebuilds what follows from the hashes it knows.
-/

namespace Ipfrs

open MerkleTree

/-! ### The size of the tree -/

theorem doubleUntil_eq {n fuel k : ℕ} (h : n ≤ 2 ^ (k + fuel)) :
    ∃ j, doubleUntil n fuel (2 ^ k) = 2 ^ j ∧ n ≤ 2 ^ j := by
  induction fuel generalizing k with
  | zero => exact ⟨k, rfl, h⟩
  | succ fuel ih =>
    unfold doubleUntil
    split
    · rw [Nat.shiftLeft_eq, pow_one, ← pow_succ]
      exact ih (by rwa [show k + 1 + fuel = k + (fuel + 1) by omega])
    · next hk => exact ⟨k, rfl, Nat.le_of_not_lt hk⟩

theorem nextPowerOfTwo_eq (n : ℕ) : ∃ h, nextPowerOfTwo n = 2 ^ h ∧ n ≤ 2 ^ h := by
  unfold nextPowerOfTwo
  split
  · next hn => exact ⟨0, rfl, hn⟩
  · exact doubleUntil_eq (k := 0) (by rw [Nat.zero_add]; exact Nat.lt_two_pow_self.le)

theorem trailingZeros_two_pow (h : ℕ) : trailingZeros (2 ^ h) = h := by
  have hfind : (List.range (2 ^ h)).find? (2 ^ h).testBit = some h := by
    rw [List.find?_range_eq_some]
    refine ⟨by rw [Nat.testBit_two_pow, decide_eq_true rfl],
      List.mem_range.mpr Nat.lt_two_pow_self, fun j hj => ?_⟩
    rw [Nat.testBit_two_pow, decide_eq_false hj.ne']
    rfl
  rw [trailingZeros, hfind, Option.getD_some]

namespace MerkleBatchProver

variable (prover : MerkleBatchProver)

/-- The `height` of `verify_batch`. -/
def height : ℕ := trailingZeros prover.treeSize

theorem treeSize_eq :
    prover.treeSize = 2 ^ prover.height ∧ prover.leaves.length ≤ 2 ^ prover.height := by
  obtain ⟨h, hsize, hle⟩ := nextPowerOfTwo_eq prover.leaves.length
  have hheight : prover.height = h := by
    rw [height, treeSize, hsize, trailingZeros_two_pow]
  rw [hheight]
  exact ⟨hsize, hle⟩

/-! ### The levels of the tree -/

/-- The hash of a node of the tree. -/
def node : ℕ → ℕ → UInt64 :=
  value combine fun i => prover.leaves.getD i 0

/-- A level of the tree, for a tree of height `h`. -/
def levelNodes (h l : ℕ) : List UInt64 :=
  (List.range (2 ^ (h - l))).map (prover.node l)

theorem combinePairs_range' (f : ℕ → UInt64) (m k : ℕ) :
    combinePairs ((List.range' (2 * k) (2 * m)).map f)
      = (List.range' k m).map fun p => combine (f (2 * p)) (f (2 * p + 1)) := by
  induction m generalizing k with
  | zero => rfl
  | succ m ih =>
    rw [show 2 * (m + 1) = 2 * m + 1 + 1 by omega, List.range'_succ, List.range'_succ,
      List.range'_succ, List.map_cons, List.map_cons, List.map_cons, combinePairs, ← ih (k + 1)]
    rfl

theorem combinePairs_range (f : ℕ → UInt64) (m : ℕ) :
    combinePairs ((List.range (2 * m)).map f)
      = (List.range m).map fun p => combine (f (2 * p)) (f (2 * p + 1)) := by
  rw [List.range_eq_range', List.range_eq_range']
  exact combinePairs_range' f m 0

variable {h l fuel p : ℕ} {s : List ℕ} {keys : List (ℕ × ℕ)} {hashes : List UInt64}

theorem combinePairs_levelNodes (hl : l < h) :
    combinePairs (prover.levelNodes h l) = prover.levelNodes h (l + 1) := by
  rw [levelNodes, show h - l = h - (l + 1) + 1 by omega, pow_succ, mul_comm, combinePairs_range]
  rfl

theorem levelsFrom_eq (hl : l ≤ h) (hfuel : h ≤ l + fuel) :
    levelsFrom fuel (prover.levelNodes h l)
      = (List.range (h - l + 1)).map fun j => prover.levelNodes h (l + j) := by
  induction fuel generalizing l with
  | zero =>
    obtain rfl : l = h := by omega
    rw [Nat.sub_self]
    rfl
  | succ fuel ih =>
    have hlen : (prover.levelNodes h l).length = 2 ^ (h - l) := by
      rw [levelNodes, List.length_map, List.length_range]
    rw [levelsFrom, hlen]
    rcases hl.lt_or_eq with hlt | rfl
    · rw [if_pos (Nat.one_lt_two_pow (by omega)), combinePairs_levelNodes prover hlt,
        ih hlt (by omega), show h - l + 1 = h - (l + 1) + 1 + 1 by omega,
        List.range_succ_eq_map (n := h - (l + 1) + 1), List.map_cons, List.map_map]
      congr 1
      refine List.map_congr_left fun j _ => ?_
      rw [Function.comp_apply, show l + 1 + j = l + j.succ by omega]
    · rw [Nat.sub_self]
      rfl

theorem topFrom_eq (hl : l ≤ h) (hfuel : h ≤ l + fuel) :
    topFrom fuel (prover.levelNodes h l) = [prover.node h 0] := by
  induction fuel generalizing l with
  | zero =>
    obtain rfl : l = h := by omega
    rw [topFrom, levelNodes, Nat.sub_self]
    rfl
  | succ fuel ih =>
    have hlen : (prover.levelNodes h l).length = 2 ^ (h - l) := by
      rw [levelNodes, List.length_map, List.length_range]
    rw [topFrom, hlen]
    rcases hl.lt_or_eq with hlt | rfl
    · rw [if_pos (Nat.one_lt_two_pow (by omega)), combinePairs_levelNodes prover hlt]
      exact ih hlt (by omega)
    · rw [Nat.sub_self, levelNodes, Nat.sub_self]
      rfl

theorem paddedLeaves_eq :
    paddedLeaves prover.leaves prover.treeSize = prover.levelNodes prover.height 0 := by
  rw [paddedLeaves, prover.treeSize_eq.1]
  rfl

/-- **The tree that `build_tree` makes**: its levels, with the padded leaves as level 0. -/
theorem buildTree_eq :
    buildTree prover.leaves prover.treeSize
      = (List.range (prover.height + 1)).map (prover.levelNodes prover.height) := by
  rw [buildTree, paddedLeaves_eq, levelsFrom_eq prover (Nat.zero_le _)]
  · simp only [Nat.sub_zero, Nat.zero_add]
  · rw [Nat.zero_add, prover.treeSize_eq.1]
    exact Nat.lt_two_pow_self.le

theorem root_eq : prover.root = prover.node prover.height 0 := by
  rw [root, paddedLeaves_eq, topFrom_eq prover (Nat.zero_le _)]
  · rfl
  · rw [Nat.zero_add, prover.treeSize_eq.1]
    exact Nat.lt_two_pow_self.le

theorem levelNodes_getD (hp : p < 2 ^ (h - l)) :
    (prover.levelNodes h l).getD p 0 = prover.node l p := by
  rw [levelNodes, List.getD_eq_getElem?_getD, List.getElem?_map, List.getElem?_range hp]
  rfl

/-! ### The positions that both of them visit -/

theorem mem_btreeInsert {x z : ℕ} : z ∈ btreeInsert x s ↔ z = x ∨ z ∈ s := by
  induction s with
  | nil => rw [btreeInsert, List.mem_cons]
  | cons y ys ih =>
    unfold btreeInsert
    split
    · rw [List.mem_cons]
    · split
      · next hxy =>
        subst hxy
        rw [List.mem_cons, ← or_assoc, or_self]
      · rw [List.mem_cons, ih, List.mem_cons, or_left_comm]

theorem pairwise_btreeInsert (hs : s.Pairwise (· < ·)) (x : ℕ) :
    (btreeInsert x s).Pairwise (· < ·) := by
  induction s with
  | nil => exact List.pairwise_singleton _ _
  | cons y ys ih =>
    obtain ⟨hy, hys⟩ := List.pairwise_cons.mp hs
    unfold btreeInsert
    split
    · next hxy =>
      refine List.pairwise_cons.mpr ⟨fun z hz => ?_, hs⟩
      rcases List.mem_cons.mp hz with rfl | hz
      · exact hxy
      · exact lt_trans hxy (hy z hz)
    · next hxy =>
      split
      · exact hs
      · refine List.pairwise_cons.mpr ⟨fun z hz => ?_, ih hys⟩
        rcases mem_btreeInsert.mp hz with rfl | hz
        · omega
        · exact hy z hz

theorem foldl_btreeInsert (f : ℕ → ℕ) (xs : List ℕ) (hs : s.Pairwise (· < ·)) :
    (xs.foldl (fun s x => btreeInsert (f x) s) s).Pairwise (· < ·) ∧
      ∀ z, z ∈ xs.foldl (fun s x => btreeInsert (f x) s) s ↔ z ∈ s ∨ ∃ x ∈ xs, f x = z := by
  induction xs generalizing s with
  | nil => exact ⟨hs, fun z => by simp⟩
  | cons x xs ih =>
    obtain ⟨hsorted, hmem⟩ := ih (pairwise_btreeInsert hs (f x))
    refine ⟨hsorted, fun z => ?_⟩
    rw [List.foldl_cons, hmem, mem_btreeInsert, List.exists_mem_cons_iff, or_comm (a := z = _),
      or_assoc, eq_comm]

/-- `next_covered` after the loop over `covered`. -/
def coverNext (covered : List ℕ) : List ℕ :=
  covered.foldl (fun s pos => btreeInsert (pos / 2) s) []

/-- `covered` after `l` levels. -/
def coverAt (covered : List ℕ) (l : ℕ) : List ℕ := coverNext^[l] covered

/-- The siblings of one level, in the order of the covered positions. -/
def neededAt (covered : List ℕ) : List ℕ :=
  (covered.filter (siblingOf · ∉ covered)).map siblingOf

/-- The siblings of the first `h` levels, with their levels. -/
def neededUpTo (covered : List ℕ) (h : ℕ) : List (ℕ × ℕ) :=
  (List.range h).flatMap fun l => (neededAt (coverAt covered l)).map (l, ·)

theorem siblingOf_eq : siblingOf = sibling := rfl

theorem coverAt_spec (indices : List ℕ) (l : ℕ) :
    (coverAt (btreeCollect indices) l).Pairwise (· < ·) ∧
      ∀ p, p ∈ coverAt (btreeCollect indices) l ↔ Covered {i | i ∈ indices} l p := by
  induction l with
  | zero =>
    obtain ⟨hsorted, hmem⟩ := foldl_btreeInsert id indices List.Pairwise.nil
    refine ⟨hsorted, fun p => ?_⟩
    rw [covered_zero]
    exact (hmem p).trans (by simp)
  | succ l ih =>
    obtain ⟨hsorted, hmem⟩ := foldl_btreeInsert (· / 2) (coverAt (btreeCollect indices) l)
      List.Pairwise.nil
    rw [coverAt, Function.iterate_succ_apply']
    refine ⟨hsorted, fun p => (hmem p).trans ?_⟩
    simp only [List.not_mem_nil, false_or, ih.2, covered_succ]

theorem mem_neededAt {covered : List ℕ} :
    p ∈ neededAt covered ↔ p ∉ covered ∧ sibling p ∈ covered := by
  rw [neededAt, siblingOf_eq, List.mem_map]
  constructor
  · rintro ⟨q, hq, rfl⟩
    rw [List.mem_filter, decide_eq_true_iff] at hq
    rw [sibling_sibling]
    exact ⟨hq.2, hq.1⟩
  · rintro ⟨hp, hsib⟩
    refine ⟨sibling p, List.mem_filter.mpr ⟨hsib, ?_⟩, sibling_sibling p⟩
    rwa [sibling_sibling, decide_eq_true_iff]

/-- **What the loops visit**: the nodes that are needed below the root, each once. -/
theorem neededUpTo_spec (indices : List ℕ) (h : ℕ) :
    (neededUpTo (btreeCollect indices) h).Nodup ∧
      ∀ l p, (l, p) ∈ neededUpTo (btreeCollect indices) h ↔
        l < h ∧ Needed {i | i ∈ indices} l p := by
  constructor
  · refine List.nodup_flatMap.mpr ⟨fun l _ => ?_, ?_⟩
    · -- the positions of one level
      have hnodup := (coverAt_spec indices l).1.imp fun h => ne_of_lt h
      refine List.Nodup.map (Prod.mk_right_injective l) ?_
      rw [neededAt, siblingOf_eq]
      exact (List.Nodup.filter _ hnodup).map sibling_injective
    · refine List.Pairwise.imp (fun hne => ?_) List.nodup_range
      rintro e he he'
      obtain ⟨p, -, rfl⟩ := List.mem_map.mp he
      obtain ⟨q, -, heq⟩ := List.mem_map.mp he'
      exact hne (Prod.mk.inj heq).1.symm
  · intro l p
    simp only [neededUpTo, List.mem_flatMap, List.mem_range, List.mem_map, Prod.mk.injEq]
    constructor
    · rintro ⟨l', hl, q, hq, rfl, rfl⟩
      rw [mem_neededAt, (coverAt_spec indices l').2, (coverAt_spec indices l').2] at hq
      exact ⟨hl, hq⟩
    · rintro ⟨hl, hp⟩
      refine ⟨l, hl, p, ?_, rfl, rfl⟩
      rw [mem_neededAt, (coverAt_spec indices l).2, (coverAt_spec indices l).2]
      exact hp

theorem neededUpTo_succ (covered : List ℕ) (h : ℕ) :
    neededUpTo covered (h + 1)
      = neededUpTo covered h ++ (neededAt (coverAt covered h)).map (h, ·) := by
  rw [neededUpTo, List.range_succ, List.flatMap_append, List.flatMap_singleton]
  rfl

/-! ### The loop of the prover -/

/-- `push` of an entry that is not there yet. -/
def pushNew (entries : List (ℕ × UInt64)) (entry : ℕ × UInt64) : List (ℕ × UInt64) :=
  if entries.contains entry then entries else entries ++ [entry]

theorem proveStep_eq (level : ℕ) (levelNodes : List UInt64) (covered : List ℕ)
    (st : List ℕ × List (ℕ × UInt64)) (pos : ℕ) :
    proveStep level levelNodes covered st pos = (btreeInsert (pos / 2) st.1,
      if siblingOf pos ∈ covered then st.2
      else pushNew st.2 (level, levelNodes.getD (siblingOf pos) 0)) := by
  unfold proveStep pushNew
  split
  · rfl
  · dsimp only
    by_cases hmem : (level, levelNodes.getD (siblingOf pos) 0) ∈ st.2
    · rw [if_pos hmem, if_pos (List.contains_iff_mem.mpr hmem)]
    · rw [if_neg hmem, if_neg (mt List.contains_iff_mem.mp hmem)]

theorem foldl_proveStep (level : ℕ) (levelNodes : List UInt64) (covered rest : List ℕ)
    (st : List ℕ × List (ℕ × UInt64)) :
    rest.foldl (proveStep level levelNodes covered) st
      = (rest.foldl (fun s pos => btreeInsert (pos / 2) s) st.1,
        (((rest.filter (siblingOf · ∉ covered)).map siblingOf).map
          fun p => (level, levelNodes.getD p 0)).foldl pushNew st.2) := by
  induction rest generalizing st with
  | nil => rfl
  | cons pos rest ih =>
    rw [List.foldl_cons, ih, List.foldl_cons, proveStep_eq]
    by_cases hcov : siblingOf pos ∈ covered
    · rw [if_pos hcov, List.filter_cons_of_neg (by simpa using hcov)]
    · rw [if_neg hcov, List.filter_cons_of_pos (by simpa using hcov), List.map_cons, List.map_cons,
        List.foldl_cons]

/-- **What the prover lists**: the hashes of the needed nodes, without repetitions. -/
theorem foldl_proveLevel (levels : ℕ → List UInt64) (covered : List ℕ) (h : ℕ) :
    ((List.range h).map fun l => (l, levels l)).foldl proveLevel (covered, [])
      = (coverAt covered h,
        ((neededUpTo covered h).map fun e => (e.1, (levels e.1).getD e.2 0)).foldl pushNew []) := by
  induction h with
  | zero => rfl
  | succ h ih =>
    rw [List.range_succ, List.map_append, List.foldl_append, ih, List.map_singleton,
      List.foldl_cons, List.foldl_nil, proveLevel, foldl_proveStep, neededUpTo_succ,
      List.map_append, List.foldl_append, List.map_map, coverAt, coverAt,
      Function.iterate_succ_apply', neededAt, List.map_map, List.map_map]
    rfl

/-- Pushing distinct entries keeps all of them, and pushing others loses some. -/
theorem foldl_pushNew (l acc : List (ℕ × UInt64)) (hacc : acc.Nodup) :
    ((acc ++ l).Nodup → l.foldl pushNew acc = acc ++ l) ∧
      (l.foldl pushNew acc).length ≤ acc.length + l.length ∧
        (¬ (acc ++ l).Nodup → (l.foldl pushNew acc).length < acc.length + l.length) := by
  induction l generalizing acc with
  | nil => simpa using hacc
  | cons e l ih =>
    rw [List.foldl_cons, pushNew]
    split
    · next hcontains =>
      -- what is there already is not pushed
      have he := List.contains_iff_mem.mp hcontains
      obtain ⟨-, hle, -⟩ := ih acc hacc
      refine ⟨fun hnodup => ?_, ?_, fun _ => ?_⟩
      · exact absurd rfl ((List.nodup_append.mp hnodup).2.2 e he e List.mem_cons_self)
      · exact le_trans hle (by rw [List.length_cons]; omega)
      · exact lt_of_le_of_lt hle (by rw [List.length_cons]; omega)
    · next hcontains =>
      have hacc' : (acc ++ [e]).Nodup := by
        rw [List.nodup_append]
        refine ⟨hacc, List.nodup_singleton e, ?_⟩
        rintro x hx y hy rfl
        exact hcontains (List.contains_iff_mem.mpr (List.mem_singleton.mp hy ▸ hx))
      have h := ih (acc ++ [e]) hacc'
      rw [List.append_assoc, List.singleton_append, List.length_append, List.length_singleton] at h
      rw [List.length_cons, ← Nat.add_assoc, Nat.add_right_comm]
      exact h

/-! ### The loops of the verifier -/

/-- Hashes for a list of nodes, inserted one after the other. -/
def insertAll (keys : List (ℕ × ℕ)) (hashes : List UInt64) (known : Known) : Known :=
  (keys.zip hashes).foldl (fun known e => known.insert e.1 e.2) known

theorem insertAll_cons (key : ℕ × ℕ) (keys : List (ℕ × ℕ)) (hash : UInt64) (hashes : List UInt64)
    (known : Known) :
    insertAll (key :: keys) (hash :: hashes) known
      = insertAll keys hashes (known.insert key hash) := rfl

theorem insertAll_append {keys' : List (ℕ × ℕ)} {known : Known}
    (hlen : keys.length ≤ hashes.length) :
    insertAll (keys ++ keys') hashes known
      = insertAll keys' (hashes.drop keys.length) (insertAll keys hashes known) := by
  induction keys generalizing hashes known with
  | nil => rfl
  | cons key keys ih =>
    obtain _ | ⟨hash, hashes⟩ := hashes
    · exact absurd hlen (by simp)
    · rw [List.cons_append, insertAll_cons, insertAll_cons, List.length_cons, List.drop_succ_cons]
      exact ih (by simpa using hlen)

theorem insertAll_append_append (hlen : keys.length = hashes.length) (keys' : List (ℕ × ℕ))
    (hashes' : List UInt64) (known : Known) :
    insertAll (keys ++ keys') (hashes ++ hashes') known
      = insertAll keys' hashes' (insertAll keys hashes known) := by
  rw [insertAll, List.zip_append hlen, List.foldl_append]
  rfl

theorem lookup_insertAll_of_notMem {key : ℕ × ℕ} (hkey : key ∉ keys) (hashes : List UInt64)
    (known : Known) : (insertAll keys hashes known).lookup key = known.lookup key := by
  induction keys generalizing hashes known with
  | nil => rfl
  | cons key' keys ih =>
    rw [List.mem_cons, not_or] at hkey
    obtain ⟨hne, hkey⟩ := hkey
    obtain _ | ⟨hash, hashes⟩ := hashes
    · rfl
    · rw [insertAll_cons, ih hkey, AList.lookup_insert_ne hne]

theorem lookup_insertAll_map (keys : List (ℕ × ℕ)) (f : ℕ × ℕ → UInt64) (known : Known)
    (key : ℕ × ℕ) :
    (insertAll keys (keys.map f) known).lookup key
      = if key ∈ keys then some (f key) else known.lookup key := by
  induction keys generalizing known with
  | nil => rfl
  | cons key' keys ih =>
    rw [List.map_cons, insertAll_cons, ih]
    by_cases hmem : key ∈ keys
    · rw [if_pos hmem, if_pos (List.mem_cons_of_mem _ hmem)]
    · rw [if_neg hmem]
      by_cases hkey : key = key'
      · rw [hkey, AList.lookup_insert, if_pos List.mem_cons_self]
      · rw [AList.lookup_insert_ne hkey, if_neg]
        rw [List.mem_cons, not_or]
        exact ⟨hkey, hmem⟩

theorem lookup_insertAll_of_nodup (hnodup : keys.Nodup) (known : Known) (hashes : List UInt64)
    {i : ℕ} (hi : i < keys.length) (hi' : i < hashes.length) :
    (insertAll keys hashes known).lookup keys[i] = some hashes[i] := by
  induction keys generalizing hashes known i with
  | nil => exact absurd hi (Nat.not_lt_zero i)
  | cons key keys ih =>
    obtain ⟨hkey, hnodup⟩ := List.nodup_cons.mp hnodup
    obtain _ | ⟨hash, hashes⟩ := hashes
    · exact absurd hi' (Nat.not_lt_zero i)
    rw [insertAll_cons]
    cases i with
    | zero =>
      rw [List.getElem_cons_zero, List.getElem_cons_zero, lookup_insertAll_of_notMem hkey,
        AList.lookup_insert]
    | succ i =>
      rw [List.getElem_cons_succ, List.getElem_cons_succ]
      exact ih hnodup _ _ _ _

theorem leafKnown_eq (leafIndices : List ℕ) (dataItems : List Bytes) :
    leafKnown leafIndices dataItems
      = insertAll (leafIndices.map (0, ·)) (dataItems.map leafHash) ∅ := by
  rw [leafKnown, insertAll, List.zip_map, List.foldl_map]
  rfl

theorem foldlM_pullStep (level : ℕ) (covered rest : List ℕ) (st : Pull) :
    rest.foldlM (pullStep level covered) st =
      let needed := ((rest.filter (siblingOf · ∉ covered)).map siblingOf).map (level, ·)
      if needed.length ≤ st.siblings.length then
        .ok ⟨rest.foldl (fun s pos => btreeInsert (pos / 2) s) st.nextCovered,
          st.siblings.drop needed.length,
          insertAll needed (st.siblings.map Prod.snd) st.known⟩
      else .error (.invalidProof "not enough sibling hashes in proof") := by
  induction rest generalizing st with
  | nil => rfl
  | cons pos rest ih =>
    rw [List.foldlM_cons, pullStep]
    by_cases hcov : siblingOf pos ∈ covered
    · rw [if_pos hcov, Except.ok_bind, ih, List.filter_cons_of_neg (by simpa using hcov)]
      rfl
    · rw [if_neg hcov, List.filter_cons_of_pos (by simpa using hcov)]
      obtain ⟨nextCovered, _ | ⟨⟨lv, hash⟩, siblings⟩, known⟩ := st
      · rfl
      · rw [Except.ok_bind, ih]
        simp only [List.map_cons, List.length_cons, Nat.add_le_add_iff_right, List.foldl_cons,
          List.drop_succ_cons, insertAll_cons]

theorem pullLevel_eq (level : ℕ) (covered : List ℕ) (siblings : List (ℕ × UInt64))
    (known : Known) :
    pullLevel ⟨covered, siblings, known⟩ level =
      if ((neededAt covered).map (level, ·)).length ≤ siblings.length then
        .ok ⟨coverNext covered, siblings.drop ((neededAt covered).map (level, ·)).length,
          insertAll ((neededAt covered).map (level, ·)) (siblings.map Prod.snd) known⟩
      else .error (.invalidProof "not enough sibling hashes in proof") :=
  foldlM_pullStep level covered covered ⟨[], siblings, known⟩

/-- **What the verifier takes from the proof**: one hash for each needed node, in order; it fails if
there are not that many. -/
theorem foldlM_pullLevel (covered : List ℕ) (siblings : List (ℕ × UInt64)) (known : Known)
    (h : ℕ) :
    (List.range h).foldlM pullLevel ⟨covered, siblings, known⟩ =
      if (neededUpTo covered h).length ≤ siblings.length then
        .ok ⟨coverAt covered h, siblings.drop (neededUpTo covered h).length,
          insertAll (neededUpTo covered h) (siblings.map Prod.snd) known⟩
      else .error (.invalidProof "not enough sibling hashes in proof") := by
  induction h with
  | zero => rfl
  | succ h ih =>
    rw [List.range_succ, List.foldlM_append, ih, neededUpTo_succ, List.length_append]
    split
    · next hle =>
      have hcover : coverNext (coverAt covered h) = coverAt covered (h + 1) :=
        (Function.iterate_succ_apply' coverNext h covered).symm
      rw [Except.ok_bind, List.foldlM_cons, pullLevel_eq, hcover, List.length_drop,
        List.drop_drop, List.map_drop,
        ← insertAll_append (by rwa [List.length_map])]
      by_cases hall : ((neededAt (coverAt covered h)).map (h, ·)).length
          ≤ siblings.length - (neededUpTo covered h).length
      · rw [if_pos hall, if_pos (by omega)]
        rfl
      · rw [if_neg hall, if_neg (by omega)]
        rfl
    · next hgt =>
      rw [if_neg (by omega)]
      rfl

/-! ### Propagating upwards -/

theorem lookup_foldl_merge (level p : ℕ) (entries : List (Σ _ : ℕ × ℕ, UInt64))
    (hnodup : entries.NodupKeys) (current : LevelKnown) :
    (entries.foldl (fun current e => if e.1.1 = level then current.insert e.1.2 e.2 else current)
      current).lookup p = (entries.dlookup (level, p)).or (current.lookup p) := by
  induction entries generalizing current with
  | nil => rfl
  | cons e entries ih =>
    obtain ⟨⟨l, q⟩, hash⟩ := e
    obtain ⟨hkey, hnodup⟩ := List.nodupKeys_cons.mp hnodup
    rw [List.foldl_cons, ih hnodup]
    by_cases heq : (level, p) = (l, q)
    · -- the entry of this very node, and there is no other
      obtain ⟨rfl, rfl⟩ := Prod.mk.inj heq
      rw [if_pos rfl, AList.lookup_insert, List.dlookup_cons_eq, List.dlookup_eq_none.mpr hkey]
      rfl
    · rw [List.dlookup_cons_ne _ _ heq]
      congr 1
      split
      · next hl =>
        refine AList.lookup_insert_ne fun hp => heq ?_
        rw [hp, ← show l = level from hl]
      · rfl

theorem lookup_mergeLevel (level p : ℕ) (known : Known) (current : LevelKnown) :
    (mergeLevel level known current).lookup p
      = (known.lookup (level, p)).or (current.lookup p) :=
  lookup_foldl_merge level p known.entries known.nodupKeys current

/-- The parent of two nodes of a level, if both are known. -/
def parentOf (current : LevelKnown) (q : ℕ) : Option UInt64 :=
  combineKnown combine (current.lookup (2 * q)) (current.lookup (2 * q + 1))

/-- What the loop over the positions of a level knows after the positions `done`. -/
structure ParentInv (current : LevelKnown) (done : List ℕ) (st : LevelKnown × Finset ℕ) :
    Prop where
  lookup_eq : ∀ q, st.1.lookup q = if q ∈ st.2 then parentOf current q else none
  complete : ∀ pos ∈ done, (parentOf current (pos / 2)).isSome → pos / 2 ∈ st.2

theorem ParentInv.step {current : LevelKnown} {done : List ℕ} {st : LevelKnown × Finset ℕ}
    (hI : ParentInv current done st) (pos : ℕ) :
    ParentInv current (done ++ [pos]) (parentStep current st pos) := by
  have hdone : ∀ processed : Finset ℕ, st.2 ⊆ processed →
      ((parentOf current (pos / 2)).isSome → pos / 2 ∈ processed) →
        ∀ pos' ∈ done ++ [pos], (parentOf current (pos' / 2)).isSome → pos' / 2 ∈ processed := by
    intro processed hsub hpos pos' hpos' hsome
    rcases List.mem_append.mp hpos' with hmem | hmem
    · exact hsub (hI.complete pos' hmem hsome)
    · rw [List.mem_singleton.mp hmem] at hsome ⊢
      exact hpos hsome
  unfold parentStep
  dsimp only
  split
  · next hmem => exact ⟨hI.lookup_eq, hdone st.2 (Finset.Subset.refl _) fun _ => hmem⟩
  · next hmem =>
    rw [mul_comm]
    split
    · next left right hl hr =>
      -- both children are known, so the parent is processed now
      have hparent : parentOf current (pos / 2) = some (combine left right) := by
        rw [parentOf, hl, hr]
        rfl
      refine ⟨fun q => ?_, hdone _ (Finset.subset_insert _ _) fun _ => Finset.mem_insert_self _ _⟩
      by_cases hq : q = pos / 2
      · rw [hq, AList.lookup_insert, if_pos (Finset.mem_insert_self _ _), hparent]
      · rw [AList.lookup_insert_ne hq, hI.lookup_eq q]
        simp only [Finset.mem_insert, hq, false_or]
    · next hnone =>
      refine ⟨hI.lookup_eq, hdone st.2 (Finset.Subset.refl _) fun hsome => ?_⟩
      obtain ⟨c, hc⟩ := Option.isSome_iff_exists.mp hsome
      obtain ⟨a, b, ha, hb, -⟩ := combineKnown_eq_some.mp hc
      exact absurd hb (hnone a b ha)

/-- **One level up**: the parents of which both children are known. -/
theorem lookup_nextLevel (current : LevelKnown) (q : ℕ) :
    (nextLevel current).lookup q = parentOf current q := by
  have hrun : ∀ rest done st, ParentInv current done st →
      ParentInv current (done ++ rest) (rest.foldl (parentStep current) st) := by
    intro rest
    induction rest with
    | nil =>
      intro done st hI
      rwa [List.append_nil]
    | cons pos rest ih =>
      intro done st hI
      rw [List.foldl_cons, ← List.singleton_append, ← List.append_assoc]
      exact ih (done ++ [pos]) _ (hI.step pos)
  have hempty : ParentInv current [] (∅, ∅) :=
    ⟨fun q => by simp, fun pos hpos => absurd hpos List.not_mem_nil⟩
  have hI := hrun (current.keys.insertionSort (· ≤ ·)) [] (∅, ∅) hempty
  rw [nextLevel, hI.lookup_eq q]
  split
  · rfl
  · next hq =>
    -- a parent that could be computed would have been
    cases hparent : parentOf current q with
    | none => rfl
    | some c =>
      obtain ⟨a, b, ha, -, -⟩ := combineKnown_eq_some.mp hparent
      have hkey : 2 * q ∈ current.keys.insertionSort (· ≤ ·) := by
        rw [List.mem_insertionSort, ← AList.mem_keys, ← AList.lookup_isSome, ha]
        rfl
      have hmem := hI.complete (2 * q) (by rwa [List.nil_append])
      rw [show 2 * q / 2 = q by omega, hparent] at hmem
      exact absurd (hmem rfl) hq

/-- **What the verifier rebuilds**: the nodes that follow from the hashes it knows. -/
theorem lookup_propagate (known : Known) (h : ℕ)
    (htop : 0 < h → known.lookup (h, 0) = none) :
    (propagate h known).lookup 0 = rebuilt combine (fun l p => known.lookup (l, p)) h 0 := by
  -- level by level, what is known goes before what is combined
  have hlevel : ∀ l p, (mergeLevel l known (propagate l known)).lookup p
      = rebuilt combine (fun l p => known.lookup (l, p)) l p := by
    intro l
    induction l with
    | zero =>
      intro p
      rw [lookup_mergeLevel, propagate, List.range_zero, List.foldl_nil, lookup_mergeLevel, rebuilt]
      cases known.lookup (0, p) <;> rfl
    | succ l ih =>
      intro p
      rw [lookup_mergeLevel, propagate, List.range_succ, List.foldl_append, List.foldl_cons,
        List.foldl_nil, lookup_nextLevel, parentOf]
      change Option.or _ (combineKnown combine
        ((mergeLevel l known (propagate l known)).lookup (2 * p))
        ((mergeLevel l known (propagate l known)).lookup (2 * p + 1))) = _
      rw [ih, ih, rebuilt]
  rw [← hlevel h 0, lookup_mergeLevel]
  rcases h.eq_zero_or_pos with rfl | hpos
  · rw [propagate, List.range_zero, List.foldl_nil, lookup_mergeLevel]
    cases known.lookup (0, 0) <;> rfl
  · rw [htop hpos, Option.none_or]

end MerkleBatchProver

end Ipfrs
