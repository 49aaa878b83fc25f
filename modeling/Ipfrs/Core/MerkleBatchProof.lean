import Ipfrs.Core.MerkleBatchLoops

/-!
# What Merkle batch proofs prove

* `verifyBatch_eq_true_iff` — when the verifier accepts;
* `verifyBatch_proveBatch_iff` — completeness: a batch proof is accepted if and only if, on every
  level, the nodes that the verifier needs hold different hashes;
* `verifyBatch_sound_iff` — soundness: without collisions, the leaves of an accepted proof are
  those of the prover if and only if its indices are distinct and in range, or all of them lie
  beyond the tree.
-/

namespace Ipfrs

open MerkleTree

namespace MerkleBatchProver

/-! ### What the verifier accepts -/

/-- `known` after the siblings have been taken from the proof. -/
def knownAfterPull (prover : MerkleBatchProver) (proof : BatchProof) (dataItems : List Bytes) :
    Known :=
  insertAll (neededUpTo (btreeCollect proof.leafIndices) prover.height)
    (proof.siblingHashes.map Prod.snd) (leafKnown proof.leafIndices dataItems)

/-- The nodes that `known` holds, by level and position. -/
def Known.at (known : Known) (l p : ℕ) : Option UInt64 := known.lookup (l, p)

section Verify

variable {prover : MerkleBatchProver} {proof : BatchProof} {dataItems : List Bytes}

theorem leafKnown_at_succ (leafIndices : List ℕ) (dataItems : List Bytes) (l p : ℕ) :
    (leafKnown leafIndices dataItems).at (l + 1) p = none := by
  rw [Known.at, leafKnown_eq, lookup_insertAll_of_notMem]
  · exact AList.lookup_empty _
  · rintro hmem
    obtain ⟨i, -, heq⟩ := List.mem_map.mp hmem
    exact absurd (Prod.mk.inj heq).1 (Nat.succ_ne_zero l).symm

variable {l p : ℕ}

/-- A node that is not needed keeps what the leaves say about it. -/
theorem knownAfterPull_at (h : ¬ (l < prover.height ∧ Needed {i | i ∈ proof.leafIndices} l p)) :
    (knownAfterPull prover proof dataItems).at l p
      = (leafKnown proof.leafIndices dataItems).at l p :=
  lookup_insertAll_of_notMem (fun hmem => h (((neededUpTo_spec _ _).2 l p).mp hmem)) _ _

theorem knownAfterPull_covered (h : Covered {i | i ∈ proof.leafIndices} (l + 1) p) :
    (knownAfterPull prover proof dataItems).at (l + 1) p = none := by
  rw [knownAfterPull_at fun hneeded => hneeded.2.1 h, leafKnown_at_succ]

theorem knownAfterPull_leaf {i : ℕ} (hi : i ∈ proof.leafIndices) :
    (knownAfterPull prover proof dataItems).at 0 i
      = (leafKnown proof.leafIndices dataItems).at 0 i :=
  knownAfterPull_at fun hneeded => hneeded.2.1 (covered_zero.mpr hi)

/-- **When a proof is accepted**: it has one item for each index and a hash for each needed node,
and the root that is rebuilt from these is the root of the proof. -/
theorem verifyBatch_eq_true_iff :
    prover.verifyBatch proof dataItems = .ok true ↔
      dataItems.length = proof.leafIndices.length ∧
        (neededUpTo (btreeCollect proof.leafIndices) prover.height).length
            ≤ proof.siblingHashes.length ∧
          rebuilt combine (knownAfterPull prover proof dataItems).at prover.height 0
            = some proof.root := by
  -- the root is not among what is known, unless it is a leaf
  have htop : 0 < prover.height →
      (knownAfterPull prover proof dataItems).lookup (prover.height, 0) = none := by
    intro hpos
    obtain ⟨k, hk⟩ := Nat.exists_eq_add_one.mpr hpos
    have hat : (knownAfterPull prover proof dataItems).at prover.height 0
        = (leafKnown proof.leafIndices dataItems).at prover.height 0 :=
      knownAfterPull_at fun hlt => absurd hlt.1 (lt_irrefl _)
    rw [hk, leafKnown_at_succ, ← hk] at hat
    exact hat
  have hroot := lookup_propagate _ _ htop
  unfold verifyBatch
  split
  · next hlen => simp [hlen]
  · next hlen =>
    rw [not_not] at hlen
    change ((List.range prover.height).foldlM pullLevel _ >>= fun st =>
      checkRoot proof.root ((propagate prover.height st.known).lookup 0)) = _ ↔ _
    rw [foldlM_pullLevel]
    -- too few siblings are an error, and the proof is not accepted
    by_cases hneeded : (neededUpTo (btreeCollect proof.leafIndices) prover.height).length
        ≤ proof.siblingHashes.length
    · rw [if_pos hneeded, Except.ok_bind]
      change checkRoot proof.root
        ((propagate prover.height (knownAfterPull prover proof dataItems)).lookup 0) = _ ↔ _
      rw [hroot]
      change checkRoot proof.root
        (rebuilt combine (knownAfterPull prover proof dataItems).at prover.height 0) = _ ↔ _
      cases rebuilt combine (knownAfterPull prover proof dataItems).at prover.height 0 with
      | none => simp [checkRoot]
      | some r => simp [checkRoot, hlen, hneeded]
    · rw [if_neg hneeded]
      simp [hneeded]

/-- A proof whose leaves and siblings agree with a reading of the tree is accepted, if its root is
the one of this reading and one of its indices lies within the tree. -/
theorem verifyBatch_of_agree {v : ℕ → ℕ → UInt64} (hv : ParentsAgree combine v prover.height)
    (hlen : dataItems.length = proof.leafIndices.length)
    (hsiblings : proof.siblingHashes.map Prod.snd
      = (neededUpTo (btreeCollect proof.leafIndices) prover.height).map fun e => v e.1 e.2)
    (hleaf : ∀ i ∈ proof.leafIndices,
      (leafKnown proof.leafIndices dataItems).at 0 i = some (v 0 i))
    (hin : ∃ i ∈ proof.leafIndices, i < 2 ^ prover.height)
    (hroot : proof.root = v prover.height 0) :
    prover.verifyBatch proof dataItems = .ok true := by
  have hcount := congrArg List.length hsiblings
  rw [List.length_map, List.length_map] at hcount
  refine verifyBatch_eq_true_iff.mpr ⟨hlen, hcount.ge, ?_⟩
  rw [hroot]
  refine rebuilt_of_supplied hv (S := {i | i ∈ proof.leafIndices}) (fun i hi => ?_)
    (fun l hl p hp => ?_) (fun l p hp => knownAfterPull_covered hp) prover.height le_rfl 0 ?_
  · rw [knownAfterPull_leaf hi, hleaf i hi]
  · rw [Known.at, knownAfterPull, hsiblings, lookup_insertAll_map,
      if_pos (((neededUpTo_spec _ _).2 l p).mpr ⟨hl, hp⟩)]
  · obtain ⟨i, hi, hlt⟩ := hin
    exact ⟨i, hi, Nat.div_eq_of_lt hlt⟩

end Verify

variable {i : ℕ} {sorted indices : List ℕ} {prover : MerkleBatchProver} {data : List Bytes}

theorem leafKnown_at_map {leafIndices : List ℕ} (hi : i ∈ leafIndices) (item : ℕ → Bytes) :
    (leafKnown leafIndices (leafIndices.map item)).at 0 i = some (leafHash (item i)) := by
  have hmap : (leafIndices.map item).map leafHash
      = (leafIndices.map ((0 : ℕ), ·)).map fun e => leafHash (item e.2) := by
    rw [List.map_map, List.map_map]
    rfl
  rw [Known.at, leafKnown_eq, hmap, lookup_insertAll_map, if_pos (List.mem_map_of_mem hi)]

/-! ### Completeness -/

theorem checkBounds_eq_ok {n : ℕ} (h : ∀ i ∈ sorted, i < n) : checkBounds n sorted = .ok () := by
  induction sorted with
  | nil => rfl
  | cons idx sorted ih =>
    rw [checkBounds, if_neg (Nat.not_le.mpr (h idx List.mem_cons_self))]
    exact ih fun i hi => h i (List.mem_cons_of_mem _ hi)

theorem checkDuplicates_eq_ok (h : sorted.Nodup) : checkDuplicates sorted = .ok () := by
  induction sorted with
  | nil => rfl
  | cons idx sorted ih =>
    obtain ⟨hidx, hsorted⟩ := List.nodup_cons.mp h
    obtain _ | ⟨idx', sorted⟩ := sorted
    · rfl
    · rw [checkDuplicates, if_neg fun heq : idx = idx' => hidx (heq ▸ List.mem_cons_self)]
      exact ih hsorted

theorem zip_range_map {α : Type} (f : ℕ → α) (h : ℕ) :
    (List.range h).zip ((List.range (h + 1)).map f) = (List.range h).map fun l => (l, f l) := by
  refine List.ext_getElem (by simp) fun i hi hi' => ?_
  simp

theorem lt_of_needed {S : Set ℕ} {h l p : ℕ} (hS : ∀ i ∈ S, i < 2 ^ h) (hl : l < h)
    (hp : Needed S l p) : p < 2 ^ (h - l) := by
  obtain ⟨i, hi, hdiv⟩ := hp.2
  have hsib : sibling p < 2 ^ (h - l) := by
    rw [← hdiv, Nat.div_lt_iff_lt_mul (Nat.two_pow_pos l), ← pow_add, Nat.sub_add_cancel hl.le]
    exact hS i hi
  rw [← sibling_sibling p]
  exact sibling_lt (by omega) hsib

/-- The hashes at the needed nodes, with their levels. -/
def neededHashes (prover : MerkleBatchProver) (indices : List ℕ) : List (ℕ × UInt64) :=
  (neededUpTo (btreeCollect indices) prover.height).map fun e => (e.1, prover.node e.1 e.2)

/-- **What `prove_batch` makes** of distinct indices in range. -/
theorem proveBatch_eq (hnodup : indices.Nodup) (hlt : ∀ i ∈ indices, i < prover.leaves.length) :
    prover.proveBatch indices = .ok ⟨indices.insertionSort (· ≤ ·),
      (prover.neededHashes (indices.insertionSort (· ≤ ·))).foldl pushNew [], prover.root⟩ := by
  set sorted := indices.insertionSort (· ≤ ·) with hsorted
  have hmem : ∀ i, i ∈ sorted ↔ i ∈ indices := fun i => List.mem_insertionSort _
  have hlt' : ∀ i ∈ sorted, i < prover.leaves.length := fun i hi => hlt i ((hmem i).mp hi)
  have hnodup' : sorted.Nodup := (List.perm_insertionSort _ indices).nodup_iff.mpr hnodup
  -- the nodes that the prover looks up are those of the tree
  have hhashes : ((neededUpTo (btreeCollect sorted) prover.height).map fun e =>
      (e.1, (prover.levelNodes prover.height e.1).getD e.2 0)) = prover.neededHashes sorted := by
    refine List.map_congr_left fun e he => ?_
    obtain ⟨l, p⟩ := e
    obtain ⟨hl, hp⟩ := ((neededUpTo_spec sorted prover.height).2 l p).mp he
    rw [levelNodes_getD]
    refine lt_of_needed (fun i hi => ?_) hl hp
    exact lt_of_lt_of_le (hlt' i hi) prover.treeSize_eq.2
  rw [proveBatch, ← hsorted, checkBounds_eq_ok hlt', Except.ok_bind,
    checkDuplicates_eq_ok hnodup', Except.ok_bind]
  simp only [buildTree_eq, List.length_map, List.length_range, Nat.add_sub_cancel, zip_range_map,
    foldl_proveLevel, hhashes, Except.pure_def]

/-- The needed hashes differ from each other if those of every level do. -/
theorem nodup_neededHashes_iff (prover : MerkleBatchProver) (sorted : List ℕ) :
    (prover.neededHashes sorted).Nodup ↔
      ∀ l < prover.height, Set.InjOn (prover.node l) {p | Needed {i | i ∈ sorted} l p} := by
  obtain ⟨hposNodup, hpos⟩ := neededUpTo_spec sorted prover.height
  rw [neededHashes, List.nodup_map_iff_inj_on hposNodup]
  constructor
  · intro hinj l hl p hp q hq heq
    have h := hinj (l, p) ((hpos l p).mpr ⟨hl, hp⟩) (l, q) ((hpos l q).mpr ⟨hl, hq⟩)
      (by rw [show prover.node l p = prover.node l q from heq])
    exact (Prod.mk.inj h).2
  · rintro hinj ⟨l, p⟩ hp ⟨l', q⟩ hq heq
    obtain ⟨hl, hp⟩ := (hpos l p).mp hp
    obtain ⟨-, hq⟩ := (hpos l' q).mp hq
    obtain ⟨rfl, heq⟩ := Prod.mk.inj heq
    rw [hinj l hl hp hq heq]

/-- **When a batch proof is accepted.** The proof that `prove_batch` makes for distinct indices in
range is accepted for the data of its indices if and only if, on every level below the root, the
nodes that the verifier needs hold different hashes. -/
theorem verifyBatch_proveBatch_iff (hne : indices ≠ []) (hnodup : indices.Nodup)
    (hlt : ∀ i ∈ indices, i < data.length) :
    ∃ prover proof, new data = .ok prover ∧ prover.proveBatch indices = .ok proof ∧
      proof.leafIndices = indices.insertionSort (· ≤ ·) ∧
      (prover.verifyBatch proof (proof.leafIndices.map fun i => data.getD i []) = .ok true ↔
        ∀ l < prover.height, Set.InjOn (prover.node l) {p | Needed {i | i ∈ indices} l p}) := by
  obtain ⟨i₀, hi₀⟩ := List.exists_mem_of_ne_nil _ hne
  have hdata : data ≠ [] := by
    rintro rfl
    exact absurd (hlt i₀ hi₀) (Nat.not_lt_zero _)
  set prover : MerkleBatchProver := ⟨data.map leafHash⟩ with hprover
  have hlt' : ∀ i ∈ indices, i < prover.leaves.length := by
    rw [hprover, List.length_map]
    exact hlt
  have hproof := proveBatch_eq hnodup hlt'
  refine ⟨prover, _, by rw [new, if_neg hdata], hproof, rfl, ?_⟩
  set sorted := indices.insertionSort (· ≤ ·)
  have hset : {i | i ∈ sorted} = {i | i ∈ indices} :=
    Set.ext fun i => List.mem_insertionSort _
  obtain ⟨hpushAll, -, hpushLess⟩ := foldl_pushNew (prover.neededHashes sorted) [] List.nodup_nil
  rw [List.nil_append] at hpushAll hpushLess
  rw [← hset, ← nodup_neededHashes_iff]
  by_cases hdistinct : (prover.neededHashes sorted).Nodup
  · -- nothing is left out, and the verifier rebuilds the tree
    refine iff_of_true ?_ hdistinct
    rw [hpushAll hdistinct]
    refine verifyBatch_of_agree (value_parentsAgree (fun i => prover.leaves.getD i 0) _)
      (by rw [List.length_map]) ?_ (fun i hi => ?_) ⟨i₀, (List.mem_insertionSort _).mpr hi₀, ?_⟩
      prover.root_eq
    · rw [neededHashes, List.map_map]
      rfl
    · have hid : i < data.length := hlt i ((List.mem_insertionSort _).mp hi)
      rw [leafKnown_at_map hi, value, hprover]
      simp [List.getD_eq_getElem?_getD, hid]
    · exact lt_of_lt_of_le (hlt' i₀ hi₀) prover.treeSize_eq.2
  · -- one hash is missing
    refine iff_of_false (fun haccept => ?_) hdistinct
    obtain ⟨-, hcount, -⟩ := verifyBatch_eq_true_iff.mp haccept
    have hless := hpushLess hdistinct
    rw [List.length_nil, Nat.zero_add, neededHashes, List.length_map] at hless
    exact absurd hcount (Nat.not_le.mpr hless)

theorem verifyBatch_proveBatch_abcd :
    ∃ prover proof, new [[97], [98], [99], [100]] = .ok prover ∧
      prover.proveBatch [0, 2] = .ok proof ∧
        prover.verifyBatch proof [[97], [99]] = .ok true := by
  obtain ⟨prover, proof, hnew, hproof, hindices, hiff⟩ :=
    @verifyBatch_proveBatch_iff [0, 2] [[97], [98], [99], [100]] (by decide) (by decide) (by decide)
  refine ⟨prover, proof, hnew, hproof, ?_⟩
  have hitems : (proof.leafIndices.map fun i => [[97], [98], [99], [100]].getD i ([] : Bytes))
      = [[97], [99]] := by
    rw [hindices]
    rfl
  rw [hitems] at hiff
  obtain rfl : ⟨[[97], [98], [99], [100]].map leafHash⟩ = prover := by
    simpa [new] using hnew
  refine hiff.mpr fun l hl => ?_
  have hheight : height ⟨[[97], [98], [99], [100]].map leafHash⟩ = 2 := by decide +kernel
  have hcover : ∀ l p, Covered {i | i ∈ [0, 2]} l p ↔ p = 0 ∨ 2 / 2 ^ l = p := by
    intro l p
    simp [Covered, eq_comm]
  rw [hheight] at hl
  have hneeded : ∀ p, Needed {i | i ∈ [0, 2]} l p → l = 0 ∧ (p = 1 ∨ p = 3) := by
    rintro p ⟨hp, hp'⟩
    rw [hcover] at hp hp'
    unfold sibling at hp'
    obtain rfl | rfl : l = 0 ∨ l = 1 := by omega
    · split at hp' <;> omega
    · -- both nodes of level 1 are covered
      split at hp' <;> omega
  intro p hp q hq heq
  obtain ⟨rfl, hp₁⟩ := hneeded p hp
  obtain ⟨-, hq₁⟩ := hneeded q hq
  -- the leaves 1 and 3 have different hashes
  have hne : node ⟨[[97], [98], [99], [100]].map leafHash⟩ 0 1
      ≠ node ⟨[[97], [98], [99], [100]].map leafHash⟩ 0 3 := by
    decide +kernel
  rcases hp₁ with rfl | rfl <;> rcases hq₁ with rfl | rfl
  · rfl
  · exact absurd heq hne
  · exact absurd heq.symm hne
  · rfl

/-- Four equal leaves: the siblings of the leaves 0 and 2 have one hash, which the proof lists
once. -/
theorem not_forall_verifyBatch_proveBatch :
    ¬ ∀ (data : List Bytes) (indices : List ℕ), indices ≠ [] → indices.Nodup →
      (∀ i ∈ indices, i < data.length) → ∀ prover proof, new data = .ok prover →
        prover.proveBatch indices = .ok proof →
          prover.verifyBatch proof (proof.leafIndices.map fun i => data.getD i []) = .ok true := by
  intro h
  set data : List Bytes := List.replicate 4 [97] with hdata
  set prover : MerkleBatchProver := ⟨data.map leafHash⟩ with hprover
  -- the verifier looks for a second sibling
  have hrun : (prover.proveBatch [0, 2] >>= fun proof =>
      prover.verifyBatch proof (proof.leafIndices.map fun i => data.getD i []))
        = .error (.invalidProof "not enough sibling hashes in proof") := by
    rw [hprover, hdata]
    decide +kernel
  have hproved : (prover.proveBatch [0, 2]).isOk = true := by
    rw [hprover, hdata]
    decide +kernel
  cases hproof : prover.proveBatch [0, 2] with
  | error e => exact absurd hproved (by rw [hproof]; exact Bool.false_ne_true)
  | ok proof =>
    rw [hproof, Except.ok_bind] at hrun
    have haccept := h data [0, 2] (by decide) (by decide) (by decide) prover proof rfl hproof
    exact absurd (hrun.symm.trans haccept) (by simp)

/-! ### Soundness -/

/-- The pairs of hashes that the tree combines. -/
def treePairs (prover : MerkleBatchProver) : Set (UInt64 × UInt64) :=
  {c | ∃ l < prover.height, ∃ p < 2 ^ (prover.height - (l + 1)),
    c = (prover.node l (2 * p), prover.node l (2 * p + 1))}

/-- The pairs of hashes that the verifier combines. -/
def rebuiltPairs (prover : MerkleBatchProver) (proof : BatchProof) (dataItems : List Bytes) :
    Set (UInt64 × UInt64) :=
  {c | ∃ l < prover.height, ∃ p,
    rebuilt combine (knownAfterPull prover proof dataItems).at l (2 * p) = some c.1 ∧
      rebuilt combine (knownAfterPull prover proof dataItems).at l (2 * p + 1) = some c.2}

/-- `combine` is injective on the hashes that occur in the tree and in the verification. -/
def CollisionFree (prover : MerkleBatchProver) (proof : BatchProof) (dataItems : List Bytes) :
    Prop :=
  Set.InjOn (fun c => combine c.1 c.2) (prover.treePairs ∪ prover.rebuiltPairs proof dataItems)

/-- An accepted proof for these indices, of whatever hashes and items, is about the leaves of the
prover. -/
def Sound (prover : MerkleBatchProver) (leafIndices : List ℕ) : Prop :=
  ∀ (siblingHashes : List (ℕ × UInt64)) (dataItems : List Bytes),
    CollisionFree prover ⟨leafIndices, siblingHashes, prover.root⟩ dataItems →
      prover.verifyBatch ⟨leafIndices, siblingHashes, prover.root⟩ dataItems = .ok true →
        ∀ i (hi : i < leafIndices.length) (hi' : i < dataItems.length),
          ∃ h : leafIndices[i] < prover.leaves.length,
            leafHash dataItems[i] = prover.leaves[leafIndices[i]]

/-- The indices are distinct and in range, as `prove_batch` checks, or all of them lie beyond the
tree. -/
def InRangeOrBeyond (prover : MerkleBatchProver) (leafIndices : List ℕ) : Prop :=
  (leafIndices.Nodup ∧ ∀ i ∈ leafIndices, i < prover.leaves.length) ∨
    ∀ i ∈ leafIndices, prover.treeSize ≤ i

theorem node_zero (h : i < prover.leaves.length) : prover.node 0 i = prover.leaves[i] := by
  rw [node, value, List.getD_eq_getElem?_getD, List.getElem?_eq_getElem h, Option.getD_some]

section Sound

variable {prover : MerkleBatchProver} {proof : BatchProof} {dataItems : List Bytes}
variable {l p : ℕ} {a : UInt64}

/-- The verifier knows needed nodes and leaves, and nothing else. -/
theorem known_cases (h : (knownAfterPull prover proof dataItems).at l p = some a) :
    (l < prover.height ∧ Needed {i | i ∈ proof.leafIndices} l p) ∨
      (l = 0 ∧ p ∈ proof.leafIndices) := by
  by_cases hneeded : l < prover.height ∧ Needed {i | i ∈ proof.leafIndices} l p
  · exact Or.inl hneeded
  · rw [knownAfterPull_at hneeded] at h
    cases l with
    | succ l => exact absurd h (by simp [leafKnown_at_succ])
    | zero =>
      refine Or.inr ⟨rfl, ?_⟩
      by_contra hp
      rw [Known.at, leafKnown_eq, lookup_insertAll_of_notMem] at h
      · exact absurd h (by simp)
      · rintro hmem
        obtain ⟨i, hi, heq⟩ := List.mem_map.mp hmem
        exact hp ((Prod.mk.inj heq).2 ▸ hi)

theorem not_accepted_of_beyond (h : ∀ i ∈ proof.leafIndices, 2 ^ prover.height ≤ i) :
    prover.verifyBatch proof dataItems ≠ .ok true := by
  intro haccept
  obtain ⟨-, -, hroot⟩ := verifyBatch_eq_true_iff.mp haccept
  rw [rebuilt_eq_none] at hroot
  · exact absurd hroot (by simp)
  · intro l hl p a ha
    rcases known_cases ha with ⟨hlt, hneeded⟩ | ⟨rfl, hp⟩
    · -- the sibling lies above a leaf beyond the tree
      obtain ⟨i, hi, hdiv⟩ := hneeded.2
      by_contra hin
      have hsib := sibling_lt (by omega) (Nat.lt_of_not_le hin)
      rw [← hdiv, Nat.div_lt_iff_lt_mul (Nat.two_pow_pos l), ← pow_add,
        Nat.sub_add_cancel hlt.le] at hsib
      exact absurd (h i hi) (Nat.not_le.mpr hsib)
    · exact h p hp

/-- **Distinct indices in range**: the items of an accepted proof are the leaves. -/
theorem leaves_of_accepted (hnodup : proof.leafIndices.Nodup)
    (hlt : ∀ i ∈ proof.leafIndices, i < prover.leaves.length)
    (hroot : proof.root = prover.root) (hfree : CollisionFree prover proof dataItems)
    (haccept : prover.verifyBatch proof dataItems = .ok true) {i : ℕ}
    (hi : i < proof.leafIndices.length) (hi' : i < dataItems.length) :
    ∃ h : proof.leafIndices[i] < prover.leaves.length,
      leafHash dataItems[i] = prover.leaves[proof.leafIndices[i]] := by
  obtain ⟨-, -, hrebuilt⟩ := verifyBatch_eq_true_iff.mp haccept
  rw [hroot, root_eq] at hrebuilt
  have hmem : proof.leafIndices[i] ∈ proof.leafIndices := List.getElem_mem hi
  have hin := hlt _ hmem
  -- the leaf that was supplied is the one of the tree
  have hleaf := supplied_of_rebuilt (S := {i | i ∈ proof.leafIndices})
    (value_parentsAgree _ _) (fun l p hp => knownAfterPull_covered hp)
    (fun l hl p hp a b ha hb heq => Prod.mk.inj
      (hfree (Or.inr ⟨l, hl, p, ha, hb⟩) (Or.inl ⟨l, hl, p, hp, rfl⟩) heq))
    hrebuilt hmem (lt_of_lt_of_le hin prover.treeSize_eq.2)
  rw [knownAfterPull_leaf hmem, Known.at, leafKnown_eq] at hleaf
  have hkeys : (proof.leafIndices.map ((0 : ℕ), ·)).Nodup :=
    hnodup.map (Prod.mk_right_injective 0)
  have hitem := lookup_insertAll_of_nodup hkeys ∅ (dataItems.map leafHash)
    (by rwa [List.length_map] : i < _) (by rwa [List.length_map])
  rw [List.getElem_map, List.getElem_map] at hitem
  refine ⟨hin, ?_⟩
  rw [← node_zero hin]
  exact Option.some.inj (hitem.symm.trans hleaf)

/-- With siblings and leaves that agree with a reading of the tree, all that is known does. -/
theorem eq_of_known {v : ℕ → ℕ → UInt64} (hsiblings : proof.siblingHashes.map Prod.snd
      = (neededUpTo (btreeCollect proof.leafIndices) prover.height).map fun e => v e.1 e.2)
    (hleaf : ∀ i ∈ proof.leafIndices,
      (leafKnown proof.leafIndices dataItems).at 0 i = some (v 0 i))
    (h : (knownAfterPull prover proof dataItems).at l p = some a) : a = v l p := by
  rcases known_cases h with hneeded | ⟨rfl, hp⟩
  · rw [Known.at, knownAfterPull, hsiblings, lookup_insertAll_map,
      if_pos (((neededUpTo_spec _ _).2 l p).mpr hneeded)] at h
    exact (Option.some.inj h).symm
  · rw [knownAfterPull_leaf hp, hleaf p hp] at h
    exact (Option.some.inj h).symm

/-- A proof whose items and siblings repeat the tree to the right is accepted, and it combines
nothing that the tree does not combine. -/
theorem accepted_of_mirrored {leafIndices : List ℕ} (dataItems : List Bytes)
    (hlen : dataItems.length = leafIndices.length)
    (hleaf : ∀ i ∈ leafIndices, (leafKnown leafIndices dataItems).at 0 i
      = some (mirrored prover.node prover.height 0 i))
    (hin : ∃ i ∈ leafIndices, i < 2 ^ prover.height)
    (hfree : Set.InjOn (fun c : UInt64 × UInt64 => combine c.1 c.2) prover.treePairs) :
    ∃ siblingHashes,
      CollisionFree prover ⟨leafIndices, siblingHashes, prover.root⟩ dataItems ∧
        prover.verifyBatch ⟨leafIndices, siblingHashes, prover.root⟩ dataItems = .ok true := by
  set v := mirrored prover.node prover.height with hvdef
  have hv : ParentsAgree combine v prover.height := mirrored_parentsAgree (value_parentsAgree _ _)
  set siblings := (neededUpTo (btreeCollect leafIndices) prover.height).map
    fun e => (e.1, v e.1 e.2)
  have hsiblings : siblings.map Prod.snd
      = (neededUpTo (btreeCollect leafIndices) prover.height).map fun e => v e.1 e.2 := by
    rw [List.map_map]
    rfl
  refine ⟨siblings, ?_, ?_⟩
  · -- all that is rebuilt is a node of the tree
    have hagree : ∀ l ≤ prover.height, ∀ p a, rebuilt combine
        (knownAfterPull prover ⟨leafIndices, siblings, prover.root⟩ dataItems).at l p = some a →
          a = v l p :=
      eq_of_rebuilt hv fun l _ p a hknown => eq_of_known hsiblings hleaf hknown
    have hsub : prover.rebuiltPairs ⟨leafIndices, siblings, prover.root⟩ dataItems
        ⊆ prover.treePairs := by
      rintro ⟨a, b⟩ ⟨l, hl, p, ha, hb⟩
      obtain ⟨hleft, hright⟩ := mirrored_children (v := prover.node) hl p
      refine ⟨l, hl, p % 2 ^ (prover.height - (l + 1)), Nat.mod_lt _ (Nat.two_pow_pos _), ?_⟩
      rw [← hleft, ← hright]
      exact Prod.ext (hagree l hl.le _ a ha) (hagree l hl.le _ b hb)
    rw [CollisionFree, Set.union_eq_self_of_subset_right hsub]
    exact hfree
  · refine verifyBatch_of_agree hv hlen hsiblings hleaf hin ?_
    rw [root_eq, hvdef, mirrored_of_lt (Nat.two_pow_pos _)]

end Sound

/-- Data with the hash of the leaf at a position of the tree, repeated to the right. -/
def itemAt (data : List Bytes) (size i : ℕ) : Bytes := data.getD (i % size) zeroPreimage

theorem leafHash_itemAt (hnew : new data = .ok prover) (i : ℕ) :
    leafHash (itemAt data (2 ^ prover.height) i)
      = mirrored prover.node prover.height 0 i := by
  obtain rfl : ⟨data.map leafHash⟩ = prover := by
    unfold new at hnew
    split at hnew
    · exact absurd hnew (by simp)
    · exact Except.ok.inj hnew
  rw [itemAt, mirrored, Nat.sub_zero, node, value, List.getD_eq_getElem?_getD,
    List.getD_eq_getElem?_getD, List.getElem?_map]
  cases data[i % 2 ^ height ⟨data.map leafHash⟩]? with
  | none => exact fnv1a_zeroPreimage
  | some item => rfl

/-- A list with a repetition, cut open at an element that comes again. -/
theorem exists_repeated {l : List ℕ} (h : ¬ l.Nodup) : ∃ l₁ k l₂, l = l₁ ++ k :: l₂ ∧ k ∈ l₂ := by
  induction l with
  | nil => exact absurd List.nodup_nil h
  | cons x l ih =>
    by_cases hx : x ∈ l
    · exact ⟨[], x, l, rfl, hx⟩
    · obtain ⟨l₁, k, l₂, rfl, hk⟩ := ih fun hl => h (List.nodup_cons.mpr ⟨hx, hl⟩)
      exact ⟨x :: l₁, k, l₂, rfl, hk⟩

theorem leafKnown_at_repeated {l₁ l₂ : List ℕ} {k : ℕ} (hk : k ∈ l₂) (item : ℕ → Bytes)
    (bad : Bytes) (hi : i ∈ l₁ ++ k :: l₂) :
    (leafKnown (l₁ ++ k :: l₂) (l₁.map item ++ bad :: l₂.map item)).at 0 i
      = some (leafHash (item i)) := by
  have hmap (l : List ℕ) : (l.map item).map leafHash
      = (l.map ((0 : ℕ), ·)).map fun e => leafHash (item e.2) := by
    rw [List.map_map, List.map_map]
    rfl
  rw [Known.at, leafKnown_eq, List.map_append, List.map_append, List.map_cons, List.map_cons,
    hmap l₁, hmap l₂, insertAll_append_append (by simp), insertAll_cons, lookup_insertAll_map]
  by_cases hi₂ : i ∈ l₂
  · rw [if_pos (List.mem_map_of_mem hi₂)]
  · -- the index is not the repeated one, so it is one of those before it
    have hik : i ≠ k := fun h => hi₂ (h ▸ hk)
    have hi₁ : i ∈ l₁ := by
      rcases List.mem_append.mp hi with hi | hi
      · exact hi
      · exact absurd hi (by simp [hik, hi₂])
    rw [if_neg (by simpa using hi₂), AList.lookup_insert_ne (by simpa using hik),
      lookup_insertAll_map, if_pos (List.mem_map_of_mem hi₁)]

/-- **When an accepted batch proof is about the leaves.** Without collisions, the items of an
accepted proof are the leaves at its indices if and only if these are distinct and in range, or all
of them lie beyond the tree. That this is enough holds of every prover; that it is necessary holds
of those that `new` makes and whose own tree has no collision. -/
theorem verifyBatch_sound_iff (prover : MerkleBatchProver) (leafIndices : List ℕ) :
    (InRangeOrBeyond prover leafIndices → Sound prover leafIndices) ∧
      ∀ data, new data = .ok prover →
        Set.InjOn (fun c : UInt64 × UInt64 => combine c.1 c.2) prover.treePairs →
          (Sound prover leafIndices ↔ InRangeOrBeyond prover leafIndices) := by
  have henough : InRangeOrBeyond prover leafIndices → Sound prover leafIndices := by
    rintro (⟨hnodup, hlt⟩ | hbeyond) siblingHashes dataItems hfree haccept i hi hi'
    · exact leaves_of_accepted hnodup hlt rfl hfree haccept hi hi'
    · rw [prover.treeSize_eq.1] at hbeyond
      exact absurd haccept (not_accepted_of_beyond hbeyond)
  refine ⟨henough, fun data hnew hfree => ⟨fun hsound => ?_, henough⟩⟩
  by_contra hcond
  obtain ⟨hplaced, hbeyond⟩ := not_or.mp hcond
  have hin : ∃ i ∈ leafIndices, i < 2 ^ prover.height := by
    rw [prover.treeSize_eq.1] at hbeyond
    push Not at hbeyond
    exact hbeyond
  set item := itemAt data (2 ^ prover.height)
  by_cases hlt : ∀ i ∈ leafIndices, i < prover.leaves.length
  · -- a wrong item for an index that comes again
    obtain ⟨l₁, k, l₂, rfl, hk⟩ := exists_repeated fun hnodup => hplaced ⟨hnodup, hlt⟩
    have hkn : k < prover.leaves.length :=
      hlt k (List.mem_append_right _ List.mem_cons_self)
    obtain ⟨bad, hbad⟩ : ∃ bad, leafHash bad ≠ prover.leaves[k] := by
      by_cases h : leafHash [] = prover.leaves[k]
      · exact ⟨[0], fun h' => absurd (h.trans h'.symm) (by decide +kernel)⟩
      · exact ⟨[], h⟩
    obtain ⟨siblingHashes, hcoll, haccept⟩ := accepted_of_mirrored
      (l₁.map item ++ bad :: l₂.map item) (by simp)
      (fun i hi => by rw [leafKnown_at_repeated hk item bad hi, leafHash_itemAt hnew]) hin hfree
    obtain ⟨h, heq⟩ := hsound siblingHashes _ hcoll haccept l₁.length (by simp) (by simp)
    simp at heq
    exact hbad heq
  · -- right items all over, and an index out of range
    push Not at hlt
    obtain ⟨i, hi, hge⟩ := hlt
    obtain ⟨siblingHashes, hcoll, haccept⟩ := accepted_of_mirrored
      (leafIndices.map item) (by simp)
      (fun i hi => by rw [leafKnown_at_map hi item, leafHash_itemAt hnew]) hin hfree
    obtain ⟨j, hj, rfl⟩ := List.getElem_of_mem hi
    obtain ⟨h, -⟩ := hsound siblingHashes _ hcoll haccept j hj (by simpa using hj)
    exact absurd hge (Nat.not_le.mpr h)

/-- A tree of two leaves: both may be proved, but not one of them twice, and none beside them. -/
theorem verifyBatch_sound_two :
    Sound ⟨[leafHash [97], leafHash [98]]⟩ [1, 0] ∧
      ¬ Sound ⟨[leafHash [97], leafHash [98]]⟩ [0, 0] ∧
        ¬ Sound ⟨[leafHash [97], leafHash [98]]⟩ [1, 7] := by
  have hfree : Set.InjOn (fun c : UInt64 × UInt64 => combine c.1 c.2)
      (treePairs ⟨[leafHash [97], leafHash [98]]⟩) := by
    -- there is one pair only
    have hheight : height ⟨[leafHash [97], leafHash [98]]⟩ = 1 := by decide +kernel
    rintro c ⟨l, hl, p, hp, rfl⟩ c' ⟨l', hl', p', hp', rfl⟩ -
    rw [hheight] at hl hl' hp hp'
    obtain ⟨rfl, rfl⟩ : l = 0 ∧ l' = 0 := by omega
    obtain ⟨rfl, rfl⟩ : p = 0 ∧ p' = 0 := by omega
    rfl
  have hnew : new [[97], [98]] = .ok ⟨[leafHash [97], leafHash [98]]⟩ := rfl
  have hsound := fun leafIndices => (verifyBatch_sound_iff _ leafIndices).2 _ hnew hfree
  refine ⟨(verifyBatch_sound_iff _ _).1 (Or.inl ⟨by decide, by decide⟩), ?_, ?_⟩
  · rw [hsound, InRangeOrBeyond]
    decide +kernel
  · rw [hsound, InRangeOrBeyond]
    decide +kernel

/-- The item "evil" is accepted for index 7 of a tree with one leaf. -/
theorem not_forall_verifyBatch_sound :
    ¬ ∀ (prover : MerkleBatchProver) (proof : BatchProof) (dataItems : List Bytes),
      proof.root = prover.root → CollisionFree prover proof dataItems →
        prover.verifyBatch proof dataItems = .ok true →
          ∀ i (hi : i < proof.leafIndices.length) (hi' : i < dataItems.length),
            ∃ h : proof.leafIndices[i] < prover.leaves.length,
              leafHash dataItems[i] = prover.leaves[proof.leafIndices[i]] := by
  intro h
  have hheight : height ⟨[leafHash [97]]⟩ = 0 := by decide +kernel
  have haccept : verifyBatch ⟨[leafHash [97]]⟩ ⟨[0, 7], [], root ⟨[leafHash [97]]⟩⟩
      [[97], [101, 118, 105, 108]] = .ok true := by
    decide +kernel
  have hfree : CollisionFree ⟨[leafHash [97]]⟩ ⟨[0, 7], [], root ⟨[leafHash [97]]⟩⟩
      [[97], [101, 118, 105, 108]] := by
    -- a tree of one leaf combines nothing
    rintro c (⟨l, hl, -⟩ | ⟨l, hl, -⟩)
    · exact absurd hl (by rw [hheight]; exact Nat.not_lt_zero l)
    · exact absurd hl (by rw [hheight]; exact Nat.not_lt_zero l)
  obtain ⟨hlt, -⟩ := h _ _ _ rfl hfree haccept 1 (by decide) (by decide)
  exact absurd hlt (by decide)

end MerkleBatchProver

end Ipfrs
