import Ipfrs.Core.Fnv
import Ipfrs.Lib.HeapTree
import Mathlib.Data.Nat.Log

/-!
# The Merkle proof verifier

`MerkleProofVerifier` (`ipfrs-storage/src/merkle_proof_verifier.rs`): a padded binary tree of FNV-1a
hashes in an array, inclusion proofs, and updates along one path. After any updates the tree is the
one that `new` builds from the leaves after them (`new_updateLeaves`), so its proofs verify
(`verify_generateProof`).
-/

namespace Ipfrs.Merkle

open HeapTree

/-- `MerkleHash`: the number of which it holds the bytes. -/
abbrev MerkleHash := UInt64

def hashLeaf (data : Bytes) : MerkleHash := fnv1a (0 :: data)

def hashInternal (left right : MerkleHash) : MerkleHash :=
  fnv1a (1 :: (toLeBytes left ++ toLeBytes right))

abbrev ProofStep := Step MerkleHash

structure MerkleProof where
  leafIndex : ℕ
  leafHash : MerkleHash
  path : List ProofStep
  root : MerkleHash

structure UpdateProof where
  oldProof : MerkleProof
  newProof : MerkleProof
  changedIndex : ℕ

/-- `VerifierError`, as far as it occurs. -/
inductive VerifierError where
  | emptyTree
  | leafIndexOutOfBounds (index : ℕ)

def nextPowerOfTwo (n : ℕ) : ℕ := 2 ^ Nat.clog 2 n

def recomputeRoot (proof : MerkleProof) : MerkleHash :=
  replay hashInternal proof.leafHash proof.path

structure MerkleProofVerifier where
  nodes : ℕ → MerkleHash
  paddedLeafCount : ℕ
  logicalLeafCount : ℕ
  height : ℕ
  leafData : List Bytes

/-- The nodes when only the leaves are there. -/
def leafNodes (padded : ℕ) (leafData : List Bytes) (i : ℕ) : MerkleHash :=
  if padded ≤ i then (leafData[i - padded]?).elim 0 hashLeaf else 0

namespace MerkleProofVerifier

/-- `new`, of at least one leaf. -/
def build (leaves : List Bytes) : MerkleProofVerifier :=
  let padded := nextPowerOfTwo leaves.length
  let leafData := leaves ++ List.replicate (padded - leaves.length) []
  { nodes := sealUpTo hashInternal (padded - 1) (leafNodes padded leafData)
    paddedLeafCount := padded
    logicalLeafCount := leaves.length
    height := Nat.log 2 padded + 1
    leafData := leafData }

def new (leaves : List Bytes) : Except VerifierError MerkleProofVerifier :=
  if leaves = [] then .error .emptyTree else .ok (build leaves)

variable (t : MerkleProofVerifier)

def root : MerkleHash := t.nodes 1

def generateProof (index : ℕ) : Except VerifierError MerkleProof :=
  if t.logicalLeafCount ≤ index then .error (.leafIndexOutOfBounds index)
  else
    let node := t.paddedLeafCount + index
    .ok ⟨index, t.nodes node, path t.nodes node, t.root⟩

def verifyAgainstRoot (proof : MerkleProof) (expectedRoot : MerkleHash) : Bool :=
  recomputeRoot proof = expectedRoot && recomputeRoot proof = proof.root

def verifyProof (proof : MerkleProof) : Bool :=
  verifyAgainstRoot proof t.root

/-- A new leaf, and the nodes above it made anew. -/
def withLeaf (index : ℕ) (newData : Bytes) : MerkleProofVerifier :=
  let node := t.paddedLeafCount + index
  { t with
    nodes := reseal hashInternal (node / 2) (Function.update t.nodes node (hashLeaf newData))
    leafData := t.leafData.set index newData }

def updateLeaf (index : ℕ) (newData : Bytes) :
    Except VerifierError (MerkleProofVerifier × UpdateProof) := do
  let oldProof ← t.generateProof index
  let newProof ← (t.withLeaf index newData).generateProof index
  return (t.withLeaf index newData, ⟨oldProof, newProof, index⟩)

def verifyUpdate (update : UpdateProof) : Bool :=
  update.oldProof.leafIndex = update.changedIndex &&
    update.newProof.leafIndex = update.changedIndex &&
    recomputeRoot update.oldProof = update.oldProof.root &&
    recomputeRoot update.newProof = update.newProof.root

/-- Some updates, one after the other; one that fails changes nothing. -/
def updateLeaves (updates : List (ℕ × Bytes)) : MerkleProofVerifier :=
  updates.foldl (fun t u => ((t.updateLeaf u.1 u.2).toOption.map Prod.fst).getD t) t

/-! ### Updates -/

variable {leaves : List Bytes} {index : ℕ}

theorem length_le_padded (leaves : List Bytes) : leaves.length ≤ nextPowerOfTwo leaves.length :=
  Nat.le_pow_clog Nat.one_lt_two _

theorem sealed_build (leaves : List Bytes) :
    Sealed hashInternal (nextPowerOfTwo leaves.length) (build leaves).nodes :=
  sealed_sealUpTo _ _

theorem nodes_build {i : ℕ} (hi : i = 0 ∨ nextPowerOfTwo leaves.length ≤ i) :
    (build leaves).nodes i = leafNodes (nextPowerOfTwo leaves.length) (build leaves).leafData i :=
  sealUpTo_of_lt (hi.imp_right (Nat.sub_lt (Nat.two_pow_pos _) Nat.one_pos).trans_le)

/-- **A new leaf makes the tree of the new leaves.** -/
theorem withLeaf_build (hindex : index < leaves.length) (newData : Bytes) :
    (build leaves).withLeaf index newData = build (leaves.set index newData) := by
  have hpadded := length_le_padded leaves
  have hlen := leaves.length_set (i := index) (a := newData)
  have hdata : (build (leaves.set index newData)).leafData =
      (build leaves).leafData.set index newData := by
    simp only [build, hlen, List.set_append_left _ _ hindex]
  have hnodes := (sealed_build leaves).reseal_update
    (hlen ▸ sealed_build (leaves.set index newData)) (p := nextPowerOfTwo leaves.length + index)
    (a := hashLeaf newData) (by omega) (by omega)
    fun i hi => by
      rw [nodes_build (by rwa [hlen]), hlen, hdata]
      by_cases hnode : i = nextPowerOfTwo leaves.length + index
      · rw [hnode, Function.update_self, leafNodes, if_pos (by omega), Nat.add_sub_cancel_left,
          List.getElem?_set_self (by simp [build]; omega)]
        rfl
      · rw [Function.update_of_ne hnode, nodes_build hi, leafNodes, leafNodes]
        split
        · rw [List.getElem?_set_ne (by omega)]
        · rfl
  calc (build leaves).withLeaf index newData
      = { build leaves with
          nodes := (build (leaves.set index newData)).nodes
          leafData := (build (leaves.set index newData)).leafData } := by
        rw [← hnodes, hdata]
        rfl
    _ = build (leaves.set index newData) := by simp only [build, hlen]

variable {data : Bytes} {t : MerkleProofVerifier}

/-- **Proofs verify**, also those of an update. -/
theorem generateProof_build (hdata : leaves[index]? = some data) :
    ∃ proof, (build leaves).generateProof index = .ok proof ∧ proof.leafIndex = index ∧
      proof.leafHash = hashLeaf data ∧ proof.root = (build leaves).root ∧
      recomputeRoot proof = proof.root := by
  have hpadded := length_le_padded leaves
  obtain ⟨hindex, hget⟩ := List.getElem?_eq_some_iff.mp hdata
  refine ⟨_, if_neg (Nat.not_le_of_lt hindex), rfl, ?_, rfl,
    (sealed_build leaves).replay_path (Nat.add_pos_left (Nat.two_pow_pos _) _)
      (show nextPowerOfTwo leaves.length + index < _ by omega)⟩
  change (build leaves).nodes (nextPowerOfTwo leaves.length + index) = _
  rw [nodes_build (Or.inr (Nat.le_add_right _ _)), leafNodes, if_pos (Nat.le_add_right _ _),
    Nat.add_sub_cancel_left, build, List.getElem?_append_left hindex, hdata]
  rfl

theorem updateLeaf_build (hindex : index < leaves.length) (newData : Bytes) :
    ∃ oldProof newProof, (build leaves).generateProof index = .ok oldProof ∧
      (build (leaves.set index newData)).generateProof index = .ok newProof ∧
      (build leaves).updateLeaf index newData =
        .ok (build (leaves.set index newData), ⟨oldProof, newProof, index⟩) := by
  obtain ⟨oldProof, hold, -⟩ := generateProof_build (List.getElem?_eq_getElem hindex)
  obtain ⟨newProof, hnew, -⟩ := generateProof_build (List.getElem?_set_self (a := newData) hindex)
  refine ⟨oldProof, newProof, hold, hnew, ?_⟩
  rw [updateLeaf, hold, withLeaf_build hindex, hnew]
  rfl

theorem updateLeaves_build (leaves : List Bytes) (updates : List (ℕ × Bytes)) :
    (build leaves).updateLeaves updates =
      build (updates.foldl (fun leaves u => leaves.set u.1 u.2) leaves) := by
  induction updates generalizing leaves with
  | nil => rfl
  | cons u updates ih =>
    rw [List.foldl_cons, ← ih, updateLeaves, updateLeaves, List.foldl_cons]
    congr 1
    by_cases hindex : u.1 < leaves.length
    · obtain ⟨oldProof, newProof, -, -, h⟩ := updateLeaf_build hindex u.2
      rw [h]
      rfl
    · -- refused
      rw [List.set_eq_of_length_le (Nat.not_lt.mp hindex), updateLeaf, generateProof,
        if_pos (show (build leaves).logicalLeafCount ≤ u.1 from Nat.not_lt.mp hindex)]
      rfl

theorem new_eq_ok : new leaves = .ok t ↔ leaves ≠ [] ∧ build leaves = t := by
  unfold new
  split
  · next hnil => simp [hnil]
  · next hne => simp [hne]

/-- **Updates along one path** make the tree that `new` builds from the leaves after them. -/
theorem new_updateLeaves (h : new leaves = .ok t) (updates : List (ℕ × Bytes)) :
    new (updates.foldl (fun leaves u => leaves.set u.1 u.2) leaves) =
      .ok (t.updateLeaves updates) := by
  obtain ⟨hne, rfl⟩ := new_eq_ok.mp h
  refine new_eq_ok.mpr ⟨?_, (updateLeaves_build leaves updates).symm⟩
  clear h
  induction updates generalizing leaves with
  | nil => exact hne
  | cons u updates ih => exact ih (by simpa using hne)

theorem new_updateLeaves_three :
    new [[1], [9], [3]] = .ok ((build [[1], [2], [3]]).updateLeaves [(1, [9])]) :=
  new_updateLeaves (show new [[1], [2], [3]] = .ok (build [[1], [2], [3]]) from rfl) [(1, [9])]

/-- **Proofs verify** after any updates, and so do those of the next one. -/
theorem verify_generateProof (h : new leaves = .ok t) (updates : List (ℕ × Bytes))
    (hdata : (updates.foldl (fun leaves u => leaves.set u.1 u.2) leaves)[index]? = some data)
    (newData : Bytes) :
    ∃ proof, (t.updateLeaves updates).generateProof index = .ok proof ∧
      proof.leafHash = hashLeaf data ∧ (t.updateLeaves updates).verifyProof proof = true ∧
      ∃ t' update, (t.updateLeaves updates).updateLeaf index newData = .ok (t', update) ∧
        update.oldProof = proof ∧ t'.verifyProof update.newProof = true ∧
        verifyUpdate update = true := by
  obtain ⟨-, rfl⟩ := new_eq_ok.mp h
  rw [updateLeaves_build]
  have hindex := (List.getElem?_eq_some_iff.mp hdata).1
  obtain ⟨proof, hproof, hold, hhash, hroot, hreplay⟩ := generateProof_build hdata
  obtain ⟨proof', hproof', hnew, -, hroot', hreplay'⟩ :=
    generateProof_build (List.getElem?_set_self (a := newData) hindex)
  obtain ⟨_, _, h, h', hupdate⟩ := updateLeaf_build hindex newData
  obtain rfl := Except.ok.inj (hproof.symm.trans h)
  obtain rfl := Except.ok.inj (hproof'.symm.trans h')
  refine ⟨proof, hproof, hhash, ?_, _, _, hupdate, rfl, ?_, ?_⟩
  · simp [verifyProof, verifyAgainstRoot, hreplay, hroot]
  · simp [verifyProof, verifyAgainstRoot, hreplay', hroot']
  · simp [verifyUpdate, hold, hnew, hreplay, hreplay']

/-- Three leaves, of which two are replaced; an update out of bounds is refused. -/
theorem verify_generateProof_three :
    let t := (build [[1], [2], [3]]).updateLeaves [(2, [8]), (7, [5]), (0, [9])]
    ∃ proof, t.generateProof 2 = .ok proof ∧ proof.leafHash = hashLeaf [8] ∧
      t.verifyProof proof = true ∧
      ∃ t' update, t.updateLeaf 2 [4] = .ok (t', update) ∧ update.oldProof = proof ∧
        t'.verifyProof update.newProof = true ∧ verifyUpdate update = true :=
  verify_generateProof (show new [[1], [2], [3]] = .ok (build [[1], [2], [3]]) from rfl)
    [(2, [8]), (7, [5]), (0, [9])] rfl [4]

end MerkleProofVerifier

end Ipfrs.Merkle
